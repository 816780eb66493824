import ScriptIndent.Proofs.Embedding.Statements

/-!
# ScriptIndent.Proofs.Embedding.InFunction

Statements of a program in the body of a function.

```
let a =        ┆  function f() {
  1            ┆  let a =
               ┆    1
               ┆  }
```

The statements of a script are put in the body of a function, on lines of their own
(`Source.inFunction`).  There each of them starts at one level from the brace and not at
an absolute level, and all other entries are the same (`Script.registers`).
-/

namespace ScriptIndent

open Piece

namespace Bytes

/-- The line `function f() {`. -/
def functionHead : List UInt8 :=
  [0x66, 0x75, 0x6E, 0x63, 0x74, 0x69, 0x6F, 0x6E, 0x20, 0x66, 0x28, 0x29, 0x20, 0x7B, 0x0A]

/-- The end of a line, and a closing brace. -/
def functionFoot : List UInt8 := [0x0A, 0x7D]

end Bytes

namespace Source

open Bytes

/-! ## the parts of the function -/

def functionKeyword : Node := ⟨"function", false, false, false, [], 0, 8, []⟩

def functionName : Node := ⟨"identifier", true, false, false, ["name"], 9, 10, []⟩

def functionParameters : Node :=
  ⟨"formal_parameters", true, false, false, ["parameters"], 10, 12,
    [⟨"(", false, false, false, [], 10, 11, []⟩, ⟨")", false, false, false, [], 11, 12, []⟩]⟩

def functionOpening : Node := ⟨"\x7b", false, false, false, [], 13, 14, []⟩

/-- The closing brace, behind a text of some length. -/
def functionClosing (length : Nat) : Node :=
  ⟨"\x7d", false, false, false, [], length + 16, length + 17, []⟩

def functionBody (statements : List Node) (length : Nat) : Node :=
  ⟨"statement_block", true, false, false, ["body"], 13, length + 17,
    functionOpening :: (statements.map (Node.shift 15) ++ [functionClosing length])⟩

def functionAround (statements : List Node) (length : Nat) : Node :=
  ⟨"function_declaration", true, false, false, [], 0, length + 17,
    [functionKeyword, functionName, functionParameters, functionBody statements length]⟩

/-- The source of a function around the statements of another source. -/
def inFunction (s : Source) : Source :=
  .ofTree (functionHead ++ (s.buffer.bytes.toList ++ functionFoot)).toArray
    ⟨"program", true, false, false, [], 0, s.buffer.bytes.size + 17,
      [functionAround s.root.children s.buffer.bytes.size]⟩ s.path []

/-- A program by itself, in no host document. -/
structure Script (s : Source) : Prop where
  kind_eq : s.root.kind = "program"
  grammatical : s.root.Grammatical s.buffer
  fields : s.root.FieldsInBodies
  /-- There is no program in the program. -/
  programs : ∀ m : Node, m.Below s.root → m.kind ≠ "program"
  start_nonneg : 0 ≤ s.root.start
  stop_le : s.root.stop ≤ s.buffer.bytes.size
  /-- A program without statements is empty. -/
  blank : s.root.children = [] → s.root.start = s.root.stop
  blocks_eq_nil : s.blocks = []

variable {s : Source}

/-! ## texts -/

theorem text_inFunction (s : Source) : s.inFunction.buffer.bytes.toList =
    functionHead ++ (s.buffer.bytes.toList ++ functionFoot) := rfl

/-- The parts of the function's first line are spelled as they are in that line. -/
theorem spells_head (s : Source) {n : Node} {value : String}
    (hin : n.InText (.ofBytes functionHead.toArray))
    (h : n.Spells (.ofBytes functionHead.toArray) value) : n.Spells s.inFunction.buffer value := by
  have htext : s.inFunction.buffer.bytes.toList =
      [] ++ ((Buffer.ofBytes functionHead.toArray).bytes.toList ++
        (s.buffer.bytes.toList ++ functionFoot)) := s.text_inFunction
  have := (hin.spells_shift htext).2 h
  rwa [List.length_nil, Int.natCast_zero, Node.shift_zero] at this

/-- A word of the function's first line. -/
theorem leaf_spells (s : Source) {n : Node} {value : String} (hnamed : n.isNamed = false)
    (hkind : n.kind = value) (hchildren : n.children = []) (hsub : value ≠ "template_substitution")
    (hstart : 0 ≤ n.start) (hlt : n.start < n.stop) (hstop : n.stop ≤ 15)
    (htext : (Buffer.ofBytes functionHead.toArray).text n.start n.stop = value) :
    n.Spells s.inFunction.buffer value := by
  have hspells : n.Spells (.ofBytes functionHead.toArray) value :=
    ⟨hnamed, hkind, hchildren, hlt, htext⟩
  have hsound := hspells.sound hsub
  exact spells_head s ⟨fun m hm => (hsound m hm).inOrder, fun m hm => (hsound m hm).bracketed,
    hstart, hstop⟩ hspells

theorem keyword_spells (s : Source) : functionKeyword.Spells s.inFunction.buffer "function" :=
  leaf_spells s rfl rfl rfl (by decide) (by decide) (by decide) (by decide) (by decide +kernel)

theorem opening_spells (s : Source) : functionOpening.Spells s.inFunction.buffer "\x7b" :=
  leaf_spells s rfl rfl rfl (by decide) (by decide) (by decide) (by decide) (by decide +kernel)

/-- The closing brace is spelled as it is by itself. -/
theorem closing_spells (s : Source) :
    (functionClosing s.buffer.bytes.size).Spells s.inFunction.buffer "\x7d" := by
  have hfoot : Node.Spells (.ofBytes functionFoot.toArray) ⟨"\x7d", false, false, false, [], 1, 2, []⟩
      "\x7d" := by decide +kernel
  have hsound := hfoot.sound (by decide)
  have htext : s.inFunction.buffer.bytes.toList =
      (functionHead ++ s.buffer.bytes.toList) ++
        ((Buffer.ofBytes functionFoot.toArray).bytes.toList ++ []) := by
    simp [text_inFunction, Buffer.ofBytes]
  have hlength : ((functionHead ++ s.buffer.bytes.toList).length : Int) =
      s.buffer.bytes.size + 15 := by
    simp [functionHead]
    lia
  have hmoved := (Node.InText.spells_shift htext ⟨fun m hm => (hsound m hm).inOrder,
    fun m hm => (hsound m hm).bracketed, by decide, by decide⟩).2 hfoot
  have hnode : functionClosing s.buffer.bytes.size =
      Node.shift (functionHead ++ s.buffer.bytes.toList).length
        ⟨"\x7d", false, false, false, [], 1, 2, []⟩ := by
    simp only [functionClosing, Node.shift, Node.shiftAll, hlength, Node.mk.injEq, true_and]
    lia
  rwa [hnode]

/-! ## the tree -/

theorem name_sound (s : Source) : functionName.Sound s.inFunction.buffer :=
  Node.sound_of_leaf (by decide) rfl (by decide) (by decide)

theorem parameters_enclosed (s : Source) :
    functionParameters.Enclosed s.inFunction.buffer "(" ")" :=
  ⟨⟨by decide, by decide⟩, _, [], _, rfl,
    leaf_spells s rfl rfl rfl (by decide) (by decide) (by decide) (by decide) (by decide +kernel),
    leaf_spells s rfl rfl rfl (by decide) (by decide) (by decide) (by decide) (by decide +kernel)⟩

theorem parameters_sound (s : Source) : functionParameters.Sound s.inFunction.buffer := by
  obtain ⟨hcompound, opening, inner, closing, hcs, hopening, hclosing⟩ := parameters_enclosed s
  obtain ⟨rfl, rfl, rfl⟩ : _ = opening ∧ [] = inner ∧ _ = closing := by
    cases inner with
    | nil => simpa [functionParameters] using hcs
    | cons n rest => simp [functionParameters] at hcs
  refine hcompound.sound (by decide) (by decide) List.mem_cons_self
    (Node.hasToken_of_leaf (by decide) (by decide) rfl) (by decide) (by decide)
    hcompound.plainShape ?_
  simp only [functionParameters, List.forall_mem_cons]
  exact ⟨hopening.sound (by decide), hclosing.sound (by decide), by simp⟩

namespace Script

variable (h : s.Script)

include h

theorem inText : s.root.InText s.buffer :=
  ⟨h.grammatical.nested, h.grammatical.bracketed, h.start_nonneg, h.stop_le⟩

/-- The statements are sound where they are found. -/
theorem statement_sound {c : Node} (hc : c ∈ s.root.children) :
    (c.shift 15).Sound s.inFunction.buffer := by
  have hsize : 0 < s.inFunction.buffer.bytes.size := by
    rw [← Array.length_toList, text_inFunction]
    simp [functionHead]
  exact (Node.copies_shift s.text_inFunction hsize).sound_shift (h.inText.of_mem hc)
    (h.grammatical.sound_of_mem hc)

omit h in
theorem body_enclosed (s : Source) :
    (functionBody s.root.children s.buffer.bytes.size).Enclosed s.inFunction.buffer "\x7b" "\x7d" :=
  ⟨Node.isCompound_of_ofKind? (show Construct.ofKind? "statement_block" = some .block by decide)
    (by decide) (by decide), _, _, _, rfl, opening_spells s, closing_spells s⟩

theorem body_sound :
    (functionBody s.root.children s.buffer.bytes.size).Sound s.inFunction.buffer := by
  have hopening := (opening_spells s).sound (by decide)
  have hclosing := (closing_spells s).sound (by decide)
  have hstart := h.start_nonneg
  have hstop := h.stop_le
  have hstatements := (Node.inOrder_shift (d := 15) h.grammatical.nested.inOrder).weaken
    (show (14 : Offset) ≤ _ by lia)
  have hinner : Node.InOrder 14 (s.buffer.bytes.size + 17)
      (s.root.children.map (Node.shift 15) ++ [functionClosing s.buffer.bytes.size]) :=
    hstatements.concat ⟨by simp only [functionClosing]; lia, by simp only [functionClosing]; lia,
      Int.le_refl _⟩
  have hlt : (functionBody s.root.children s.buffer.bytes.size).start <
      (functionBody s.root.children s.buffer.bytes.size).stop := by
    simp only [functionBody]
    lia
  refine (body_enclosed s).1.sound ⟨Int.le_refl 13, by decide, hinner⟩ hlt List.mem_cons_self
    (Node.hasToken_of_leaf (by decide) (by decide) rfl) (show "statement_block" ≠ _ by decide)
    (show Construct.ofKind? "statement_block" = some .block by decide) (body_enclosed s) ?_
  simp only [functionBody, List.forall_mem_cons, List.forall_mem_append, List.forall_mem_map]
  exact ⟨hopening, fun c hc => h.statement_sound hc, hclosing, by simp⟩

omit h in
theorem isCompound_around (s : Source) :
    (functionAround s.root.children s.buffer.bytes.size).IsCompound :=
  Node.isCompound_of_ofKind? (show Construct.ofKind? "function_declaration" = some .function by decide)
    (by decide) (by decide)

omit h in
theorem isCompound_root (s : Source) : s.inFunction.root.IsCompound :=
  Node.isCompound_of_ofKind? (show Construct.ofKind? "program" = some .program by decide)
    (by decide) (by decide)

omit h in
theorem isPart_parameters (s : Source) :
    (functionAround s.root.children s.buffer.bytes.size).IsPart "parameters" functionParameters :=
  ⟨rfl, Node.mem_codeChildren.2 ⟨by simp [functionAround], rfl, by decide⟩⟩

omit h in
theorem isPart_body (s : Source) : (functionAround s.root.children s.buffer.bytes.size).IsPart "body"
    (functionBody s.root.children s.buffer.bytes.size) :=
  ⟨rfl, Node.mem_codeChildren.2 ⟨by simp [functionAround], rfl, (body_enclosed s).1.1⟩⟩

theorem around_sound :
    (functionAround s.root.children s.buffer.bytes.size).Sound s.inFunction.buffer := by
  have hkeyword := (keyword_spells s).sound (by decide)
  have hbody := h.body_sound
  have hrule : Construct.ofKind? "function_declaration" = some .function := by decide
  have hlt : (functionBody s.root.children s.buffer.bytes.size).start ≤
      (functionBody s.root.children s.buffer.bytes.size).stop := by
    simp only [functionBody]
    lia
  have hinOrder : Node.InOrder 0 (s.buffer.bytes.size + 17)
      (functionAround s.root.children s.buffer.bytes.size).children :=
    ⟨by decide, by decide, by decide, by decide, by decide, by decide,
      show (12 : Offset) ≤ 13 by decide, hlt, Int.le_refl _⟩
  refine (isCompound_around s).sound hinOrder ?_ List.mem_cons_self
    (Node.hasToken_of_leaf (by decide) (by decide) rfl)
    (show "function_declaration" ≠ "template_substitution" by decide) hrule
    ⟨functionParameters, functionBody s.root.children s.buffer.bytes.size, isPart_parameters s,
      parameters_enclosed s, isPart_body s⟩ ?_
  · simp only [functionAround]
    lia
  · simp only [functionAround, List.forall_mem_cons]
    exact ⟨hkeyword, name_sound s, parameters_sound s, hbody, by simp⟩

/-- The program around the statements is grammatical. -/
theorem grammatical_inFunction : s.inFunction.root.Grammatical s.inFunction.buffer := by
  have hrule : Construct.ofKind? "program" = some .program := by decide
  have hle : (0 : Offset) ≤ s.buffer.bytes.size + 17 := by lia
  refine Node.Grammatical.of_children ⟨Int.le_refl 0, hle, Int.le_refl _⟩
    (show "program" ≠ "template_substitution" by decide) (fun construct hconstruct => ?_) ?_
  · obtain rfl : Construct.program = construct := Option.mem_unique hrule hconstruct
    trivial
  · simp only [inFunction, ofTree, List.forall_mem_cons]
    exact ⟨h.around_sound, by simp⟩

/-! ## the pieces -/

/-- The pieces of the function's first line. -/
def headPieces (s : Source) : List Piece :=
  [functionKeyword, functionName, functionParameters, functionOpening].flatMap
    (Node.pieces s.inFunction.buffer)

omit h in
theorem codeCount_parameters (s : Source) :
    codeCount (functionParameters.pieces s.inFunction.buffer) = 2 := by
  have hn := (parameters_enclosed s).1
  rw [Node.pieces_eq_flatMap (fun m hm => (parameters_sound s m hm).inOrder) hn (by decide)]
  simp only [functionParameters, List.flatMap_cons, List.flatMap_nil, codeCount_append]
  rw [Node.codeCount_of_leaf (by decide) (by decide) rfl,
    Node.codeCount_of_leaf (by decide) (by decide) rfl]
  rfl

omit h in
theorem codeCount_headPieces (s : Source) : codeCount (headPieces s) = 5 := by
  simp only [headPieces, List.flatMap_cons, List.flatMap_nil, codeCount_append, codeCount_parameters]
  rw [Node.codeCount_of_leaf (by decide) (by decide) rfl,
    Node.codeCount_of_leaf (by decide) (by decide) rfl,
    Node.codeCount_of_leaf (by decide) (by decide) rfl]
  rfl

theorem pieces_root : s.root.pieces s.buffer = s.root.children.flatMap (Node.pieces s.buffer) := by
  have hn : s.root.IsCompound := Node.isCompound_of_ofKind?
    (show Construct.ofKind? s.root.kind = some .program by rw [h.kind_eq]; decide)
    (by decide) (by decide)
  by_cases hchildren : s.root.children = []
  · rw [Node.pieces_eq, if_pos (h.blank hchildren), hchildren, List.flatMap_nil]
  · exact Node.pieces_eq_flatMap h.grammatical.nested hn hchildren

/-- The pieces of the statements are found between those of the function. -/
theorem pieces_inFunction : s.inFunction.root.pieces s.inFunction.buffer =
    headPieces s ++ ((s.root.pieces s.buffer).map (Shift.excerpt s.text_inFunction).piece ++
      (functionClosing s.buffer.bytes.size).pieces s.inFunction.buffer) := by
  have g := h.grammatical_inFunction
  have hstatements : (s.root.children.map (Node.shift 15)).flatMap
      (Node.pieces s.inFunction.buffer) =
      (s.root.pieces s.buffer).map (Shift.excerpt s.text_inFunction).piece := by
    rw [h.pieces_root, List.flatMap_map, List.map_flatMap]
    exact List.flatMap_congr fun c hc => (h.inText.of_mem hc).pieces_shift s.text_inFunction
  have hbody : (functionBody s.root.children s.buffer.bytes.size).pieces s.inFunction.buffer =
      (functionOpening :: (s.root.children.map (Node.shift 15) ++
        [functionClosing s.buffer.bytes.size])).flatMap (Node.pieces s.inFunction.buffer) :=
    Node.pieces_eq_flatMap (fun m hm => (h.body_sound m hm).inOrder) (body_enclosed s).1
      (List.cons_ne_nil _ _)
  have haround : (functionAround s.root.children s.buffer.bytes.size).pieces s.inFunction.buffer =
      [functionKeyword, functionName, functionParameters,
        functionBody s.root.children s.buffer.bytes.size].flatMap
          (Node.pieces s.inFunction.buffer) :=
    Node.pieces_eq_flatMap (fun m hm => (h.around_sound m hm).inOrder) (isCompound_around s)
      (List.cons_ne_nil _ _)
  have hroot : s.inFunction.root.pieces s.inFunction.buffer =
      [functionAround s.root.children s.buffer.bytes.size].flatMap
        (Node.pieces s.inFunction.buffer) :=
    Node.pieces_eq_flatMap h.grammatical_inFunction.nested (isCompound_root s)
      (List.cons_ne_nil _ _)
  rw [hroot, List.flatMap_singleton, haround]
  simp only [headPieces, List.flatMap_cons, List.flatMap_append, List.flatMap_nil, hbody,
    hstatements, List.append_assoc, List.append_nil]

omit h in
/-- Everything before the statements stands on the first line. -/
theorem line_of_head {p : Piece} (hp : p ∈ headPieces s) :
    s.inFunction.buffer.lineOf p.start = 1 ∧ s.inFunction.buffer.lineOf (p.stop - 1) = 1 ∧
      p.start < p.stop := by
  have hinOrder : Node.InOrder 0 14
      [functionKeyword, functionName, functionParameters, functionOpening] := by decide
  have hbetween := Piece.between_flatMap (f := Node.pieces s.inFunction.buffer) hinOrder
    fun n hn => by
      have hsound : n.Sound s.inFunction.buffer := by
        simp only [List.mem_cons, List.not_mem_nil, or_false] at hn
        rcases hn with rfl | rfl | rfl | rfl
        · exact (keyword_spells s).sound (by decide)
        · exact name_sound s
        · exact parameters_sound s
        · exact (opening_spells s).sound (by decide)
      exact Node.pieces_between (fun m hm => (hsound m hm).inOrder)
        fun m hm => (hsound m hm).bracketed
  obtain ⟨hstart, hlt, hstop⟩ := hbetween.mem hp
  have hline {o : Offset} (hnonneg : 0 ≤ o) (ho : o ≤ 14) : s.inFunction.buffer.lineOf o = 1 := by
    have hlast : s.inFunction.buffer.lineOf 14 = 1 := by
      rw [Buffer.lineOf_eq _ (by decide), text_inFunction,
        List.take_append_of_le_length (by decide)]
      decide
    have := s.inFunction.buffer.lineOf_mono ho
    have := s.inFunction.buffer.lineOf_pos hnonneg
    omega
  exact ⟨hline (by lia) (by lia), hline (by lia) (by lia), hlt⟩

/-! ## the tokens -/

theorem size_tokens_inFunction : s.inFunction.tokens.size = s.tokens.size + 6 := by
  have hclosing : codeCount ((functionClosing s.buffer.bytes.size).pieces s.inFunction.buffer) = 1 :=
    Node.codeCount_of_leaf (closing_spells s).lt (show Node.IsSpelling "\x7d" by decide) rfl
  rw [size_tokens, codePieces, ← codeCount_eq_length_filter, h.pieces_inFunction, codeCount_append,
    codeCount_append, codeCount_headPieces, hclosing, Shift.codeCount_map, size_tokens,
    codePieces, ← codeCount_eq_length_filter]
  omega

theorem size_pos : 0 < s.inFunction.tokens.size := by
  rw [h.size_tokens_inFunction]
  exact Nat.succ_pos _

/-- Where the parts of the function stand. -/
theorem stands :
    s.inFunction.Stands (functionAround s.root.children s.buffer.bytes.size) 0
        s.inFunction.tokens.size ∧
      s.inFunction.Stands functionKeyword 0 1 ∧ s.inFunction.Stands functionName 1 2 ∧
      s.inFunction.Stands functionParameters 2 4 ∧
      s.inFunction.Stands (functionBody s.root.children s.buffer.bytes.size) 4
        s.inFunction.tokens.size := by
  have hroot := stands_root h.grammatical_inFunction
  have hchildren : s.inFunction.root.children =
      [functionAround s.root.children s.buffer.bytes.size] := rfl
  have hrun := hroot.spans.run (isCompound_root s) (List.cons_ne_nil _ _)
  generalize s.inFunction.tokens.size = size at *
  rw [hchildren] at hrun
  obtain ⟨_, hspans, rfl⟩ := hrun
  have haround := hroot.of_spans List.mem_cons_self hspans
  obtain ⟨a, hkeyword, b, hname, c, hparameters, d, hbody, rfl⟩ :
      s.inFunction.SpanRun [functionKeyword, functionName, functionParameters,
        functionBody s.root.children s.buffer.bytes.size] 0 _ :=
    haround.spans.run (isCompound_around s) (List.cons_ne_nil _ _)
  obtain rfl : a = 1 := by
    rw [hkeyword.stop_eq, Node.codeCount_of_leaf (by decide) (by decide) rfl]
  obtain rfl : b = 2 := by
    rw [hname.stop_eq, Node.codeCount_of_leaf (by decide) (by decide) rfl]
  obtain rfl : c = 4 := by
    rw [hparameters.stop_eq, codeCount_parameters]
  exact ⟨haround, haround.of_spans List.mem_cons_self hkeyword,
    haround.of_spans (by simp [functionAround]) hname,
    haround.of_spans (by simp [functionAround]) hparameters,
    haround.of_spans (by simp [functionAround]) hbody⟩

/-- The braces of the function. -/
theorem braces :
    (∃ t, s.inFunction.At 4 t ∧ t.value = "\x7b") ∧
      ∃ t, s.inFunction.At (s.inFunction.tokens.size - 1) t ∧ t.value = "\x7d" := by
  obtain ⟨-, -, -, -, hbody⟩ := h.stands
  obtain ⟨-, ⟨t, ht, hopening, -⟩, ⟨u, hu, hclosing, -⟩, -⟩ :=
    hbody.enclosed (body_enclosed s) (by decide) (by decide)
  exact ⟨⟨t, ht, hopening⟩, u, hu, hclosing⟩

/-- The function is found around the statements. -/
theorem surrounds : s.inFunction.Surrounds s functionHead functionFoot (headPieces s)
    ((functionClosing s.buffer.bytes.size).pieces s.inFunction.buffer) 0 s.buffer.bytes.size where
  text := s.text_inFunction
  pieces := h.pieces_inFunction
  between := by
    have hbetween := Node.pieces_between (b := s.buffer) h.grammatical.nested h.grammatical.bracketed
    have hstart : Piece.Between 0 s.root.start [] := h.start_nonneg
    have hstop : Piece.Between s.root.stop s.buffer.bytes.size [] := h.stop_le
    have := (hstart.append hbetween).append hstop
    rwa [List.nil_append, List.append_nil] at this
  nonneg := Int.le_refl 0
  le := Int.le_refl _
  ordered := ⟨_, _, Node.pieces_between h.grammatical_inFunction.nested
    h.grammatical_inFunction.bracketed⟩
  above {p} hp := by
    have hbody : s.inFunction.buffer.lineOf (0 + functionHead.length) = 2 := by
      rw [Buffer.lineOf_eq _ (by decide), text_inFunction,
        List.take_append_of_le_length (by decide)]
      decide
    rw [hbody, (line_of_head hp).2.1]
    exact Nat.one_lt_two
  below {p} hp := by
    have hnonneg : (0 : Offset) ≤ s.buffer.bytes.size := by lia
    have hlast : s.inFunction.buffer.lineOf (s.buffer.bytes.size + functionHead.length) <
        s.inFunction.buffer.lineOf (s.buffer.bytes.size + 16) := by
      have hlength : (s.buffer.bytes.size + 16 : Offset).toNat =
          functionHead.length + (s.buffer.bytes.toList.length + 1) := by
        simp only [functionHead, List.length_cons, List.length_nil, Array.length_toList]
        lia
      rw [Shift.lineOf_shift s.text_inFunction hnonneg (Int.le_refl _),
        Buffer.lineOf_eq _ hnonneg, Buffer.lineOf_eq _ (by lia), text_inFunction, hlength,
        List.take_length_add_append, List.take_length_add_append, Bytes.feeds_append,
        Bytes.feeds_append, List.take_of_length_le (by simp)]
      simp only [functionFoot, List.take_succ_cons, List.take_zero]
      rw [show Bytes.feeds [0x0A] = 1 by decide]
      omega
    rw [Node.pieces_of_leaf (closing_spells s).lt (show Node.IsSpelling "\x7d" by decide) rfl,
      List.mem_singleton] at hp
    rw [hp]
    exact hlast
  baseLevel {t t'} _ := by
    have hblocks : s.inFunction.blocks = [] := rfl
    rw [baseLevel, baseLevel, hblocks, h.blocks_eq_nil]
    rfl
  opening {k t'} hk ht' := by
    obtain ⟨⟨t, ht, hvalue⟩, -⟩ := h.braces
    obtain rfl : k = 4 := by
      rw [codeCount_headPieces] at hk
      omega
    obtain rfl := Option.mem_unique ht ht'
    simp [Token.isOpeningParen, Token.isPunctuator, hvalue]
  closing {t'} ht' := by
    obtain ⟨-, t, ht, hvalue⟩ := h.braces
    have hsize := h.size_tokens_inFunction
    rw [codeCount_headPieces, show 5 + s.tokens.size = s.inFunction.tokens.size - 1 by omega] at ht'
    obtain rfl := Option.mem_unique ht ht'
    simp [Token.isClosingParen, Token.isPunctuator, hvalue]

/-! ## the walks -/

theorem rule_root : Construct.ofKind? s.root.kind = some .program := by
  rw [h.kind_eq]
  decide

/-- The nodes above the statements in the body of the function. -/
def aboveStatements (s : Source) : List Node :=
  [functionBody s.root.children s.buffer.bytes.size,
    functionAround s.root.children s.buffer.bytes.size, s.inFunction.root]

omit h in
theorem visited_body (s : Source) :
    (functionBody s.root.children s.buffer.bytes.size).visited (aboveStatements s).tail =
      ⟨functionBody s.root.children s.buffer.bytes.size, (aboveStatements s).tail⟩ ::
        (s.root.namedChildren.map (Node.shift 15)).flatMap (Node.visited (aboveStatements s)) := by
  have hrule : Construct.ofKind? "statement_block" = some .block := by decide
  have hnamed : (functionBody s.root.children s.buffer.bytes.size).namedChildren =
      s.root.namedChildren.map (Node.shift 15) := by
    simp [Node.namedChildren, functionBody, functionOpening, functionClosing, List.filter_map,
      Function.comp_def]
  rw [Node.visited_of_ofKind? hrule, hnamed]
  rfl

omit h in
/-- The walk visits the function, its name and its parameters, and then its body. -/
theorem visited_around (s : Source) :
    (functionAround s.root.children s.buffer.bytes.size).visited [s.inFunction.root] =
      ⟨functionAround s.root.children s.buffer.bytes.size, [s.inFunction.root]⟩ ::
        ⟨functionName, (aboveStatements s).tail⟩ ::
          ⟨functionParameters, (aboveStatements s).tail⟩ ::
            (functionBody s.root.children s.buffer.bytes.size).visited (aboveStatements s).tail := by
  have hrule : Construct.ofKind? "function_declaration" = some .function := by decide
  rw [Node.visited_of_ofKind? hrule]
  have hname := Node.visited_of_ofKind? (n := functionName)
    (show Construct.ofKind? "identifier" = some .plain by decide) (aboveStatements s).tail
  have hparameters := Node.visited_of_ofKind? (n := functionParameters)
    (show Construct.ofKind? "formal_parameters" = some .plain by decide) (aboveStatements s).tail
  have hnamed : (functionAround s.root.children s.buffer.bytes.size).namedChildren =
      [functionName, functionParameters, functionBody s.root.children s.buffer.bytes.size] := rfl
  rw [hnamed]
  change _ :: List.flatMap (Node.visited (aboveStatements s).tail) _ = _
  rw [List.flatMap_cons, List.flatMap_cons, List.flatMap_singleton, hname, hparameters]
  rfl

omit h in
theorem visited_inFunction (s : Source) : s.inFunction.root.visited [] =
    ⟨s.inFunction.root, []⟩ ::
      (functionAround s.root.children s.buffer.bytes.size).visited [s.inFunction.root] := by
  have hrule : Construct.ofKind? "program" = some .program := by decide
  have hnamed : s.inFunction.root.namedChildren =
      [functionAround s.root.children s.buffer.bytes.size] := rfl
  rw [Node.visited_of_ofKind? hrule, hnamed, List.flatMap_singleton]

/-- The rule of the function places tokens of its first line only. -/
theorem around_meets (caseLevels : Int) :
    ∃ draft, Rule.visit? s.inFunction caseLevels
        ⟨functionAround s.root.children s.buffer.bytes.size, [s.inFunction.root]⟩ = some draft ∧
      draft.Meets (fun e => ∃ l, l < 5 ∧ s.inFunction.At l e.token) fun _ => True := by
  have hrule : Construct.ofKind? "function_declaration" = some .function := by decide
  obtain ⟨haround, -, -, hparameters, hbody⟩ := h.stands
  obtain ⟨-, t, ht, hvalue⟩ := h.braces
  have hsize := h.size_tokens_inFunction
  have hcommon : Rule.common s.inFunction
      (functionAround s.root.children s.buffer.bytes.size) = [] :=
    Rule.common_eq_nil_of_last (t := t) haround (by omega)
      (show Construct.isExpressionKind "function_declaration" = false by decide)
      (show "function_declaration" ≠ "field_definition" by decide)
      ht
      (by simp [Token.isSemicolon, Token.isPunctuator, hvalue])
  refine Rule.visit?_of_construct hrule ?_ (by simp [hcommon])
  refine (Rule.function_inside haround (isPart_parameters s) (parameters_enclosed s) hparameters
    (Nat.zero_le 2) (by omega) (show 4 ≤ 5 by omega) (isPart_body s) hbody (by omega)
    (Nat.zero_le 4) (by omega)).mono ?_ fun _ _ => trivial
  rintro e ⟨-, l, -, -, hl, -, -, -, hat⟩
  exact ⟨l, hl, hat⟩

/-- A visit to the name of the function places nothing. -/
theorem name_meets (caseLevels : Int) :
    ∃ draft, Rule.visit? s.inFunction caseLevels ⟨functionName, (aboveStatements s).tail⟩ =
        some draft ∧
      draft.Meets (fun e => ∃ l, l < 5 ∧ s.inFunction.At l e.token) fun _ => True := by
  obtain ⟨-, hkeyword, hname, hparameters, -⟩ := h.stands
  obtain ⟨-, t, ht, hvalue, -⟩ := hkeyword.spells (keyword_spells s) (by decide)
  obtain ⟨-, ⟨u, hu, huvalue, -⟩, -⟩ :=
    hparameters.enclosed (parameters_enclosed s) (by decide) (by decide)
  have happart : s.inFunction.Apart 1 2 := by
    refine ⟨fun {k v} hk hv => ?_, fun {v} hv => ?_⟩
    · obtain rfl : k = 0 := by omega
      obtain rfl := Option.mem_unique ht hv
      simp [Token.isOpeningParen, Token.isPunctuator, hvalue]
    · obtain rfl := Option.mem_unique hu hv
      simp [Token.isClosingParen, Token.isPunctuator, huvalue]
  have hrule : Construct.ofKind? functionName.kind = some .plain := by decide
  refine Rule.visit?_of_construct hrule (Draft.meets_pure (Q := fun _ => True) trivial) ?_
  intro e he
  obtain ⟨l, hat, hreaches⟩ := Rule.common_reaches hname (by omega) he
  obtain ⟨-, hl, -⟩ := Rule.reaches_stays hreaches (by omega) happart (Nat.le_refl 1)
    (Nat.le_refl 2) fun hkind => absurd hkind (by decide)
  exact ⟨l, by omega, hat⟩

omit h in
/-- A visit to the parameters of the function places nothing. -/
theorem parameters_meets (s : Source) (caseLevels : Int) :
    ∃ draft, Rule.visit? s.inFunction caseLevels ⟨functionParameters, (aboveStatements s).tail⟩ =
        some draft ∧
      draft.Meets (fun e => ∃ l, l < 5 ∧ s.inFunction.At l e.token) fun _ => True := by
  have hrule : Construct.ofKind? functionParameters.kind = some .plain := by decide
  have hcommon : Rule.common s.inFunction functionParameters = [] :=
    Rule.common_eq_nil_of_kind (by decide) (by decide)
  exact Rule.visit?_of_construct hrule (Draft.meets_pure (Q := fun _ => True) trivial)
    (by simp [hcommon])

/-- A visit to the body of the function places each statement one level from the brace. -/
theorem visit?_body (caseLevels : Int) :
    ∃ left right, s.inFunction.At 4 left ∧
      s.inFunction.At (s.inFunction.tokens.size - 1) right ∧
      Rule.visit? s.inFunction caseLevels
          ⟨functionBody s.root.children s.buffer.bytes.size, (aboveStatements s).tail⟩ =
        some ⟨Entry.elements s.inFunction ((s.root.codeChildren.map (Node.shift 15)).map .node)
          (some left) (some right) 1, .ok ()⟩ := by
  have hrule : Construct.ofKind?
      (functionBody s.root.children s.buffer.bytes.size).kind = some .block := by
    change Construct.ofKind? "statement_block" = _
    decide
  have hcode : (functionBody s.root.children s.buffer.bytes.size).codeChildren =
      s.root.codeChildren.map (Node.shift 15) := by
    simp [Node.codeChildren, Node.namedChildren, functionBody, functionOpening, functionClosing,
      List.filter_map, Function.comp_def]
  obtain ⟨-, -, -, -, hbody⟩ := h.stands
  have hsize := h.size_tokens_inFunction
  obtain ⟨left, hleft, hfirst⟩ := (hbody.ends (by omega)).exists_first?
  obtain ⟨right, hright, hlast⟩ := (hbody.ends (by omega)).exists_last?
  obtain ⟨-, t, ht, hvalue⟩ := h.braces
  obtain rfl := Option.mem_unique ht hright
  have hcommon : Rule.common s.inFunction
      (functionBody s.root.children s.buffer.bytes.size) = [] :=
    Rule.common_eq_nil_of_last (t := t) hbody (by omega)
      (show Construct.isExpressionKind "statement_block" = false by decide)
      (show "statement_block" ≠ "field_definition" by decide) ht
      (by simp [Token.isSemicolon, Token.isPunctuator, hvalue])
  refine ⟨left, t, hleft, hright, ?_⟩
  rw [Rule.visit?_block hrule hcommon hfirst hlast, hcode]

/-- There are no blocks of script around the program. -/
theorem baseLevel_eq (t : Token) : s.baseLevel t = 0 := by
  rw [baseLevel, h.blocks_eq_nil]
  rfl

theorem skip_eq : h.surrounds.embedding.skip = 5 := by
  rw [Surrounds.skip_embedding, codeCount_headPieces]

/-- Tokens of the function's first line are outside. -/
theorem owns_head {k : Nat} {t : Token} (hk : k < 5) (ht : s.inFunction.At k t) :
    h.surrounds.embedding.owns t = false :=
  Embedding.owns_eq_false ht (.inl (by rwa [h.skip_eq]))

/-- The closing brace is outside. -/
theorem owns_closing {t : Token} (ht : s.inFunction.At (s.inFunction.tokens.size - 1) t) :
    h.surrounds.embedding.owns t = false :=
  Embedding.owns_eq_false ht (.inr (by rw [h.skip_eq, h.size_tokens_inFunction]; omega))

/-- A visit that places tokens of the function's first line. -/
theorem visit_head {caseLevels : Int} {place : Node.Placed}
    (hplace : ∃ draft, Rule.visit? s.inFunction caseLevels place = some draft ∧
      draft.Meets (fun e => ∃ l, l < 5 ∧ s.inFunction.At l e.token) fun _ => True)
    {R : Entry → Entry → Prop} {r : Registry} {c : Analysis}
    (hregistry : h.surrounds.embedding.Registers R r c.registry) :
    (c.visit s.inFunction caseLevels place).fault = none ∧
      h.surrounds.embedding.Registers R r (c.visit s.inFunction caseLevels place).registry := by
  obtain ⟨draft, hdraft, hmeets⟩ := hplace
  exact Embedding.visit_outside hdraft
    (hmeets.mono (fun d ⟨l, hl, hat⟩ => h.owns_head hl hat) fun _ _ => trivial) hregistry

theorem domain_of_mem {c : Node} (hc : c ∈ s.root.children) :
    h.surrounds.embedding.Domain c := by
  have hin := h.inText.of_mem hc
  exact h.surrounds.domain_embedding.2 ⟨hin.nested, hin.nonneg, hin.le⟩

/-- The body of the function places the statements that the program places. -/
theorem record_body {left right : Token} (hleft : s.inFunction.At 4 left)
    (hright : s.inFunction.At (s.inFunction.tokens.size - 1) right) {r' : Registry}
    (hregistry : h.surrounds.embedding.Registers
      (h.surrounds.embedding.Lifts (· = left) 1) {} r') :
    h.surrounds.embedding.Registers (h.surrounds.embedding.Lifts (· = left) 1)
      (({} : Registry).record ((s.root.codeChildren.filterMap s.firstOfNode?).map (Rule.startOf s)))
      (r'.record (Entry.elements s.inFunction ((s.root.codeChildren.map (Node.shift 15)).map .node)
        (some left) (some right) 1)) := by
  have hdomain : ∀ c ∈ s.root.codeChildren, h.surrounds.embedding.Domain c := fun c hc =>
    h.domain_of_mem (Node.mem_codeChildren.1 hc).1
  have hfirsts := Embedding.rel_firsts_of_nodes hdomain
  have hmove : s.root.codeChildren.map h.surrounds.embedding.move =
      s.root.codeChildren.map (Node.shift 15) :=
    List.map_congr_left fun c _ => h.surrounds.move_embedding c
  rw [hmove] at hfirsts
  have hstarts : s.root.codeChildren.filterMap s.firstOfNode? =
      (s.root.codeChildren.map Anchor.node).filterMap s.first? := by
    rw [List.filterMap_map]
    rfl
  rw [hstarts]
  refine hregistry.record ?_
  have hclosing : (Entry.offsets [right] 0 (some left)).filter
      (h.surrounds.embedding.owns ·.token) = [] := by
    rw [List.filter_eq_nil_iff]
    intro d hd
    obtain ⟨rfl, -⟩ := Entry.eq_of_mem_offsets_singleton hd
    simp [h.owns_closing hright]
  rw [Entry.elements, Option.toList_some, List.filter_append, hclosing, List.append_nil]
  generalize (s.root.codeChildren.map Anchor.node).filterMap s.first? = ts at hfirsts
  generalize List.filterMap s.inFunction.first? _ = ts' at hfirsts
  induction hfirsts with
  | nil => exact .nil
  | @cons t t' ts ts' ht _ ih =>
    have hne : t' ≠ left := by
      rintro rfl
      have := ht.owns
      simp [h.owns_head (by omega) hleft] at this
    have hcons : Entry.offsets (t' :: ts') 1 (some left) =
        ⟨t', some left, 1⟩ :: Entry.offsets ts' 1 (some left) := by
      simp [Entry.offsets, hne]
    rw [hcons, List.map_cons, List.filter_cons, if_pos ht.owns]
    refine .cons ⟨⟨?_, ?_⟩, ht⟩ ih
    · rw [Rule.startOf, h.baseLevel_eq]
      rfl
    · rintro _ ⟨⟩
      rfl

/-- The registries of the program and of the function around it agree on the tokens of the
statements. -/
theorem registers (caseLevels : Int) : ∃ left, s.inFunction.At 4 left ∧
    h.surrounds.embedding.Registers (h.surrounds.embedding.Lifts (· = left) 1)
      (s.analyze caseLevels).registry (s.inFunction.analyze caseLevels).registry := by
  obtain ⟨left, right, hleft, hright, hbody⟩ := h.visit?_body caseLevels
  obtain ⟨a, hafault, haregistry, ha⟩ := exists_analyze_program h.grammatical h.kind_eq
    (Node.visited_of_ofKind? h.rule_root []) caseLevels
  obtain ⟨b, hbfault, hbregistry, hb⟩ := exists_analyze_program h.grammatical_inFunction rfl
    (visited_inFunction s) caseLevels
  refine ⟨left, hleft, ?_⟩
  have hroot : h.surrounds.embedding.Registers (h.surrounds.embedding.Lifts (· = left) 1)
      {} b.registry := by
    rw [hbregistry]
    refine Embedding.Registers.record_outside ⟨fun _ => .none, fun _ => rfl⟩ fun d hd => ?_
    obtain ⟨t, ht, rfl⟩ := List.mem_map.1 hd
    have hcode : s.inFunction.root.codeChildren =
        [functionAround s.root.children s.buffer.bytes.size] := rfl
    rw [hcode, List.filterMap_cons, List.filterMap_nil] at ht
    obtain ⟨haround, -⟩ := h.stands
    obtain ⟨u, hu, hfirst⟩ := (haround.ends h.size_pos).exists_first?
    rw [show s.inFunction.firstOfNode? _ = some u from hfirst, List.mem_singleton] at ht
    exact h.owns_head (by omega) (ht ▸ hu)
  obtain ⟨hfault₁, hregistry₁⟩ := h.visit_head (h.around_meets caseLevels) hroot
  obtain ⟨hfault₂, hregistry₂⟩ := h.visit_head (h.name_meets caseLevels) hregistry₁
  obtain ⟨hfault₃, hregistry₃⟩ := h.visit_head (parameters_meets s caseLevels) hregistry₂
  rw [ha, hb, visited_around, Analysis.visitAll_cons hfault₁, Analysis.visitAll_cons hfault₂,
    Analysis.visitAll_cons hfault₃, visited_body]
  generalize (((b.visit s.inFunction caseLevels _).visit s.inFunction caseLevels _).visit
    s.inFunction caseLevels _) = c at hfault₃ hregistry₃
  have hvisit : c.visit s.inFunction caseLevels
      ⟨functionBody s.root.children s.buffer.bytes.size, (aboveStatements s).tail⟩ =
      { c with
        registry := c.registry.record (Entry.elements s.inFunction
          ((s.root.codeChildren.map (Node.shift 15)).map .node) (some left) (some right) 1)
        fault := none } := by
    rw [Analysis.visit, hbody]
  have hregistry₄ := h.record_body hleft hright hregistry₃
  rw [← haregistry] at hregistry₄
  rw [Analysis.visitAll_cons (by rw [hvisit]), hvisit]
  have halike : List.Forall₂ (h.surrounds.embedding.Alike caseLevels)
      (s.root.namedChildren.flatMap (Node.visited [s.root]))
      ((s.root.namedChildren.map h.surrounds.embedding.move).flatMap
        (Node.visited (aboveStatements s))) := by
    refine Embedding.alike_statements ?_ ?_ ?_ ?_
    · rintro k ⟨⟩
      rw [h.kind_eq]
      decide
    · rintro k ⟨⟩
      change Construct.isChainKind "statement_block" = false ∧ "statement_block" ≠ _ ∧
        "statement_block" ≠ _
      decide
    · exact fun k hk => h.domain_of_mem (List.mem_filter.1 hk).1
    · intro k hk place hplace
      refine Embedding.shaped_of_visited h.grammatical ?_ h.fields ?_
      · rw [h.kind_eq]
        decide
      · rw [Node.visited_of_ofKind? h.rule_root]
        exact List.mem_cons_of_mem _ (List.mem_flatMap.2 ⟨k, hk, hplace⟩)
  have hok := (Source.analyze_pointsBack h.grammatical caseLevels).1
  rw [ha] at hok
  refine (Embedding.visitAll_registers halike ?_ hafault rfl hregistry₄ (.inr hok)).1
  -- below the root there is no program, so all entries have bases
  intro place hplace draft hdraft d hd d' hcarries
  obtain ⟨k, hk, hplace⟩ := List.mem_flatMap.1 hplace
  have hbelow : place.node.Below s.root :=
    ⟨k, (List.mem_filter.1 hk).1, Node.within_of_mem_visited hplace⟩
  have hvisited : place ∈ s.root.visited [] := by
    rw [Node.visited_of_ofKind? h.rule_root]
    exact List.mem_cons_of_mem _ (List.mem_flatMap.2 ⟨k, hk, hplace⟩)
  obtain ⟨hwrites, -⟩ := Rule.visit?_meets h.grammatical hvisited caseLevels hdraft
  refine hcarries.lifts_of_base ?_ _ _
  rcases hwrites d hd with ⟨-, hkind⟩ | ⟨_, _, base, -, hbase, -⟩
  · exact absurd hkind (h.programs _ hbelow)
  · simp [hbase]

/-- There is no program in the function, and its class fields stand in class bodies. -/
theorem within_around {m : Node}
    (hm : m.Within (functionAround s.root.children s.buffer.bytes.size)) :
    m.kind ≠ "program" ∧ ∀ c ∈ m.children, c.kind = "field_definition" → m.kind = "class_body" := by
  have hleaf {n m : Node} (hn : n.children = []) (hkind : n.kind ≠ "program") (hm : m.Within n) :
      m.kind ≠ "program" ∧ ∀ c ∈ m.children, c.kind = "field_definition" → m.kind = "class_body" := by
    rcases hm.eq_or_below with rfl | ⟨c, hc, -⟩
    · simp [hn, hkind]
    · simp [hn] at hc
  have hstatement {c m : Node} (hc : c ∈ s.root.children) (hm : m.Within (c.shift 15)) :
      m.kind ≠ "program" ∧ ∀ c ∈ m.children, c.kind = "field_definition" → m.kind = "class_body" := by
    obtain ⟨k, hk, rfl⟩ := Node.exists_of_within_shift hm
    simp only [Node.shift_kind, Node.shift_children, List.forall_mem_map]
    exact ⟨h.programs k ⟨c, hc, hk⟩, h.fields k (hk.trans (.of_mem hc))⟩
  rcases hm.eq_or_below with rfl | ⟨n, hn, hm⟩
  · simp [functionAround, functionKeyword, functionName, functionParameters, functionBody]
  simp only [functionAround, List.mem_cons, List.not_mem_nil, or_false] at hn
  rcases hn with rfl | rfl | rfl | rfl
  · exact hleaf rfl (by decide) hm
  · exact hleaf rfl (by decide) hm
  · rcases hm.eq_or_below with rfl | ⟨n, hn, hm⟩
    · simp [functionParameters]
    · simp only [functionParameters, List.mem_cons, List.not_mem_nil, or_false] at hn
      rcases hn with rfl | rfl
      · exact hleaf rfl (by decide) hm
      · exact hleaf rfl (by decide) hm
  · rcases hm.eq_or_below with rfl | ⟨n, hn, hm⟩
    · refine ⟨by simp [functionBody], fun c hc hkind => ?_⟩
      simp only [functionBody, List.mem_cons, List.mem_append, List.mem_map, List.not_mem_nil,
        or_false] at hc
      rcases hc with rfl | ⟨d, hd, rfl⟩ | rfl
      · simp [functionOpening] at hkind
      · rw [Node.shift_kind] at hkind
        have := h.fields _ (.refl _) d hd hkind
        simp [h.kind_eq] at this
      · simp [functionClosing] at hkind
    · simp only [functionBody, List.mem_cons, List.mem_append, List.mem_map, List.not_mem_nil,
        or_false] at hn
      rcases hn with rfl | ⟨d, hd, rfl⟩ | rfl
      · exact hleaf rfl (by decide) hm
      · exact hstatement hd hm
      · exact hleaf rfl (by simp [functionClosing]) hm

/-- The function stands at the level of the program. -/
theorem get?_keyword (caseLevels : Int) {t : Token} (ht : s.inFunction.At 0 t) :
    (s.inFunction.analyze caseLevels).registry.get? t = some ⟨t, none, 0⟩ := by
  obtain ⟨haround, -⟩ := h.stands
  have hapart : s.inFunction.StandsApart (functionAround s.root.children s.buffer.bytes.size) 0
      s.inFunction.tokens.size := by
    refine ⟨haround, h.size_pos, ⟨fun hk => absurd hk (Nat.succ_ne_zero _), fun {u} hu => ?_⟩,
      fun {k u} hk hu => ?_, show "function_declaration" ≠ "field_definition" by decide,
      fun m hm => (h.within_around hm).2⟩
    · exact absurd (Array.getElem?_eq_some_iff.1 hu).1 (Nat.lt_irrefl _)
    · exact absurd (Array.getElem?_eq_some_iff.1 hu).1 (Nat.not_lt.2 hk)
  obtain ⟨b, hbfault, hbregistry, hb⟩ := exists_analyze_program h.grammatical_inFunction rfl
    (visited_inFunction s) caseLevels
  have hstart : b.registry.get? t = some ⟨t, none, 0⟩ := by
    have hcode : s.inFunction.root.codeChildren =
        [functionAround s.root.children s.buffer.bytes.size] := rfl
    obtain ⟨u, hu, hfirst⟩ := (haround.ends h.size_pos).exists_first?
    obtain rfl := Option.mem_unique ht hu
    rw [hbregistry, hcode, List.filterMap_cons, List.filterMap_nil,
      show s.inFunction.firstOfNode? _ = some t from hfirst]
    exact Registry.get?_insert_self _ _
  rw [hb]
  refine (Analysis.visitAll_reach h.grammatical_inFunction hapart ?_ caseLevels
    (P := fun r => r.get? t = some ⟨t, none, 0⟩) ?_ ?_ hbfault hstart).2
  · rw [visited_inFunction]
    exact fun p hp => List.mem_cons_of_mem _ hp
  · intro r e l n hr hn _ _ hl hprogram
    have hne : e.token ≠ t := fun heq =>
      (h.within_around hn).1 (hprogram (eq_of_getElem? (heq ▸ hl) ht))
    rw [Registry.get?_insert_of_ne hne, hr]
  · exact fun _ _ _ _ _ hr _ _ _ _ => hr

/-- The line of the function, and with it the brace, is at level 0. -/
theorem addsUp_brace (caseLevels : Int) {left : Token} (hleft : s.inFunction.At 4 left)
    (more : List (List Token)) : (s.inFunction.analyze caseLevels).registry.AddsUp
      (groupsFrom 0 [] ((numbered 0 (headPieces s)).map s.inFunction.tokenOf) ++ more) left 0 := by
  have hmem := h.surrounds.mem_before (by rw [codeCount_headPieces]; omega) hleft
  have hline {t : Token} (ht : t ∈ (numbered 0 (headPieces s)).map s.inFunction.tokenOf) :
      t.line = 1 ∧ t.endLine = 1 := by
    obtain ⟨p, hp, i, rfl, -⟩ := Surrounds.mem_tokensOf_numbered ht
    obtain ⟨hstart, hstop, hlt⟩ := line_of_head hp
    exact ⟨hstart, by rw [Surrounds.endLine_token hlt, hstop]⟩
  obtain ⟨p, rest, hps, hp⟩ : ∃ p rest, headPieces s = p :: rest ∧ p.isComment = false := by
    rw [headPieces, List.flatMap_cons, (keyword_spells s).pieces_eq (by decide),
      List.singleton_append]
    exact ⟨_, _, rfl, Node.ofLeaf_isComment (by decide) _ _ _ _⟩
  have hcode : s.inFunction.codePieces[0]? = some p := by
    rw [codePieces, h.pieces_inFunction, hps, List.cons_append,
      List.filter_cons_of_pos (by simp [hp]), List.getElem?_cons_zero]
  have hkeyword : s.inFunction.At 0 (s.inFunction.tokenOf (p, some 0)) := by
    rw [At, getElem?_tokens, hcode]
    rfl
  have hnumbered : (numbered 0 (headPieces s)).map s.inFunction.tokenOf =
      s.inFunction.tokenOf (p, some 0) :: (numbered 1 rest).map s.inFunction.tokenOf := by
    rw [hps, numbered, hp]
    rfl
  rw [hnumbered] at hmem hline ⊢
  have hkeywordLine := hline List.mem_cons_self
  have hrestLine := fun t ht => (hline (t := t) (List.mem_cons_of_mem _ ht)).1
  have hkeywordCode := isComment_of_mem_tokens (Array.mem_of_getElem? hkeyword)
  generalize s.inFunction.tokenOf (p, some 0) = keyword at *
  generalize (numbered 1 rest).map s.inFunction.tokenOf = behind at *
  rw [Embedding.groupsFrom_line fun t ht => by rw [hrestLine t ht, hkeywordLine.2]]
  have hcodeOf : Registry.codeOf (keyword :: behind) = keyword :: Registry.codeOf behind :=
    List.filter_cons_of_pos (by simp [hkeywordCode])
  refine .earlier (show [keyword :: behind] ++ more = [] ++ (keyword :: behind) :: more from rfl)
    hcodeOf ?_ (.start rfl (h.get?_keyword caseLevels hkeyword) rfl)
  exact List.mem_filter.2 ⟨hmem, by simp [isComment_of_mem_tokens (Array.mem_of_getElem? hleft)]⟩

end Script

end Source

end ScriptIndent
