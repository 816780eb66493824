import ScriptIndent.Proofs.Printed.Program

/-!
# ScriptIndent.Proofs.Printed.Sound

The trees of programs in canonical layout are grammatical.

A sketch is *sound* if its tree is so wherever a text shows what it prints
(`Sketch.IsSound`).  Each form of statement has the shape that the grammar asks for, so by
induction on programs all sketches are sound (`Statement.isSound_sketch`), and the tree of a
program is grammatical (`Program.grammatical`).
-/

namespace ScriptIndent

open Bytes

namespace Sketch

variable {b : Buffer}

/-- The tree of a sketch is sound wherever the text shows it. -/
def IsSound (b : Buffer) (k : Sketch) : Prop :=
  ∀ o, b.Shows o (printed k.marks) → (k.place o).Sound b

/-- The trees of sketches that are printed one after the other are sound. -/
def AllSound (b : Buffer) (ks : List Sketch) : Prop := ∀ k ∈ ks, k.IsSound b

/-- The text shows each of the sketches that are printed one after the other. -/
theorem forall₂_placeAll {o : Nat} {ks : List Sketch}
    (h : b.Shows o (printed (marksOfAll ks))) :
    List.Forall₂ (fun k c => ∃ p, c = k.place p ∧ b.Shows p (printed k.marks)) ks
      (placeAll o ks) := by
  induction ks generalizing o with
  | nil => simp
  | cons k ks ih =>
    rw [marksOfAll_cons, printed_append] at h
    rw [placeAll_cons]
    exact .cons ⟨o, rfl, h.left⟩ (ih h.right)

theorem exists_of_mem_placeAll {o : Nat} {ks : List Sketch}
    (h : b.Shows o (printed (marksOfAll ks))) {c : Node} (hc : c ∈ placeAll o ks) :
    ∃ k ∈ ks, ∃ p, c = k.place p ∧ b.Shows p (printed k.marks) := by
  induction ks generalizing o with
  | nil => simp at hc
  | cons k ks ih =>
    rw [marksOfAll_cons, printed_append] at h
    rw [placeAll_cons] at hc
    rcases List.mem_cons.1 hc with rfl | hc
    · exact ⟨k, List.mem_cons_self, o, rfl, h.left⟩
    · obtain ⟨l, hl, hplace⟩ := ih h.right hc
      exact ⟨l, List.mem_cons_of_mem k hl, hplace⟩

theorem AllSound.sound {ks : List Sketch} (hks : AllSound b ks) {o : Nat}
    (h : b.Shows o (printed (marksOfAll ks))) : ∀ c ∈ placeAll o ks, c.Sound b := by
  intro c hc
  obtain ⟨k, hk, p, rfl, hshows⟩ := exists_of_mem_placeAll h hc
  exact hks k hk p hshows

theorem isSound_leaf (fields : List String) (mark : Mark) : (leaf fields mark).IsSound b :=
  fun _ h => sound_leaf (by simpa using h)

/-- A construct over sound parts is sound if it has the shape that the grammar asks for. -/
theorem isSound_node {fields : List String} {frame : Frame} {first : Sketch} {rest : List Sketch}
    (construct : Construct) (hrule : Construct.ofKind? frame.kind = some construct)
    (hshape : ∀ (n : Node) (cs : List Node), n.children = cs → n.IsCompound →
      List.Forall₂ (fun k c => ∃ p, c = k.place p ∧ b.Shows p (printed k.marks)) (first :: rest) cs →
      n.Shape b construct)
    (hparts : AllSound b (first :: rest)) : (node fields frame first rest).IsSound b := by
  intro o h
  rw [marks_node, ← marksOfAll_cons] at h
  exact sound_node hrule (hshape _ _ (children_node o fields frame first rest)
    (isCompound_node o fields frame first rest) (forall₂_placeAll h)) (hparts.sound h)

/-- Parts between delimiters make a sound construct if it has no other shape to keep. -/
theorem isSound_enclosed {fields : List String} {frame : Frame} {gap gap' : List UInt8}
    {w w' : Word} {inner : List Sketch} {construct : Construct}
    (hrule : Construct.ofKind? frame.kind = some construct)
    (hshape : ∀ n : Node, n.Enclosed b w.value w'.value → n.Shape b construct)
    (hinner : AllSound b inner) :
    (enclosed fields frame ⟨gap, .word w⟩ inner ⟨gap', .word w'⟩).IsSound b := by
  intro o h
  have hparts : AllSound b (leaf [] ⟨gap, .word w⟩ :: (inner ++ [leaf [] ⟨gap', .word w'⟩])) := by
    intro k hk
    simp only [List.mem_cons, List.mem_append, List.not_mem_nil, or_false] at hk
    rcases hk with rfl | hk | rfl
    · exact isSound_leaf _ _
    · exact hinner k hk
    · exact isSound_leaf _ _
  refine sound_node hrule (hshape _ (enclosed_place h)) (hparts.sound ?_)
  rwa [marksOfAll_cons, ← marks_node]

end Sketch

open Sketch

/-! ## shapes -/

/-- The children of a node are the trees of some sketches where the text shows them. -/
abbrev Shown (b : Buffer) (ks : List Sketch) (cs : List Node) : Prop :=
  List.Forall₂ (fun k c => ∃ p, c = k.place p ∧ b.Shows p (printed k.marks)) ks cs

section Shapes

variable {b : Buffer} {n : Node}

theorem isCode_place {p : Nat} {k : Sketch} (h : k.isNamed = true) : (k.place p).IsCode :=
  ⟨(isNamed_place p k).trans h, isComment_place p k⟩

/-- A word is a lexeme where it is shown. -/
theorem isLexeme_word {p : Nat} {gap : List UInt8} {value : String} {h : IsWord value}
    (hshows : b.Shows p (printed (leaf [] (.word gap value h)).marks)) :
    ((leaf [] (.word gap value h)).place p).IsLexeme b := by
  rw [marks_leaf, printed_cons, printed_nil, List.append_nil] at hshows
  exact ⟨value, spells_place hshows, h.2.2.1⟩

theorem spells_word {p : Nat} {gap : List UInt8} {value : String} {h : IsWord value}
    (hshows : b.Shows p (printed (leaf [] (.word gap value h)).marks)) :
    ((leaf [] (.word gap value h)).place p).Spells b value := by
  rw [marks_leaf, printed_cons, printed_nil, List.append_nil] at hshows
  exact spells_place hshows

/-- What stands in parentheses is enclosed in them. -/
theorem enclosed_head {p : Nat} {field : String} {x : Name}
    (hshows : b.Shows p (printed (headSketch field x).marks)) :
    ((headSketch field x).place p).Enclosed b "(" ")" := enclosed_place hshows

theorem enclosed_braces {p : Nat} {fields : List String} {frame : Frame} {inner : List Sketch}
    {closing : Margin} (hshows : b.Shows p (printed (braces fields frame inner closing).marks)) :
    ((braces fields frame inner closing).place p).Enclosed b "\x7b" "\x7d" :=
  enclosed_place hshows

/-- A keyword and a head before some parts. -/
theorem hasHead_place {gap : List UInt8} {value field : String} {h : IsWord value} {x : Name}
    {rest : List Sketch} {cs : List Node} (hchildren : n.children = cs)
    (hshown : Shown b (leaf [] (.word gap value h) :: headSketch field x :: rest) cs) :
    ∃ keyword head more, n.children = keyword :: head :: more ∧ keyword.fields = [] ∧
      head.fields = [field] ∧ n.HasHead b field more ∧ Shown b rest more := by
  cases hshown with
  | cons hkeyword hshown =>
    obtain ⟨p, rfl, hpshows⟩ := hkeyword
    cases hshown with
    | cons hhead hshown =>
      obtain ⟨q, rfl, hqshows⟩ := hhead
      refine ⟨_, _, _, hchildren, by simp, by simp, ⟨_, _, isLexeme_word hpshows, ⟨?_, ?_⟩,
        enclosed_head hqshows, ?_⟩, hshown⟩
      · simp [Node.field?, hchildren]
      · exact Node.mem_codeChildren.2 ⟨by simp [hchildren], isCode_place rfl⟩
      · simp [Node.InTurn, hchildren]

/-- An if statement without an alternative. -/
theorem conditionalShape_of_one {gap : List UInt8} {x : Name} {inner : List Sketch}
    {closing : Margin} {cs : List Node} (hchildren : n.children = cs)
    (hshown : Shown b [leaf [] (.word gap "if"), headSketch "condition" x,
      block ["consequence"] inner closing] cs) : n.ConditionalShape b := by
  obtain ⟨keyword, head, more, hall, hkeyword, hfields, hhead, hshown⟩ :=
    hasHead_place hchildren hshown
  cases hshown with
  | cons hbody hnil =>
    cases hnil
    obtain ⟨p, rfl, -⟩ := hbody
    have hnone : n.field? "alternative" = none := by
      simp [Node.field?, hall, hkeyword, hfields]
    refine ⟨_, ⟨?_, ?_⟩, by rwa [hnone], by simp [hnone]⟩
    · simp [Node.field?, hall, hkeyword, hfields]
    · exact Node.mem_codeChildren.2 ⟨by simp [hall], isCode_place rfl⟩

/-- An if statement with an alternative. -/
theorem conditionalShape_of_two {gap : List UInt8} {x : Name} {inner rest : List Sketch}
    {closing : Margin} {frame : Frame} {first : Sketch} {cs : List Node}
    (hchildren : n.children = cs)
    (hshown : Shown b [leaf [] (.word gap "if"), headSketch "condition" x,
      block ["consequence"] inner closing, node ["alternative"] frame first rest] cs) :
    n.ConditionalShape b := by
  obtain ⟨keyword, head, more, hall, hkeyword, hfields, hhead, hshown⟩ :=
    hasHead_place hchildren hshown
  cases hshown with
  | cons hbody hshown =>
    obtain ⟨p, rfl, -⟩ := hbody
    cases hshown with
    | cons hother hnil =>
      cases hnil
      obtain ⟨q, rfl, -⟩ := hother
      have hsome : n.field? "alternative" = some ((node ["alternative"] frame first rest).place q) := by
        simp [Node.field?, hall, hkeyword, hfields]
      refine ⟨_, ⟨?_, ?_⟩, by rwa [hsome], ?_⟩
      · simp [Node.field?, hall, hkeyword, hfields]
      · exact Node.mem_codeChildren.2 ⟨by simp [hall], isCode_place rfl⟩
      · intro alternative halternative
        obtain rfl := Option.mem_unique hsome halternative
        exact ⟨Node.mem_codeChildren.2 ⟨by simp [hall], isCode_place rfl⟩,
          isCompound_node q _ _ _ _⟩

/-- A while statement. -/
theorem headedShape_place {gap : List UInt8} {x : Name} {inner : List Sketch}
    {closing : Margin} {cs : List Node} (hchildren : n.children = cs)
    (hshown : Shown b [leaf [] (.word gap "while"), headSketch "condition" x,
      block ["body"] inner closing] cs) : n.HeadedShape b := by
  obtain ⟨keyword, head, more, hall, hkeyword, hfields, hhead, hshown⟩ :=
    hasHead_place hchildren hshown
  cases hshown with
  | cons hbody hnil =>
    cases hnil
    obtain ⟨p, rfl, -⟩ := hbody
    refine ⟨_, _, ⟨?_, ?_⟩, hhead⟩
    · simp [Node.field?, hall, hkeyword, hfields]
    · exact Node.mem_codeChildren.2 ⟨by simp [hall], isCode_place rfl⟩

/-- A switch statement. -/
theorem switchShape_place {gap : List UInt8} {x : Name} {frame : Frame} {inner : List Sketch}
    {closing : Margin} {cs : List Node} (hchildren : n.children = cs)
    (hshown : Shown b [leaf [] (.word gap "switch"), headSketch "value" x,
      braces ["body"] frame inner closing] cs) : n.SwitchShape b := by
  obtain ⟨keyword, head, more, hall, hkeyword, hfields, hhead, hshown⟩ :=
    hasHead_place hchildren hshown
  cases hshown with
  | cons hbody hnil =>
    cases hnil
    obtain ⟨p, rfl, hpshows⟩ := hbody
    refine ⟨_, ⟨?_, ?_⟩, enclosed_braces hpshows, hhead⟩
    · simp [Node.field?, hall, hkeyword, hfields]
    · exact Node.mem_codeChildren.2 ⟨by simp [hall], isCode_place rfl⟩

/-- A function. -/
theorem functionShape_place {gap gap' : List UInt8} {x : Name} {frame : Frame}
    {inner : List Sketch} {closing : Margin} {cs : List Node} (hchildren : n.children = cs)
    (hshown : Shown b [leaf [] (.word gap "function"), leaf ["name"] (.name gap' x),
      enclosed ["parameters"] frame (.word [] "(") [] (.word [] ")"),
      block ["body"] inner closing] cs) : n.FunctionShape b := by
  cases hshown with
  | cons hkeyword hshown =>
  cases hshown with
  | cons hname hshown =>
  cases hshown with
  | cons hparameters hshown =>
  cases hshown with
  | cons hbody hnil =>
    cases hnil
    obtain ⟨⟨p, rfl, -⟩, q, rfl, -⟩ := And.intro hkeyword hname
    obtain ⟨⟨k, rfl, hkshows⟩, l, rfl, -⟩ := And.intro hparameters hbody
    refine ⟨(enclosed ["parameters"] frame (.word [] "(") [] (.word [] ")")).place k,
      (block ["body"] inner closing).place l, ⟨?_, ?_⟩, enclosed_place hkshows, ?_, ?_⟩
    · simp [Node.field?, hchildren, enclosed]
    · exact Node.mem_codeChildren.2 ⟨by simp [hchildren], isCode_place rfl⟩
    · simp [Node.field?, hchildren, enclosed]
    · exact Node.mem_codeChildren.2 ⟨by simp [hchildren], isCode_place rfl⟩

/-- A try statement with a handler. -/
theorem guardedShape_place {gap : List UInt8} {inner rest : List Sketch} {between : Margin}
    {frame : Frame} {first : Sketch} {cs : List Node} (hchildren : n.children = cs)
    (hshown : Shown b [leaf [] (.word gap "try"), block ["body"] inner between,
      node ["handler"] frame first rest] cs) : n.GuardedShape := by
  cases hshown with
  | cons hkeyword hshown =>
  cases hshown with
  | cons hbody hshown =>
  cases hshown with
  | cons hhandler hnil =>
    cases hnil
    obtain ⟨⟨p, rfl, -⟩, q, rfl, -⟩ := And.intro hkeyword hbody
    obtain ⟨k, rfl, -⟩ := hhandler
    have hnone : n.field? "finalizer" = none := by simp [Node.field?, hchildren]
    refine ⟨⟨(block ["body"] inner between).place q, ?_, ?_⟩, ?_, by simp [hnone]⟩
    · simp [Node.field?, hchildren]
    · exact Node.mem_codeChildren.2 ⟨by simp [hchildren], isCode_place rfl⟩
    · intro handler hsome
      simp only [Node.field?, hchildren, List.find?_cons, fields_place, fields_leaf, fields_block,
        fields_node] at hsome
      simp at hsome
      obtain rfl := hsome
      exact Node.mem_codeChildren.2 ⟨by simp [hchildren], isCode_place rfl⟩

/-- A handler with a parameter. -/
theorem handlerShape_place {gap : List UInt8} {x : Name} {inner : List Sketch} {closing : Margin}
    {cs : List Node} (hchildren : n.children = cs)
    (hshown : Shown b [leaf [] (.word gap "catch"), leaf [] (.word [space] "("),
      leaf ["parameter"] (.name [] x), leaf [] (.word [] ")"), block ["body"] inner closing] cs) :
    n.HandlerShape b := by
  cases hshown with
  | cons hkeyword hshown =>
  cases hshown with
  | cons hleft hshown =>
  cases hshown with
  | cons hparameter hshown =>
  cases hshown with
  | cons hright hshown =>
  cases hshown with
  | cons hbody hnil =>
    cases hnil
    obtain ⟨⟨p, rfl, hpshows⟩, q, rfl, hqshows⟩ := And.intro hkeyword hleft
    obtain ⟨⟨k, rfl, -⟩, l, rfl, hlshows⟩ := And.intro hparameter hright
    obtain ⟨i, rfl, -⟩ := hbody
    refine ⟨_, (block ["body"] inner closing).place i, isLexeme_word hpshows, ⟨?_, ?_⟩, ?_⟩
    · simp [Node.field?, hchildren]
    · exact Node.mem_codeChildren.2 ⟨by simp [hchildren], isCode_place rfl⟩
    · intro parameter hsome
      simp [Node.field?, hchildren] at hsome
      obtain rfl := hsome
      refine ⟨Node.mem_codeChildren.2 ⟨by simp [hchildren], isCode_place rfl⟩, _, _,
        spells_word hqshows, spells_word hlshows, ?_⟩
      simp [Node.InTurn, hchildren]

/-- A clause with a value. -/
theorem clauseShape_place {gap gap' : List UInt8} {x : Name} {statements : List Sketch}
    {cs : List Node} (hchildren : n.children = cs)
    (hshown : Shown b (leaf [] (.word gap "case") :: leaf ["value"] (.name gap' x) ::
      leaf [] (.word [] ":") :: statements) cs) : n.ClauseShape b := by
  cases hshown with
  | cons hkeyword hshown =>
  cases hshown with
  | cons hvalue hshown =>
  cases hshown with
  | cons hcolon hshown =>
    obtain ⟨⟨p, rfl, hpshows⟩, q, rfl, -⟩ := And.intro hkeyword hvalue
    obtain ⟨k, rfl, hkshows⟩ := hcolon
    have hsome : n.field? "value" = some ((leaf ["value"] (.name gap' x)).place q) := by
      simp [Node.field?, hchildren]
    refine ⟨_, _, isLexeme_word hpshows, spells_word hkshows, ?_, ?_⟩
    · intro value hvalue
      obtain rfl := Option.mem_unique hsome hvalue
      exact Node.mem_codeChildren.2 ⟨by simp [hchildren], isCode_place rfl⟩
    · rw [Node.InTurn, hchildren, hsome]
      simp

end Shapes

/-! ## sound programs -/

section Sound

variable {b : Buffer}

/-- A construct whose parts are not asked for is sound over sound parts. -/
theorem isSound_plain {fields : List String} {frame : Frame} {first : Sketch}
    {rest : List Sketch} (hrule : Construct.ofKind? frame.kind = some .plain)
    (hparts : AllSound b (first :: rest)) : (node fields frame first rest).IsSound b :=
  isSound_node _ hrule (fun _ _ _ hn _ => hn.plainShape) hparts

theorem isSound_head (field : String) (x : Name) : (headSketch field x).IsSound b :=
  isSound_enclosed (by decide) (fun _ h => h.1.plainShape) (by simp [AllSound, isSound_leaf])

theorem isSound_block {fields : List String} {inner : List Sketch} {closing : Margin}
    (h : AllSound b inner) : (block fields inner closing).IsSound b :=
  isSound_enclosed (show Construct.ofKind? "statement_block" = some .block by decide)
    (fun _ h => h) h

mutual

/-- The trees of statements are sound. -/
theorem Statement.isSound_sketch (fields : List String) (gap : List UInt8) :
    (st : Statement) → (st.sketch fields gap).IsSound b
  | .use x => by
    rw [Statement.sketch]
    exact isSound_plain (by decide) (by simp [AllSound, isSound_leaf])
  | .conditional x body closing => by
    rw [Statement.sketch]
    refine isSound_node .conditional (by decide)
      (fun _ _ hcs _ => conditionalShape_of_one hcs) ?_
    simp [AllSound, isSound_leaf, isSound_head, isSound_block (body.allSound [])]
  | .alternative x body between other closing => by
    rw [Statement.sketch]
    refine isSound_node .conditional (by decide)
      (fun _ _ hcs _ => conditionalShape_of_two hcs) ?_
    have hother : (node ["alternative"] ⟨"else_clause", by decide⟩ (.leaf [] (.word [space] "else"))
        [block [] (other.sketches []) closing]).IsSound b :=
      isSound_plain (by decide) (by simp [AllSound, isSound_leaf, isSound_block (other.allSound [])])
    simp [AllSound, isSound_leaf, isSound_head, isSound_block (body.allSound []), hother]
  | .loop x body closing => by
    rw [Statement.sketch]
    refine isSound_node .headed (by decide)
      (fun _ _ hcs _ => headedShape_place hcs) ?_
    simp [AllSound, isSound_leaf, isSound_head, isSound_block (body.allSound [])]
  | .function f body closing => by
    rw [Statement.sketch]
    refine isSound_node .function (by decide)
      (fun _ _ hcs _ => functionShape_place hcs) ?_
    have hparameters : (enclosed ["parameters"] ⟨"formal_parameters", by decide⟩ (.word [] "(") []
        (.word [] ")")).IsSound b :=
      isSound_enclosed (by decide) (fun _ h => h.1.plainShape) (by simp [AllSound])
    simp [AllSound, isSound_leaf, isSound_block (body.allSound []), hparameters]
  | .guarded body between e handler closing => by
    rw [Statement.sketch]
    refine isSound_node .guarded (by decide)
      (fun _ _ hcs _ => guardedShape_place hcs) ?_
    have hhandler : (node ["handler"] ⟨"catch_clause", by decide⟩ (.leaf [] (.word [space] "catch"))
        [.leaf [] (.word [space] "("), .leaf ["parameter"] (.name [] e), .leaf [] (.word [] ")"),
          block ["body"] (handler.sketches []) closing]).IsSound b :=
      isSound_node .handler (by decide) (fun _ _ hcs _ => handlerShape_place hcs)
        (by simp [AllSound, isSound_leaf, isSound_block (handler.allSound [])])
    simp [AllSound, isSound_leaf, isSound_block (body.allSound []), hhandler]
  | .switch x clauses closing => by
    rw [Statement.sketch]
    refine isSound_node .switch (by decide)
      (fun _ _ hcs _ => switchShape_place hcs) ?_
    have hclauses : (braces ["body"] ⟨"switch_body", by decide⟩ clauses.sketches closing).IsSound b :=
      isSound_enclosed (by decide) (fun _ h => h.1.plainShape) clauses.allSound
    simp [AllSound, isSound_leaf, isSound_head, hclauses]

theorem Body.allSound (fields : List String) :
    (body : Body) → AllSound b (body.sketches fields)
  | .nil => by simp [Body.sketches, AllSound]
  | .cons margin first rest => by
    rw [Body.sketches]
    exact List.forall_mem_cons.2 ⟨first.isSound_sketch fields margin.below, rest.allSound fields⟩

theorem Clauses.allSound : (clauses : Clauses) → AllSound b clauses.sketches
  | .nil => by simp [Clauses.sketches, AllSound]
  | .cons margin x body rest => by
    rw [Clauses.sketches]
    refine List.forall_mem_cons.2 ⟨?_, rest.allSound⟩
    refine isSound_node .clause (by decide)
      (fun _ _ hcs _ => clauseShape_place hcs) ?_
    intro k hk
    simp only [List.mem_cons] at hk
    rcases hk with rfl | rfl | rfl | hk
    · exact isSound_leaf _ _
    · exact isSound_leaf _ _
    · exact isSound_leaf _ _
    · exact body.allSound ["body"] k hk

end

end Sound

namespace Program

variable (p : Program)

theorem allSound_sketches (b : Buffer) : AllSound b p.sketches := by
  rw [sketches]
  cases p.body with
  | nil => simp [AllSound]
  | cons margin first rest =>
    exact List.forall_mem_cons.2 ⟨first.isSound_sketch [] margin.blanks, rest.allSound []⟩

/-- The text of a program shows its statements. -/
theorem shows_text : (Buffer.ofBytes p.text).Shows 0 (printed (marksOfAll p.sketches)) := by
  refine ⟨[], if p.endsWithFeed then [lineFeed] else [], ?_, rfl⟩
  rw [marks_sketches, List.nil_append]
  exact List.toList_toArray

/-- The statements of a program stand in order. -/
theorem inOrder_tree : Node.InOrder p.tree.start p.tree.stop p.tree.children := by
  have hsize : (printed (marksOfAll p.sketches)).length ≤ p.text.size := by
    rw [marks_sketches, text]
    simp
  rw [tree]
  cases hks : p.sketches with
  | nil => simp [Node.InOrder]
  | cons k rest =>
    rw [hks, marksOfAll_cons, printed_append, List.length_append] at hsize
    have hrest := inOrder_placeAll (Int.le_of_eq (stop_place 0 k)) rest
    rw [Nat.zero_add] at hrest
    rw [placeAll_cons]
    refine ⟨?_, Int.le_of_lt (start_lt_stop 0 k), ?_⟩
    · simp [start_place]
    · rw [Nat.zero_add]
      exact hrest.extend (by lia)

/-- The tree of a program is grammatical. -/
theorem grammatical : p.tree.Grammatical (Buffer.ofBytes p.text) := by
  refine Node.Grammatical.of_children p.inOrder_tree (by simp [tree]) ?_
    ((p.allSound_sketches _).sound p.shows_text)
  intro construct hrule
  obtain rfl : Construct.program = construct := Option.some.inj hrule
  trivial

end Program

end ScriptIndent
