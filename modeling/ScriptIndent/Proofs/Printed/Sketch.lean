import ScriptIndent.Proofs.Layout.Lines
import ScriptIndent.Proofs.Tree.Sound

/-!
# ScriptIndent.Proofs.Printed.Sketch

Texts printed together with their trees.

```
⟨ if⟩⟨ (⟩⟨x⟩⟨)⟩⟨ {⟩⟨⏎}⟩      the marks: each a leaf with the blanks before it
```

A *sketch* is a tree whose leaves are marks (`Sketch`).  It is printed by writing down its
marks (`Sketch.marks`, `printed`), and the tree of what is printed from some offset on is its
tree at that offset (`Sketch.place`).  So the pieces of the tree are those of the marks
(`Sketch.pieces_place`).
-/

namespace ScriptIndent

open Bytes

/-! ## leaves -/

/-- A text of the basic alphabet on one line, which goes for the kind of its node. -/
def IsWord (value : String) : Prop :=
  value.toList ≠ [] ∧ (∀ c ∈ value.toList, c.toNat < 128 ∧ c ≠ '\n') ∧
    Node.IsSpelling value ∧ value ≠ "template_substitution"

instance (value : String) : Decidable (IsWord value) :=
  have : Decidable (∀ c ∈ value.toList, c.toNat < 128 ∧ c ≠ '\n') := List.decidableBAll _ _
  inferInstanceAs (Decidable (_ ∧ _))

/-- A keyword or a punctuator. -/
structure Word where
  value : String
  isWord : IsWord value

/-- An identifier, on one line. -/
structure Name where
  text : List UInt8
  ne_nil : text ≠ []
  oneLine : lineFeed ∉ text

inductive Leaf where
  | word (w : Word)
  | name (x : Name)

namespace Leaf

/-- The kind of the node for a leaf. -/
def kind : Leaf → String
  | .word w => w.value
  | .name _ => "identifier"

def isNamed : Leaf → Bool
  | .word _ => false
  | .name _ => true

def text : Leaf → List UInt8
  | .word w => w.value.toList.map fun c => UInt8.ofNat c.toNat
  | .name x => x.text

theorem text_ne_nil (l : Leaf) : l.text ≠ [] := by
  cases l with
  | word w => simpa [text] using w.isWord.1
  | name x => exact x.ne_nil

private theorem length_text_pos (l : Leaf) : 0 < l.text.length :=
  List.length_pos_iff.2 l.text_ne_nil

/-- A leaf stands on one line. -/
theorem feeds_text (l : Leaf) : feeds l.text = 0 := by
  rw [feeds, List.count_eq_zero]
  cases l with
  | word w =>
    intro hmem
    obtain ⟨c, hc, heq⟩ := List.mem_map.1 hmem
    obtain ⟨hsmall, hne⟩ := w.isWord.2.1 c hc
    have hnat : c.toNat = 10 := by
      have := congrArg UInt8.toNat heq
      simp only [UInt8.toNat_ofNat', lineFeed] at this
      change c.toNat % 256 = 10 at this
      omega
    exact hne (Char.toNat_inj.1 hnat)
  | name x => exact x.oneLine

theorem isSpelling (l : Leaf) : Node.IsSpelling l.kind := by
  cases l with
  | word w => exact w.isWord.2.2.1
  | name x => exact show Node.IsSpelling "identifier" by decide

end Leaf

/-- Characters of the basic alphabet are read as they are written. -/
theorem Utf8.decodeFrom_ascii {cs : List Char} (h : ∀ c ∈ cs, c.toNat < 128) :
    decodeFrom none (cs.map fun c => UInt8.ofNat c.toNat) = cs := by
  induction cs with
  | nil => rfl
  | cons c cs ih =>
    have hc := h c List.mem_cons_self
    have hnat : (UInt8.ofNat c.toNat).toNat = c.toNat := by
      rw [UInt8.toNat_ofNat']
      omega
    have hsmall : UInt8.ofNat c.toNat < 0x80 := by
      rw [UInt8.lt_iff_toNat_lt, hnat]
      exact hc
    have hfresh : fresh (UInt8.ofNat c.toNat) = ([c], none) := by
      simp [fresh, lead, hsmall, hnat]
    rw [List.map_cons, decodeFrom, step, hfresh, ih fun d hd => h d (List.mem_cons_of_mem c hd)]
    rfl

/-- What a word spells is read again. -/
theorem Word.decode_text (w : Word) : Utf8.decode (Leaf.word w).text = w.value := by
  rw [Leaf.text, Utf8.decode, Utf8.decodeFrom_ascii fun c hc => (w.isWord.2.1 c hc).1,
    String.ofList_toList]

/-! ## marks -/

/-- A leaf with the blanks before it. -/
structure Mark where
  gap : List UInt8
  leaf : Leaf

namespace Mark

def bytes (m : Mark) : List UInt8 := m.gap ++ m.leaf.text

theorem length_gap_lt (m : Mark) : m.gap.length < m.bytes.length := by
  have := m.leaf.length_text_pos
  rw [bytes, List.length_append]
  omega

/-- The lines that a mark ends. -/
theorem feeds_bytes (m : Mark) : feeds m.bytes = feeds m.gap := by
  rw [bytes, feeds_append, m.leaf.feeds_text, Nat.add_zero]

end Mark

/-- Marks written down one after the other. -/
def printed (ms : List Mark) : List UInt8 := ms.flatMap Mark.bytes

@[simp] theorem printed_nil : printed [] = [] := rfl

@[simp] theorem printed_cons (m : Mark) (ms : List Mark) :
    printed (m :: ms) = m.bytes ++ printed ms := rfl

@[simp] theorem printed_append (ms ns : List Mark) :
    printed (ms ++ ns) = printed ms ++ printed ns := List.flatMap_append

/-- The piece of a mark that is printed from an offset on. -/
def Mark.piece (b : Buffer) (o : Nat) (m : Mark) : Piece where
  kind := .ofLeaf m.leaf.kind m.leaf.isNamed
    (b.text (o + m.gap.length : Nat) (o + m.bytes.length : Nat))
  start := (o + m.gap.length : Nat)
  stop := (o + m.bytes.length : Nat)

/-- The pieces of marks that are printed from an offset on. -/
def markPieces (b : Buffer) (o : Nat) : List Mark → List Piece
  | [] => []
  | m :: ms => m.piece b o :: markPieces b (o + m.bytes.length) ms

theorem markPieces_append (b : Buffer) (o : Nat) (ms ns : List Mark) :
    markPieces b o (ms ++ ns) =
      markPieces b o ms ++ markPieces b (o + (printed ms).length) ns := by
  induction ms generalizing o with
  | nil => rfl
  | cons m ms ih => simp [markPieces, ih, Nat.add_assoc]

@[simp] theorem length_markPieces (b : Buffer) (o : Nat) (ms : List Mark) :
    (markPieces b o ms).length = ms.length := by
  induction ms generalizing o with
  | nil => rfl
  | cons m ms ih => simp [markPieces, ih]

/-- No mark is a comment. -/
theorem filter_markPieces (b : Buffer) (o : Nat) (ms : List Mark) :
    (markPieces b o ms).filter (!·.isComment) = markPieces b o ms := by
  induction ms generalizing o with
  | nil => rfl
  | cons m ms ih =>
    have hcode : (m.piece b o).isComment = false :=
      Node.ofLeaf_isComment m.leaf.isSpelling.1 _ _ _ _
    rw [markPieces, List.filter_cons_of_pos (by simp [hcode]), ih]

theorem codeCount_markPieces (b : Buffer) (o : Nat) (ms : List Mark) :
    Piece.codeCount (markPieces b o ms) = ms.length := by
  rw [Piece.codeCount_eq_length_filter, filter_markPieces, length_markPieces]

/-! ## sketches -/

/-- The kind of a construct that is cut into its children, and that may stand below a program
but not in a class. -/
def IsFrame (kind : String) : Prop :=
  (Construct.ofKind? kind).isSome ∧ Node.isLiteralKind kind = false ∧
    kind ∉ ["program", "field_definition", "template_substitution"]

instance (kind : String) : Decidable (IsFrame kind) := inferInstanceAs (Decidable (_ ∧ _))

structure Frame where
  kind : String
  isFrame : IsFrame kind

/-- A tree over marks.  Every construct has a part. -/
inductive Sketch where
  | leaf (fields : List String) (mark : Mark)
  | node (fields : List String) (frame : Frame) (first : Sketch) (rest : List Sketch)

namespace Sketch

mutual

/-- The marks of a sketch in their order. -/
def marks : Sketch → List Mark
  | leaf _ mark => [mark]
  | node _ _ first rest => marks first ++ marksOfAll rest

/-- The marks of some sketches. -/
def marksOfAll : List Sketch → List Mark
  | [] => []
  | k :: rest => marks k ++ marksOfAll rest

end

/-- The blanks before a sketch. -/
def gap : Sketch → List UInt8
  | leaf _ mark => mark.gap
  | node _ _ first _ => first.gap

mutual

/-- The tree of a sketch that is printed from an offset on. -/
def place (o : Nat) : Sketch → Node
  | leaf fields mark =>
    ⟨mark.leaf.kind, mark.leaf.isNamed, false, false, fields, (o + mark.gap.length : Nat),
      (o + mark.bytes.length : Nat), []⟩
  | node fields frame first rest =>
    ⟨frame.kind, true, false, false, fields, (o + first.gap.length : Nat),
      (o + (printed (marks first ++ marksOfAll rest)).length : Nat),
      place o first :: placeAll (o + (printed (marks first)).length) rest⟩

/-- The trees of sketches that are printed one after the other. -/
def placeAll (o : Nat) : List Sketch → List Node
  | [] => []
  | k :: rest => place o k :: placeAll (o + (printed (marks k)).length) rest

end

@[simp] theorem marks_leaf (fields : List String) (mark : Mark) :
    (leaf fields mark).marks = [mark] := by rw [marks]

@[simp] theorem marks_node (fields : List String) (frame : Frame) (first : Sketch)
    (rest : List Sketch) :
    (node fields frame first rest).marks = first.marks ++ marksOfAll rest := by rw [marks]

@[simp] theorem marksOfAll_nil : marksOfAll [] = [] := by rw [marksOfAll]

@[simp] theorem marksOfAll_cons (k : Sketch) (rest : List Sketch) :
    marksOfAll (k :: rest) = k.marks ++ marksOfAll rest := by rw [marksOfAll]

@[simp] theorem marksOfAll_append (ks ls : List Sketch) :
    marksOfAll (ks ++ ls) = marksOfAll ks ++ marksOfAll ls := by
  induction ks with
  | nil => simp
  | cons k ks ih => simp [ih]

@[simp] theorem placeAll_nil (o : Nat) : placeAll o [] = [] := by rw [placeAll]

@[simp] theorem placeAll_cons (o : Nat) (k : Sketch) (rest : List Sketch) :
    placeAll o (k :: rest) = k.place o :: placeAll (o + (printed k.marks).length) rest := by
  rw [placeAll]

theorem placeAll_append (o : Nat) (ks ls : List Sketch) :
    placeAll o (ks ++ ls) =
      placeAll o ks ++ placeAll (o + (printed (marksOfAll ks)).length) ls := by
  induction ks generalizing o with
  | nil => simp
  | cons k ks ih => simp [ih, Nat.add_assoc]

theorem start_place (o : Nat) (k : Sketch) : (k.place o).start = (o + k.gap.length : Nat) := by
  cases k <;> rw [place, gap]

theorem stop_place (o : Nat) (k : Sketch) :
    (k.place o).stop = (o + (printed k.marks).length : Nat) := by
  cases k <;> simp [place]

theorem children_node (o : Nat) (fields : List String) (frame : Frame) (first : Sketch)
    (rest : List Sketch) :
    ((node fields frame first rest).place o).children = placeAll o (first :: rest) := by
  rw [place, placeAll]

/-- A sketch begins with the blanks before it. -/
theorem exists_marks_eq (k : Sketch) : ∃ m ms, k.marks = m :: ms ∧ m.gap = k.gap := by
  induction k using Sketch.rec (motive_2 := fun _ => True) with
  | leaf fields mark => exact ⟨mark, [], by simp, rfl⟩
  | node fields frame first rest ih =>
    obtain ⟨m, ms, hmarks, hgap⟩ := ih
    exact ⟨m, ms ++ marksOfAll rest, by simp [hmarks], hgap⟩
  | nil => trivial
  | cons => trivial

theorem length_gap_lt (k : Sketch) : k.gap.length < (printed k.marks).length := by
  obtain ⟨m, ms, hmarks, hgap⟩ := k.exists_marks_eq
  have := m.length_gap_lt
  rw [hmarks, ← hgap, printed_cons, List.length_append]
  omega

theorem start_lt_stop (o : Nat) (k : Sketch) : (k.place o).start < (k.place o).stop := by
  have := k.length_gap_lt
  rw [start_place, stop_place]
  lia

/-- Sketches are printed in order. -/
theorem inOrder_placeAll {lo : Offset} {o : Nat} (hlo : lo ≤ o) (ks : List Sketch) :
    Node.InOrder lo (o + (printed (marksOfAll ks)).length : Nat) (placeAll o ks) := by
  induction ks generalizing o lo with
  | nil => simpa [Node.InOrder] using hlo
  | cons k ks ih =>
    have hrest := ih (o := o + (printed k.marks).length) (Int.le_of_eq (stop_place o k))
    rw [placeAll_cons, marksOfAll_cons, printed_append, List.length_append, ← Nat.add_assoc]
    refine ⟨?_, Int.le_of_lt (start_lt_stop o k), hrest⟩
    rw [start_place]
    lia

theorem inOrder_children (o : Nat) (fields : List String) (frame : Frame) (first : Sketch)
    (rest : List Sketch) :
    Node.InOrder ((node fields frame first rest).place o).start
      ((node fields frame first rest).place o).stop
      ((node fields frame first rest).place o).children := by
  have hrest := inOrder_placeAll (Int.le_of_eq (stop_place o first)) rest
  rw [children_node, placeAll_cons, start_place, stop_place, marks_node, printed_append,
    List.length_append, ← Nat.add_assoc]
  refine ⟨?_, Int.le_of_lt (start_lt_stop o first), hrest⟩
  exact Int.le_of_eq (by rw [start_place, gap])

theorem isCompound_node (o : Nat) (fields : List String) (frame : Frame) (first : Sketch)
    (rest : List Sketch) : ((node fields frame first rest).place o).IsCompound := by
  obtain ⟨construct, hrule⟩ := Option.isSome_iff_exists.1 frame.isFrame.1
  rw [place]
  exact ⟨Node.isComment_of_ofKind? hrule, frame.isFrame.2.1⟩

/-! ## pieces -/

mutual

/-- The pieces of the tree of a sketch are those of its marks. -/
theorem pieces_place (b : Buffer) (o : Nat) :
    (k : Sketch) → (k.place o).pieces b = markPieces b o k.marks
  | leaf fields mark => by
    have hlt := start_lt_stop o (leaf fields mark)
    have hspelling : Node.IsSpelling ((leaf fields mark).place o).kind := by
      rw [place]
      exact mark.leaf.isSpelling
    rw [Node.pieces_of_leaf hlt hspelling (by rw [place]), place, marks_leaf]
    rfl
  | node fields frame first rest => by
    have hne : ((node fields frame first rest).place o).start ≠
        ((node fields frame first rest).place o).stop := by
      have := start_lt_stop o (node fields frame first rest)
      lia
    obtain ⟨hcomment, hliteral⟩ := isCompound_node o fields frame first rest
    rw [Node.isLiteralKind, Bool.or_eq_false_iff, beq_eq_false_iff_ne] at hliteral
    rw [Node.pieces_eq, if_neg hne, if_neg (by simp [hcomment]), if_neg hliteral.1,
      if_neg (by simp [hliteral.2, children_node]), children_node, placeAll_cons,
      List.flatMap_cons, pieces_place b o first, pieces_placeAll b _ rest, marks_node,
      markPieces_append]

theorem pieces_placeAll (b : Buffer) (o : Nat) :
    (ks : List Sketch) → (placeAll o ks).flatMap (Node.pieces b) = markPieces b o (marksOfAll ks)
  | [] => by simp [markPieces]
  | k :: rest => by
    rw [placeAll_cons, List.flatMap_cons, pieces_place b o k, pieces_placeAll b _ rest,
      marksOfAll_cons, markPieces_append]

end

theorem codeCount_place (b : Buffer) (o : Nat) (k : Sketch) :
    Piece.codeCount ((k.place o).pieces b) = k.marks.length := by
  rw [pieces_place, codeCount_markPieces]

theorem hasToken_place (b : Buffer) (o : Nat) (k : Sketch) : (k.place o).HasToken b := by
  obtain ⟨m, ms, hmarks, -⟩ := k.exists_marks_eq
  rw [Node.HasToken, codeCount_place, hmarks]
  exact Nat.succ_pos _

/-! ## the nodes of a sketch -/

def kind : Sketch → String
  | leaf _ mark => mark.leaf.kind
  | node _ frame _ _ => frame.kind

def isNamed : Sketch → Bool
  | leaf _ mark => mark.leaf.isNamed
  | node .. => true

/-- The fields under which the parent refers to a sketch. -/
def fields : Sketch → List String
  | leaf fields _ => fields
  | node fields .. => fields

@[simp] theorem kind_place (o : Nat) (k : Sketch) : (k.place o).kind = k.kind := by
  cases k <;> rw [place, kind]

@[simp] theorem isNamed_place (o : Nat) (k : Sketch) : (k.place o).isNamed = k.isNamed := by
  cases k <;> rw [place, isNamed]

@[simp] theorem fields_place (o : Nat) (k : Sketch) : (k.place o).fields = k.fields := by
  cases k <;> rw [place, fields]

@[simp] theorem isNamed_node (fs : List String) (frame : Frame) (first : Sketch)
    (rest : List Sketch) : (node fs frame first rest).isNamed = true := rfl

@[simp] theorem isNamed_leaf (fs : List String) (mark : Mark) :
    (leaf fs mark).isNamed = mark.leaf.isNamed := rfl

@[simp] theorem fields_node (fs : List String) (frame : Frame) (first : Sketch)
    (rest : List Sketch) : (node fs frame first rest).fields = fs := rfl

@[simp] theorem fields_leaf (fs : List String) (mark : Mark) : (leaf fs mark).fields = fs := rfl

/-- Every construct in a sketch is that of a frame or an identifier. -/
theorem kind_of_isNamed (k : Sketch) (h : k.isNamed = true) :
    IsFrame k.kind ∨ k.kind = "identifier" := by
  cases k with
  | node fields frame first rest => exact .inl frame.isFrame
  | leaf fields mark =>
    obtain ⟨gap, leaf⟩ := mark
    cases leaf with
    | word w => simp [isNamed, Leaf.isNamed] at h
    | name x => exact .inr rfl

theorem isComment_place (o : Nat) (k : Sketch) : (k.place o).isComment = false := by
  cases k with
  | node fields frame first rest => exact (isCompound_node o fields frame first rest).1
  | leaf fields mark =>
    rw [Node.isComment, kind_place]
    exact mark.leaf.isSpelling.1

mutual

/-- What is within the tree of a sketch is the tree of a sketch. -/
theorem exists_of_within (o : Nat) : (k : Sketch) → {m : Node} → m.Within (k.place o) →
    ∃ (p : Nat) (l : Sketch), m = l.place p
  | leaf fields mark, m, h => by
    rcases h.eq_or_below with rfl | ⟨c, hc, -⟩
    · exact ⟨o, _, rfl⟩
    · rw [place] at hc
      simp at hc
  | node fields frame first rest, m, h => by
    rcases h.eq_or_below with rfl | ⟨c, hc, hm⟩
    · exact ⟨o, _, rfl⟩
    · rw [children_node, placeAll_cons, List.mem_cons] at hc
      rcases hc with rfl | hc
      · exact exists_of_within o first hm
      · exact exists_of_within_all _ rest hc hm

theorem exists_of_within_all (o : Nat) : (ks : List Sketch) → {c m : Node} →
    c ∈ placeAll o ks → m.Within c → ∃ (p : Nat) (l : Sketch), m = l.place p
  | [], c, m, hc, _ => by simp at hc
  | k :: rest, c, m, hc, h => by
    rw [placeAll_cons, List.mem_cons] at hc
    rcases hc with rfl | hc
    · exact exists_of_within o k h
    · exact exists_of_within_all _ rest hc h

end

end Sketch

/-! ## reading what is printed -/

/-- Some bytes stand in a text from an offset on. -/
def Buffer.Shows (b : Buffer) (o : Nat) (bs : List UInt8) : Prop :=
  ∃ xs zs, b.bytes.toList = xs ++ (bs ++ zs) ∧ xs.length = o

namespace Buffer.Shows

variable {b : Buffer} {o : Nat} {bs cs : List UInt8}

theorem left (h : b.Shows o (bs ++ cs)) : b.Shows o bs := by
  obtain ⟨xs, zs, htext, hlength⟩ := h
  exact ⟨xs, cs ++ zs, by simp [htext], hlength⟩

theorem right (h : b.Shows o (bs ++ cs)) : b.Shows (o + bs.length) cs := by
  obtain ⟨xs, zs, htext, hlength⟩ := h
  exact ⟨xs ++ bs, zs, by simp [htext], by simp [hlength]⟩

theorem text_eq (h : b.Shows o bs) : b.text o (o + bs.length : Nat) = Utf8.decode bs := by
  obtain ⟨xs, zs, htext, rfl⟩ := h
  rw [Buffer.text, Bytes.text, slice_eq htext rfl rfl]

end Buffer.Shows

namespace Sketch

variable {b : Buffer} {o : Nat}

/-- The text shows a word where it is printed. -/
theorem spells_place {fields : List String} {gap : List UInt8} {w : Word}
    (h : b.Shows o (Mark.mk gap (.word w)).bytes) :
    ((leaf fields ⟨gap, .word w⟩).place o).Spells b w.value where
  anonymous := isNamed_place o _
  kind_eq := kind_place o _
  children_eq := by rw [place]
  lt := start_lt_stop o _
  text_eq := by
    have htext := h.right.text_eq
    rw [Word.decode_text, Nat.add_assoc, ← List.length_append] at htext
    rw [place]
    exact htext

/-- A word or a name is sound where it is printed. -/
theorem sound_leaf {fields : List String} {mark : Mark} (h : b.Shows o mark.bytes) :
    ((leaf fields mark).place o).Sound b := by
  obtain ⟨gap, leaf⟩ := mark
  cases leaf with
  | word w => exact (spells_place h).sound w.isWord.2.2.2
  | name x =>
    have hkind : (Sketch.leaf fields ⟨gap, .name x⟩).kind = "identifier" := rfl
    refine Node.sound_of_leaf (start_lt_stop o _) (by rw [place]) ?_ ?_
    · rw [kind_place, hkind]
      decide
    · rw [kind_place, hkind]
      decide

/-- A construct of the right shape over sound parts is sound. -/
theorem sound_node {fields : List String} {frame : Frame} {first : Sketch} {rest : List Sketch}
    {construct : Construct} (hrule : Construct.ofKind? frame.kind = some construct)
    (hshape : ((node fields frame first rest).place o).Shape b construct)
    (hparts : ∀ c ∈ placeAll o (first :: rest), c.Sound b) :
    ((node fields frame first rest).place o).Sound b := by
  refine Node.Sound.node ⟨inOrder_children o fields frame first rest, ?_,
    fun _ => hasToken_place b o _, ?_⟩ ?_
  · rw [kind_place]
    intro hkind
    exact absurd frame.isFrame.2.2 (by simp [show frame.kind = _ from hkind])
  · intro _ construct' hrule'
    rw [kind_place] at hrule'
    exact Option.mem_unique hrule hrule' ▸ hshape
  · rwa [children_node]

/-- Parts between two delimiters. -/
def enclosed (fields : List String) (frame : Frame) (left : Mark) (inner : List Sketch)
    (right : Mark) : Sketch :=
  node fields frame (leaf [] left) (inner ++ [leaf [] right])

@[simp] theorem marks_enclosed (fields : List String) (frame : Frame) (left : Mark)
    (inner : List Sketch) (right : Mark) :
    (enclosed fields frame left inner right).marks = left :: (marksOfAll inner ++ [right]) := by
  simp [enclosed]

theorem children_enclosed (o : Nat) (fields : List String) (frame : Frame) (left : Mark)
    (inner : List Sketch) (right : Mark) :
    ((enclosed fields frame left inner right).place o).children =
      (leaf [] left).place o :: (placeAll (o + left.bytes.length) inner ++
        [(leaf [] right).place (o + left.bytes.length + (printed (marksOfAll inner)).length)]) := by
  simp [enclosed, children_node, placeAll_append]

/-- What is printed between two delimiters is enclosed. -/
theorem enclosed_place {fields : List String} {frame : Frame} {gap gap' : List UInt8}
    {w w' : Word} {inner : List Sketch}
    (h : b.Shows o (printed
      (enclosed fields frame ⟨gap, .word w⟩ inner ⟨gap', .word w'⟩).marks)) :
    ((enclosed fields frame ⟨gap, .word w⟩ inner ⟨gap', .word w'⟩).place o).Enclosed b w.value
      w'.value := by
  have hchildren := children_enclosed o fields frame ⟨gap, .word w⟩ inner ⟨gap', .word w'⟩
  rw [marks_enclosed, printed_cons, printed_append] at h
  refine ⟨isCompound_node o fields frame _ _, _, _, _, hchildren, spells_place h.left, ?_⟩
  simpa using @spells_place _ _ [] _ _ h.right.right.left

end Sketch

end ScriptIndent
