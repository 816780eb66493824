import ScriptIndent.Proofs.Embedding.Lines
import ScriptIndent.Proofs.Layout.Lines
import ScriptIndent.Proofs.Tree.Copy
import ScriptIndent.Proofs.Tree.Sound

/-!
# ScriptIndent.Proofs.Embedding.Excerpt

A text in the middle of another.

```
b'   x x x x ┆ let x = 1 ; ┆ z z
b            ┆ let x = 1 ; ┆
```

The text is found behind the bytes `xs`, so offsets are shifted by their number and
lines by their line feeds (`Shift.excerpt`).  Trees over either text are shifted to
trees over the other (`Node.shift`); they are spelled alike and make the same tokens, so
each is a copy of the other (`Node.copies_shift`, `Node.copies_shift_back`) and a sound
tree stays sound (`Node.Copies.sound_shift`).
-/

namespace ScriptIndent

open Bytes

namespace Node

/-! ## shifted trees -/

mutual

/-- A tree moved along the text. -/
def shift (d : Int) : Node → Node
  | ⟨kind, isNamed, isMissing, hasError, fields, start, stop, children⟩ =>
    ⟨kind, isNamed, isMissing, hasError, fields, start + d, stop + d, shiftAll d children⟩

/-- Trees moved along the text. -/
def shiftAll (d : Int) : List Node → List Node
  | [] => []
  | n :: rest => shift d n :: shiftAll d rest

end

theorem shiftAll_eq (d : Int) (ns : List Node) : shiftAll d ns = ns.map (shift d) := by
  induction ns with
  | nil => rfl
  | cons n rest ih => rw [shiftAll, ih, List.map_cons]

variable {d : Int}

@[simp] theorem shift_kind (n : Node) : (n.shift d).kind = n.kind := by
  cases n
  rfl

@[simp] theorem shift_isNamed (n : Node) : (n.shift d).isNamed = n.isNamed := by
  cases n
  rfl

@[simp] theorem shift_fields (n : Node) : (n.shift d).fields = n.fields := by
  cases n
  rfl

@[simp] theorem shift_start (n : Node) : (n.shift d).start = n.start + d := by
  cases n
  rfl

@[simp] theorem shift_stop (n : Node) : (n.shift d).stop = n.stop + d := by
  cases n
  rfl

@[simp] theorem shift_children (n : Node) : (n.shift d).children = n.children.map (shift d) := by
  cases n
  exact shiftAll_eq d _

@[simp] theorem shift_isComment (n : Node) : (n.shift d).isComment = n.isComment := by
  rw [isComment, isComment, shift_kind]

theorem shift_shift (d e : Int) (n : Node) : (n.shift d).shift e = n.shift (d + e) := by
  induction n using induct with
  | step n ih =>
    obtain ⟨kind, isNamed, isMissing, hasError, fields, start, stop, children⟩ := n
    simp only [shift, shiftAll_eq, List.map_map, mk.injEq, true_and, Int.add_assoc]
    exact List.map_congr_left ih

theorem shift_zero (n : Node) : n.shift 0 = n := by
  induction n using induct with
  | step n ih =>
    obtain ⟨kind, isNamed, isMissing, hasError, fields, start, stop, children⟩ := n
    simp only [shift, shiftAll_eq, Int.add_zero, mk.injEq, true_and]
    rw [List.map_congr_left ih, List.map_id']

/-- A tree that is moved there and back. -/
theorem shift_neg_shift (n : Node) : (n.shift (-d)).shift d = n := by
  rw [shift_shift, Int.add_left_neg, shift_zero]

theorem within_shift {m n : Node} (h : m.Within n) : (m.shift d).Within (n.shift d) := by
  induction h with
  | refl => exact .refl _
  | child mem _ ih =>
    refine .child ?_ ih
    rw [shift_children]
    exact List.mem_map_of_mem mem

theorem exists_of_within_shift {m n : Node} (h : m.Within (n.shift d)) :
    ∃ k : Node, k.Within n ∧ m = k.shift d := by
  refine ⟨m.shift (-d), ?_, (shift_neg_shift m).symm⟩
  have := within_shift (d := -d) h
  rwa [shift_shift, Int.add_right_neg, shift_zero] at this

theorem inOrder_shift {lo hi : Offset} {ns : List Node} (h : InOrder lo hi ns) :
    InOrder (lo + d) (hi + d) (ns.map (shift d)) := by
  induction ns generalizing lo with
  | nil => exact Int.add_le_add_right h d
  | cons n rest ih =>
    obtain ⟨hlo, hle, hrest⟩ := h
    refine ⟨?_, ?_, ?_⟩
    · rw [shift_start]
      exact Int.add_le_add_right hlo d
    · rw [shift_start, shift_stop]
      exact Int.add_le_add_right hle d
    · rw [shift_stop]
      exact ih hrest

theorem Nested.shift {n : Node} (h : n.Nested) : (n.shift d).Nested := by
  intro m hm
  obtain ⟨k, hk, rfl⟩ := exists_of_within_shift hm
  rw [shift_start, shift_stop, shift_children]
  exact inOrder_shift (h k hk)

theorem IsBracketed.shift {n : Node} (h : n.IsBracketed) : (n.shift d).IsBracketed := by
  obtain ⟨opening, inner, closing, hcs, hok, hostart, hostop, hck, hcstart, hcstop⟩ := h
  refine ⟨opening.shift d, inner.map (Node.shift d), closing.shift d, ?_, ?_⟩
  · simp [hcs]
  · simp only [shift_kind, shift_start, shift_stop, hok, hostart, hostop, hck, hcstart, hcstop,
      true_and, and_true]
    lia

theorem Bracketed.shift {n : Node} (h : n.Bracketed) : (n.shift d).Bracketed := by
  intro m hm hkind
  obtain ⟨k, hk, rfl⟩ := exists_of_within_shift hm
  rw [shift_kind] at hkind
  exact (h k hk hkind).shift

end Node

/-! ## the text in the middle -/

namespace Shift

variable {b b' : Buffer} {xs zs : List UInt8}

/-- An offset of the text belongs to as many lines further down as there are lines above
the text. -/
theorem lineOf_shift (h : b'.bytes.toList = xs ++ (b.bytes.toList ++ zs)) {o : Offset}
    (hnonneg : 0 ≤ o) (hle : o ≤ b.bytes.size) :
    b'.lineOf (o + xs.length) = b.lineOf o + feeds xs := by
  have hbytes : (o + xs.length).toNat = xs.length + o.toNat := by lia
  have htake : o.toNat ≤ b.bytes.toList.length := by
    rw [Array.length_toList]
    lia
  rw [b'.lineOf_eq (by lia), b.lineOf_eq hnonneg, h, hbytes,
    List.take_length_add_append, feeds_append, List.take_append_of_le_length htake]
  omega

/-- The shift of a text that is found behind some bytes of another. -/
def excerpt (h : b'.bytes.toList = xs ++ (b.bytes.toList ++ zs)) : Shift b b' where
  map o := o + xs.length
  row line := line + feeds xs
  row_lt h := Nat.add_lt_add_right h _
  Solid start stop := 0 ≤ start ∧ start < stop ∧ stop ≤ b.bytes.size
  lt_of_solid h := h.2.1
  narrow h hstart hlt hstop := ⟨Int.le_trans h.1 hstart, hlt, Int.le_trans hstop h.2.2⟩
  mono h := Int.add_le_add_right h _
  strict _ h := Int.add_lt_add_right h _
  map_eq _ _ _ := by lia
  lineOf ho := lineOf_shift h ho.1 (Int.le_trans (Int.le_add_one (Int.le_refl _)) ho.2.2)
  text {start stop} ho := by
    obtain ⟨hnonneg, hlt, hle⟩ := ho
    obtain ⟨pre, rest, hpre, hlen⟩ : ∃ pre rest, b.bytes.toList = pre ++ rest ∧
        (pre.length : Int) = start :=
      ⟨_, _, (List.take_append_drop start.toNat _).symm, by
        rw [List.length_take, Array.length_toList]
        lia⟩
    obtain ⟨mid, post, hrest, hmid⟩ : ∃ mid post, rest = mid ++ post ∧
        (mid.length : Int) = stop - start := by
      refine ⟨_, _, (List.take_append_drop (stop - start).toNat rest).symm, ?_⟩
      have hsize := congrArg List.length hpre
      rw [Array.length_toList, List.length_append] at hsize
      rw [List.length_take]
      lia
    subst hrest
    rw [hpre] at h
    have hslice : b'.bytes.slice (start + xs.length) (start + xs.length + (stop - start)) = mid := by
      have hbytes : b'.bytes.toList = (xs ++ pre) ++ (mid ++ (post ++ zs)) := by simp [h]
      refine Buffer.slice_eq hbytes ?_ ?_
      · rw [List.length_append]
        lia
      · rw [List.length_append]
        lia
    rw [Buffer.text, Bytes.text, hslice, Buffer.text, Bytes.text,
      Buffer.slice_eq hpre (by lia) (by lia)]

variable {h : b'.bytes.toList = xs ++ (b.bytes.toList ++ zs)}

theorem stop_excerpt (start stop : Offset) :
    (excerpt h).stop start stop = stop + xs.length := by
  rw [Shift.stop]
  split
  · next heq => rw [heq]; rfl
  · change stop - 1 + xs.length + 1 = _
    lia

theorem node_excerpt (n : Node) : (excerpt h).node n = n.shift xs.length := by
  induction n using Node.induct with
  | step n ih =>
    obtain ⟨kind, isNamed, isMissing, hasError, fields, start, stop, children⟩ := n
    rw [node, nodes_eq, Node.shift, Node.shiftAll_eq, stop_excerpt, List.map_congr_left ih]
    rfl

theorem kept_excerpt (o : Offset) : (excerpt h).Kept o := fun _ hlt => Int.add_lt_add_right hlt _

theorem bounds_excerpt {n : Node} (hn : n.start ≤ n.stop) : (excerpt h).Bounds n :=
  ⟨hn, kept_excerpt _, fun _ => kept_excerpt _⟩

end Shift

namespace Node

variable {b b' : Buffer} {xs zs : List UInt8}

/-- A well-formed tree over the text. -/
structure InText (b : Buffer) (n : Node) : Prop where
  nested : n.Nested
  bracketed : n.Bracketed
  nonneg : 0 ≤ n.start
  le : n.stop ≤ b.bytes.size

theorem InText.of_mem {n c : Node} (h : n.InText b) (hc : c ∈ n.children) : c.InText b := by
  obtain ⟨hlo, -, hhi⟩ := h.nested.inOrder.mem hc
  exact ⟨h.nested.of_mem hc, h.bracketed.of_within (.of_mem hc), Int.le_trans h.nonneg hlo,
    Int.le_trans hhi h.le⟩

/-- The pieces of a tree over the text are stretches of the text. -/
theorem InText.solid {n : Node} (h : n.InText b)
    (htext : b'.bytes.toList = xs ++ (b.bytes.toList ++ zs)) {p : Piece} (hp : p ∈ n.pieces b) :
    (Shift.excerpt htext).Solid p.start p.stop := by
  obtain ⟨hlo, hlt, hhi⟩ := (pieces_between h.nested h.bracketed).mem hp
  exact ⟨Int.le_trans h.nonneg hlo, hlt, Int.le_trans hhi h.le⟩

section Texts

variable (htext : b'.bytes.toList = xs ++ (b.bytes.toList ++ zs)) {n : Node}

/-- The pieces of a shifted tree are the moved pieces. -/
theorem InText.pieces_shift (h : n.InText b) :
    (n.shift xs.length).pieces b' = (n.pieces b).map (Shift.excerpt htext).piece := by
  rw [← Shift.node_excerpt (h := htext)]
  exact Shift.pieces_node h.nested fun p hp => h.solid htext hp

include htext

theorem InText.codeCount_shift (h : n.InText b) :
    Piece.codeCount ((n.shift xs.length).pieces b') = Piece.codeCount (n.pieces b) := by
  rw [h.pieces_shift htext, Shift.codeCount_map]

theorem InText.spells_shift (h : n.InText b) {value : String} :
    (n.shift xs.length).Spells b' value ↔ n.Spells b value := by
  have htext' (hlt : n.start < n.stop) :
      b'.text (n.start + xs.length) (n.stop + xs.length) = b.text n.start n.stop := by
    have hsolid : (Shift.excerpt htext).Solid n.start n.stop := ⟨h.nonneg, hlt, h.le⟩
    rw [← (Shift.excerpt htext).text hsolid]
    congr 1
    change _ = n.start + xs.length + (n.stop - n.start)
    lia
  constructor
  · rintro ⟨h₁, h₂, h₃, h₄, h₅⟩
    simp only [shift_isNamed, shift_kind, shift_children, List.map_eq_nil_iff, shift_start,
      shift_stop] at h₁ h₂ h₃ h₄ h₅
    have hlt : n.start < n.stop := by lia
    exact ⟨h₁, h₂, h₃, hlt, htext' hlt ▸ h₅⟩
  · rintro ⟨h₁, h₂, h₃, h₄, h₅⟩
    refine ⟨by simpa, by simpa, by simpa, ?_, ?_⟩
    · rw [shift_start, shift_stop]
      lia
    · rw [shift_start, shift_stop, htext' h₄, h₅]

theorem InText.begins_shift (h : n.InText b) {value : String} :
    (n.shift xs.length).Begins b' value ↔ n.Begins b value := by
  have hpieces : ((n.shift xs.length).pieces b').filter (!·.isComment) =
      ((n.pieces b).filter (!·.isComment)).map (Shift.excerpt htext).piece := by
    rw [h.pieces_shift htext, List.filter_map]
    rfl
  have htokens {p : Piece} {ps : List Piece} (hps : (n.pieces b).filter (!·.isComment) = p :: ps) :
      b'.text (p.start + xs.length) ((Shift.excerpt htext).stop p.start p.stop) =
        b.text p.start p.stop := by
    have hp : p ∈ n.pieces b := (List.mem_filter.1 (hps ▸ List.mem_cons_self)).1
    have hsolid := h.solid htext hp
    rw [Shift.stop_of_solid hsolid]
    exact (Shift.excerpt htext).text hsolid
  rw [Begins, Begins, hpieces]
  cases hps : (n.pieces b).filter (!·.isComment) with
  | nil => simp
  | cons p ps =>
    constructor
    · rintro ⟨q, qs, hq, hvalue⟩
      obtain ⟨rfl, -⟩ := List.cons_eq_cons.1 hq
      exact ⟨p, ps, rfl, (htokens hps).symm.trans hvalue⟩
    · rintro ⟨q, qs, hq, hvalue⟩
      obtain ⟨rfl, -⟩ := List.cons_eq_cons.1 hq
      exact ⟨_, _, rfl, (htokens hps).trans hvalue⟩

end Texts

/-- A text that is not empty spells something. -/
theorem exists_isLexeme (h : 0 < b.bytes.size) : ∃ n : Node, n.IsLexeme b := by
  obtain ⟨x, rest, hbytes⟩ : ∃ x rest, b.bytes.toList = x :: rest := by
    cases hlist : b.bytes.toList with
    | nil =>
      rw [← Array.length_toList, hlist] at h
      cases h
    | cons x rest => exact ⟨x, rest, rfl⟩
  have hslice : b.bytes.slice 0 1 = [x] :=
    Buffer.slice_eq (show b.bytes.toList = [] ++ ([x] ++ rest) by simp [hbytes]) rfl rfl
  -- one byte stands for one character, and no other spelling is that short
  obtain ⟨c, hc⟩ : ∃ c, b.text 0 1 = String.ofList [c] := by
    have hfresh : ∃ c, (Utf8.fresh x).1 ++ Utf8.decodeFrom (Utf8.fresh x).2 [] = [c] := by
      unfold Utf8.fresh
      split <;> simp [Utf8.decodeFrom]
    obtain ⟨c, hc⟩ := hfresh
    exact ⟨c, by rw [Buffer.text, Bytes.text, hslice, Utf8.decode, Utf8.decodeFrom, Utf8.step, hc]⟩
  refine ⟨⟨b.text 0 1, false, false, false, [], 0, 1, []⟩, b.text 0 1,
    ⟨rfl, rfl, rfl, Int.zero_lt_one, rfl⟩, ?_⟩
  rw [hc]
  refine ⟨?_, ?_⟩
  · simp [isCommentKind, String.ext_iff]
  · simp [String.ext_iff]

section Texts

variable (htext : b'.bytes.toList = xs ++ (b.bytes.toList ++ zs))

include htext

/-- Trees over the text are copied into the text around it. -/
theorem copies_shift (hsize : 0 < b'.bytes.size) : Copies b b' (shift xs.length) (InText b) where
  kind := shift_kind
  isNamed := shift_isNamed
  fields := shift_fields
  children := shift_children
  domain_child := InText.of_mem
  spells h := (h.spells_shift htext).2
  hasToken h htoken := by rwa [HasToken, h.codeCount_shift htext]
  begins h := (h.begins_shift htext).1
  lexeme := exists_isLexeme hsize

/-- Trees over the text around it are copied back. -/
theorem copies_shift_back (hsize : 0 < b.bytes.size) :
    Copies b' b (shift (-xs.length)) fun n => (n.shift (-xs.length)).InText b where
  kind := shift_kind
  isNamed := shift_isNamed
  fields := shift_fields
  children := shift_children
  domain_child {n c} hn hc := by
    refine hn.of_mem ?_
    rw [shift_children]
    exact List.mem_map_of_mem hc
  spells {n value} h hn := by rwa [← h.spells_shift htext, shift_neg_shift]
  hasToken {n} h hn := by rwa [HasToken, ← h.codeCount_shift htext, shift_neg_shift]
  begins {n value} h hn := by rwa [← h.begins_shift htext, shift_neg_shift] at hn
  lexeme := exists_isLexeme hsize

end Texts

/-- A sound tree stays sound when it is copied along the text. -/
theorem Copies.sound_shift {d : Int} {Domain : Node → Prop} (hcopies : Copies b b' (shift d) Domain)
    {n : Node} (hn : Domain n) (h : n.Sound b) : (n.shift d).Sound b' := by
  induction n using induct with
  | step n ih =>
    obtain ⟨hinOrder, hbracketed, htoken, hshape⟩ := h.isSound
    refine Sound.node ⟨?_, ?_, ?_, ?_⟩ ?_
    · rw [shift_start, shift_stop, shift_children]
      exact inOrder_shift hinOrder
    · rw [shift_kind]
      exact fun hkind => (hbracketed hkind).shift
    · intro hcode
      rw [IsCode, shift_isNamed, shift_isComment] at hcode
      exact hcopies.hasToken hn (htoken hcode)
    · intro hnamed construct hconstruct
      rw [shift_isNamed] at hnamed
      rw [shift_kind] at hconstruct
      exact hcopies.shape hn (hshape hnamed construct hconstruct)
    · rw [shift_children]
      intro c hc
      obtain ⟨k, hk, rfl⟩ := List.mem_map.1 hc
      exact ih k hk (hcopies.domain_child hn hk) (h.of_mem hk)

end Node

end ScriptIndent
