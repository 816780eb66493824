import ScriptIndent.Proofs.Stream.Query

/-!
# ScriptIndent.Proofs.Stream.Span

Where the tokens of a node stand in the stream of its source.

A node *spans* the tokens from place `i` to place `j` (excluded) if they are made
of its own pieces, and all other tokens stand before or behind its range.  What
spans tokens covers them.  The children of a node that is cut into its children
span consecutive stretches (`Spans.chain`), and so do the nodes that a template
literal puts in, between the stretches of its literal text
(`Stretch.exists_substitutes`).
-/

namespace ScriptIndent

namespace Piece

/-- The number of code tokens among pieces. -/
def codeCount (ps : List Piece) : Nat := ps.countP (!·.isComment)

@[simp] theorem codeCount_nil : codeCount [] = 0 := rfl

@[simp] theorem codeCount_append (ps qs : List Piece) :
    codeCount (ps ++ qs) = codeCount ps + codeCount qs := List.countP_append

theorem codeCount_cons (p : Piece) (ps : List Piece) :
    codeCount (p :: ps) = (if p.isComment then 0 else 1) + codeCount ps := by
  rw [codeCount, List.countP_cons, ← codeCount]
  cases p.isComment with
  | true => simp
  | false =>
    simp
    omega

theorem codeCount_eq_length_filter (ps : List Piece) :
    codeCount ps = (ps.filter (!·.isComment)).length := List.countP_eq_length_filter

end Piece

open Piece

namespace Node

/-- Some code token is made of the node. -/
def HasToken (b : Buffer) (n : Node) : Prop := 0 < codeCount (n.pieces b)

/-- Only comments become comments. -/
theorem ofLeaf_isComment {kind : String} (h : isCommentKind kind = false) (isNamed : Bool)
    (value : String) (start stop : Offset) :
    (Piece.mk (.ofLeaf kind isNamed value) start stop).isComment = false := by
  have hkind : TokenKind.ofNodeKind? kind ≠ some .comment := by
    unfold TokenKind.ofNodeKind?
    rw [h]
    repeat' split
    all_goals simp_all
  rw [Piece.isComment, beq_eq_false_iff_ne]
  intro heq
  unfold TokenKind.ofLeaf at heq
  split at heq
  · next k hk => exact hkind (heq ▸ hk)
  · split at heq <;> split at heq <;> simp at heq

/-- A spelling that goes for a node kind and that no comment or template literal
goes by. -/
def IsSpelling (value : String) : Prop :=
  isCommentKind value = false ∧ value ≠ "template_string"

instance (value : String) : Decidable (IsSpelling value) :=
  inferInstanceAs (Decidable (_ ∧ _))

/-- The node is an anonymous leaf, and the text spells it. -/
structure Spells (b : Buffer) (n : Node) (value : String) : Prop where
  anonymous : n.isNamed = false
  kind_eq : n.kind = value
  children_eq : n.children = []
  lt : n.start < n.stop
  text_eq : b.text n.start n.stop = value

instance (b : Buffer) (n : Node) (value : String) : Decidable (n.Spells b value) :=
  decidable_of_iff (n.isNamed = false ∧ n.kind = value ∧ n.children.isEmpty = true ∧
      n.start < n.stop ∧ b.text n.start n.stop = value) <| by
    rw [List.isEmpty_iff]
    exact ⟨fun h => ⟨h.1, h.2.1, h.2.2.1, h.2.2.2.1, h.2.2.2.2⟩,
      fun h => ⟨h.anonymous, h.kind_eq, h.children_eq, h.lt, h.text_eq⟩⟩

/-- The one piece of a leaf. -/
theorem pieces_of_leaf {b : Buffer} {n : Node} (hlt : n.start < n.stop)
    (hkind : IsSpelling n.kind) (hchildren : n.children = []) :
    n.pieces b = [⟨.ofLeaf n.kind n.isNamed (b.text n.start n.stop), n.start, n.stop⟩] := by
  have hempty : n.start ≠ n.stop := by lia
  have hcomment : n.isComment = false := hkind.1
  rw [Node.pieces_eq, if_neg hempty, if_neg (by simp [hcomment]), if_neg hkind.2,
    if_pos (by simp [hchildren])]

/-- The one piece of an anonymous leaf. -/
theorem Spells.pieces_eq {b : Buffer} {n : Node} {value : String} (h : n.Spells b value)
    (hvalue : IsSpelling value) :
    n.pieces b = [⟨.ofLeaf value false value, n.start, n.stop⟩] := by
  obtain ⟨hnamed, hkind, hchildren, hlt, htext⟩ := h
  rw [pieces_of_leaf hlt (hkind ▸ hvalue) hchildren, hkind, hnamed, htext]

/-- A leaf makes one token. -/
theorem codeCount_of_leaf {b : Buffer} {n : Node} (hlt : n.start < n.stop)
    (hkind : IsSpelling n.kind) (hchildren : n.children = []) : codeCount (n.pieces b) = 1 := by
  rw [pieces_of_leaf hlt hkind hchildren, codeCount_cons, ofLeaf_isComment hkind.1]
  rfl

/-- The node is cut into its children: it is neither a comment nor a literal. -/
def IsCompound (n : Node) : Prop := n.isComment = false ∧ isLiteralKind n.kind = false

/-- The node is cut into its children, and has some. -/
def IsCut (n : Node) : Prop := n.IsCompound ∧ n.children ≠ []

/-- The pieces of a node that is cut are those of its children. -/
theorem pieces_of_isCut {b : Buffer} {n : Node} (hne : n.start ≠ n.stop) (hn : n.IsCut) :
    n.pieces b = n.children.flatMap (pieces b) := by
  obtain ⟨⟨hcomment, hliteral⟩, hchildren⟩ := hn
  rw [isLiteralKind, Bool.or_eq_false_iff, beq_eq_false_iff_ne] at hliteral
  have hleaf : (isAtomicKind n.kind || n.children.isEmpty) = false := by
    simp [hliteral.2, hchildren]
  rw [pieces_eq, if_neg hne]
  simp [hcomment, hliteral.1, hleaf]

/-- The pieces of a compound node are those of its children. -/
theorem pieces_eq_flatMap {b : Buffer} {n : Node} (h : n.Nested) (hn : n.IsCompound)
    (hchildren : n.children ≠ []) : n.pieces b = n.children.flatMap (pieces b) := by
  by_cases hempty : n.start = n.stop
  · -- children of a node of no width have no width
    rw [pieces_eq, if_pos hempty, eq_comm, List.flatMap_eq_nil_iff]
    intro c hc
    have hc := h.inOrder.mem hc
    rw [pieces_eq, if_pos (by lia)]
  · exact pieces_of_isCut hempty ⟨hn, hchildren⟩

/-- A program is cut into its statements, unless it is blank. -/
theorem pieces_program {b : Buffer} {n : Node} (hkind : n.kind = "program") (hn : n.Nested)
    (hblank : n.children = [] → n.start = n.stop) : n.pieces b = n.children.flatMap (·.pieces b) := by
  by_cases hchildren : n.children = []
  · rw [pieces_eq, if_pos (hblank hchildren), hchildren]
    rfl
  · refine pieces_eq_flatMap hn ⟨?_, ?_⟩ hchildren
    · rw [isComment, hkind]
      decide
    · rw [hkind]
      decide

end Node

namespace Source

variable {s : Source}

/-! ## stretches of the stream -/

/-- Some pieces make the tokens from place `i` on, and all other pieces stand
before `lo` or behind `hi`. -/
def Stretch (s : Source) (lo hi : Offset) (ps : List Piece) (i : Nat) : Prop :=
  ∃ before after, s.root.pieces s.buffer = before ++ (ps ++ after) ∧ i = codeCount before ∧
    (∀ p ∈ before, p.stop ≤ lo) ∧ ∀ p ∈ after, hi ≤ p.start

/-- The stretch of a first part of the pieces. -/
theorem Stretch.left {lo mid hi : Offset} {ps qs : List Piece} {i : Nat}
    (h : s.Stretch lo hi (ps ++ qs) i) (hq : Between mid hi qs) : s.Stretch lo mid ps i := by
  obtain ⟨before, after, heq, hi, hbefore, hafter⟩ := h
  refine ⟨before, qs ++ after, by rw [heq, List.append_assoc], hi, hbefore, fun p hp => ?_⟩
  rcases List.mem_append.1 hp with hp | hp
  · exact (hq.mem hp).1
  · exact Int.le_trans hq.le (hafter p hp)

/-- The stretch of the rest of the pieces. -/
theorem Stretch.right {lo mid hi : Offset} {ps qs : List Piece} {i : Nat}
    (h : s.Stretch lo hi (ps ++ qs) i) (hp : Between lo mid ps) :
    s.Stretch mid hi qs (i + codeCount ps) := by
  obtain ⟨before, after, heq, hi, hbefore, hafter⟩ := h
  refine ⟨before ++ ps, after, by simp [heq], by simp [hi], fun p hmem => ?_, hafter⟩
  rcases List.mem_append.1 hmem with hmem | hmem
  · exact Int.le_trans (hbefore p hmem) hp.le
  · exact (hp.mem hmem).2.2

theorem Stretch.narrow {lo lo' hi hi' : Offset} {ps : List Piece} {i : Nat}
    (h : s.Stretch lo hi ps i) (hlo : lo ≤ lo') (hhi : hi' ≤ hi) : s.Stretch lo' hi' ps i := by
  obtain ⟨before, after, heq, hi, hbefore, hafter⟩ := h
  exact ⟨before, after, heq, hi, fun p hp => Int.le_trans (hbefore p hp) hlo,
    fun p hp => Int.le_trans hhi (hafter p hp)⟩

/-- The tokens before a stretch, in it and behind it. -/
theorem Stretch.getElem?_codePieces {lo hi : Offset} {ps : List Piece} {i : Nat}
    (h : s.Stretch lo hi ps i) {k : Nat} {p : Piece} (hp : s.codePieces[k]? = some p) :
    (k < i ∧ p.stop ≤ lo) ∨
      (i ≤ k ∧ k < i + codeCount ps ∧ (ps.filter (!·.isComment))[k - i]? = some p) ∨
      (i + codeCount ps ≤ k ∧ hi ≤ p.start) := by
  obtain ⟨before, after, heq, rfl, hbefore, hafter⟩ := h
  rw [codePieces, heq, List.filter_append, List.filter_append] at hp
  rw [codeCount_eq_length_filter, codeCount_eq_length_filter]
  rcases Nat.lt_or_ge k (before.filter (!·.isComment)).length with hk | hk
  · rw [List.getElem?_append_left hk] at hp
    exact .inl ⟨hk, hbefore p (List.mem_filter.1 (List.mem_of_getElem? hp)).1⟩
  rw [List.getElem?_append_right hk] at hp
  rcases Nat.lt_or_ge (k - (before.filter (!·.isComment)).length)
    (ps.filter (!·.isComment)).length with hl | hl
  · rw [List.getElem?_append_left hl] at hp
    exact .inr (.inl ⟨hk, by omega, hp⟩)
  · rw [List.getElem?_append_right hl] at hp
    exact .inr (.inr ⟨by omega, hafter p (List.mem_filter.1 (List.mem_of_getElem? hp)).1⟩)

theorem Stretch.le_size {lo hi : Offset} {ps : List Piece} {i : Nat}
    (h : s.Stretch lo hi ps i) : i + codeCount ps ≤ s.tokens.size := by
  obtain ⟨before, after, heq, rfl, -, -⟩ := h
  rw [size_tokens, codePieces, ← codeCount_eq_length_filter, heq]
  simp

/-- A piece of a stretch makes a token of it. -/
theorem Stretch.getElem?_tokens {lo hi : Offset} {ps : List Piece} {i k : Nat} {p : Piece}
    (h : s.Stretch lo hi ps i) (hp : (ps.filter (!·.isComment))[k]? = some p) :
    s.tokens[i + k]? = some (s.buffer.token p (some (i + k))) := by
  have hk : k < codeCount ps := by
    rw [codeCount_eq_length_filter]
    exact (List.getElem?_eq_some_iff.1 hp).1
  have hlt : i + k < s.codePieces.length := by
    rw [← size_tokens]
    exact Nat.lt_of_lt_of_le (by omega) h.le_size
  have hget : s.codePieces[i + k]? = some s.codePieces[i + k] := List.getElem?_eq_getElem hlt
  rw [Source.getElem?_tokens, hget]
  rcases h.getElem?_codePieces hget with h | ⟨-, -, h⟩ | h
  · omega
  · rw [Nat.add_sub_cancel_left, hp] at h
    rw [← Option.some.inj h]
    rfl
  · omega

/-- A node covers the tokens of a stretch that it lies in, if it overlaps every
piece. -/
theorem Stretch.covers {n : Node} {lo hi : Offset} {ps : List Piece} {i : Nat}
    (h : s.Stretch lo hi ps i) (hlo : lo ≤ n.start) (hhi : n.stop ≤ hi)
    (hps : ∀ p ∈ ps, p.start < n.stop ∧ n.start < p.stop) (hpos : 0 < codeCount ps) :
    s.Covers n i (i + codeCount ps) where
  lt := by omega
  le_size := h.le_size
  below hk ht := by
    obtain ⟨p, hp, rfl⟩ := exists_codePiece ht
    rcases h.getElem?_codePieces hp with h | h | h
    · exact Int.le_trans h.2 hlo
    · omega
    · omega
  above hk ht := by
    obtain ⟨p, hp, rfl⟩ := exists_codePiece ht
    rcases h.getElem?_codePieces hp with h | h | h
    · omega
    · omega
    · exact Int.le_trans hhi h.2
  overlap hik hkj ht := by
    obtain ⟨p, hp, rfl⟩ := exists_codePiece ht
    rcases h.getElem?_codePieces hp with h | ⟨-, -, h⟩ | h
    · omega
    · exact hps p (List.mem_filter.1 (List.mem_of_getElem? h)).1
    · omega

/-! ## spans -/

/-- The pieces of a node make the tokens from place `i` to place `j`
(excluded). -/
structure Spans (s : Source) (n : Node) (i j : Nat) : Prop where
  nested : n.Nested
  bracketed : n.Bracketed
  stretch : s.Stretch n.start n.stop (n.pieces s.buffer) i
  stop_eq : j = i + codeCount (n.pieces s.buffer)

theorem Spans.le {n : Node} {i j : Nat} (h : s.Spans n i j) : i ≤ j := by
  rw [h.stop_eq]
  exact Nat.le_add_right _ _

theorem Spans.lt {n : Node} {i j : Nat} (h : s.Spans n i j) (hn : n.HasToken s.buffer) :
    i < j := by
  rw [h.stop_eq]
  exact Nat.lt_add_of_pos_right hn

theorem Spans.covers {n : Node} {i j : Nat} (h : s.Spans n i j) (hn : n.HasToken s.buffer) :
    s.Covers n i j := by
  rw [h.stop_eq]
  refine h.stretch.covers (Int.le_refl _) (Int.le_refl _) (fun p hp => ?_) hn
  have := (Node.pieces_between h.nested h.bracketed).mem hp
  lia

theorem spans_root (hn : s.root.Nested) (hb : s.root.Bracketed) :
    s.Spans s.root 0 s.tokens.size where
  nested := hn
  bracketed := hb
  stretch := ⟨[], [], by simp, rfl, by simp, by simp⟩
  stop_eq := by rw [size_tokens, codePieces, codeCount_eq_length_filter, Nat.zero_add]

/-- Nodes that span adjoining stretches, from one place to another. -/
def SpanRun (s : Source) : List Node → Nat → Nat → Prop
  | [], i, j => i = j
  | n :: rest, i, j => ∃ k, s.Spans n i k ∧ s.SpanRun rest k j

/-- Nodes that span stretches one behind the other, between two places. -/
def SpanChain (s : Source) : List Node → Nat → Nat → Prop
  | [], i, j => i ≤ j
  | n :: rest, i, j => ∃ k l, i ≤ k ∧ s.Spans n k l ∧ s.SpanChain rest l j

theorem SpanChain.le {ns : List Node} {i j : Nat} (h : s.SpanChain ns i j) : i ≤ j := by
  induction ns generalizing i with
  | nil => exact h
  | cons n rest ih =>
    obtain ⟨k, l, hik, hspan, hrest⟩ := h
    exact Nat.le_trans hik (Nat.le_trans hspan.le (ih hrest))

theorem SpanChain.weaken {ns : List Node} {i i' j : Nat} (h : s.SpanChain ns i j)
    (hi : i' ≤ i) : s.SpanChain ns i' j := by
  cases ns with
  | nil => exact Nat.le_trans hi h
  | cons n rest =>
    obtain ⟨k, l, hik, h⟩ := h
    exact ⟨k, l, Nat.le_trans hi hik, h⟩

/-- Any nodes of a run, in their order, make a chain. -/
theorem SpanRun.chain {ns parts : List Node} {i j : Nat} (h : s.SpanRun ns i j)
    (hparts : parts.Sublist ns) : s.SpanChain parts i j := by
  induction hparts generalizing i with
  | slnil => exact Nat.le_of_eq h
  | cons n _ ih =>
    obtain ⟨k, hn, hrest⟩ := h
    exact (ih hrest).weaken hn.le
  | cons_cons n _ ih =>
    obtain ⟨k, hn, hrest⟩ := h
    exact ⟨i, k, Nat.le_refl i, hn, ih hrest⟩

theorem SpanRun.append {xs ys : List Node} {i j : Nat} (h : s.SpanRun (xs ++ ys) i j) :
    ∃ k, s.SpanRun xs i k ∧ s.SpanRun ys k j := by
  induction xs generalizing i with
  | nil => exact ⟨i, rfl, h⟩
  | cons n rest ih =>
    obtain ⟨k, hn, hrest⟩ := h
    obtain ⟨l, hxs, hys⟩ := ih hrest
    exact ⟨l, ⟨k, hn, hxs⟩, hys⟩

theorem SpanRun.mem {ns : List Node} {i j : Nat} (h : s.SpanRun ns i j) {n : Node}
    (hn : n ∈ ns) : ∃ k l, i ≤ k ∧ l ≤ j ∧ s.Spans n k l := by
  obtain ⟨k, l, hik, hspan, hl⟩ := h.chain (List.singleton_sublist.2 hn)
  exact ⟨k, l, hik, hl, hspan⟩

/-- A run ends behind the code tokens of its nodes. -/
theorem SpanRun.stop_eq {ns : List Node} {i j : Nat} (h : s.SpanRun ns i j) :
    j = i + codeCount (ns.flatMap (Node.pieces s.buffer)) := by
  induction ns generalizing i with
  | nil => exact Eq.symm h
  | cons n rest ih =>
    obtain ⟨k, hn, hrest⟩ := h
    rw [ih hrest, hn.stop_eq, List.flatMap_cons, codeCount_append, Nat.add_assoc]

/-- Each place of a run is one of some node. -/
theorem SpanRun.exists_mem {ns : List Node} {i j k : Nat} (h : s.SpanRun ns i j) (hik : i ≤ k)
    (hkj : k < j) : ∃ n ∈ ns, ∃ p q, s.Spans n p q ∧ i ≤ p ∧ p ≤ k ∧ k < q ∧ q ≤ j := by
  induction ns generalizing i with
  | nil =>
    obtain rfl : i = j := h
    omega
  | cons n rest ih =>
    obtain ⟨l, hn, hrest⟩ := h
    have hle := (hrest.chain (List.Sublist.refl _)).le
    rcases Nat.lt_or_ge k l with hkl | hlk
    · exact ⟨n, List.mem_cons_self, i, l, hn, Nat.le_refl i, hik, hkl, hle⟩
    · obtain ⟨m, hm, p, q, hspan, hlp, hpk⟩ := ih hrest hlk
      have := hn.le
      exact ⟨m, List.mem_cons_of_mem n hm, p, q, hspan, by omega, hpk⟩

/-- The tokens that a node spans stand in its range. -/
theorem Spans.range {n : Node} {i j k : Nat} (h : s.Spans n i j) (hik : i ≤ k) (hkj : k < j)
    {t : Token} (ht : s.tokens[k]? = some t) : n.start ≤ t.start ∧ t.stop ≤ n.stop := by
  obtain ⟨p, hp, rfl⟩ := exists_codePiece ht
  have hstop := h.stop_eq
  rcases h.stretch.getElem?_codePieces hp with hcase | ⟨-, -, hcase⟩ | hcase
  · omega
  · have hmem := (List.mem_filter.1 (List.mem_of_getElem? hcase)).1
    obtain ⟨hlo, -, hhi⟩ := (Node.pieces_between h.nested h.bracketed).mem hmem
    exact ⟨hlo, hhi⟩
  · omega

/-- A comment makes no code token. -/
theorem codeCount_of_isComment {b : Buffer} {n : Node} (h : n.isComment = true) :
    codeCount (n.pieces b) = 0 := by
  rw [Node.pieces_eq]
  split
  · rfl
  · rfl

/-- Comments may be left out of a run. -/
theorem SpanRun.filter {ns : List Node} {i j : Nat} (h : s.SpanRun ns i j) :
    s.SpanRun (ns.filter (!·.isComment)) i j := by
  induction ns generalizing i with
  | nil => exact h
  | cons n rest ih =>
    obtain ⟨k, hn, hrest⟩ := h
    cases hcomment : n.isComment with
    | false =>
      rw [List.filter_cons_of_pos (by simp [hcomment])]
      exact ⟨k, hn, ih hrest⟩
    | true =>
      rw [List.filter_cons_of_neg (by simp [hcomment])]
      have heq := hn.stop_eq
      rw [codeCount_of_isComment hcomment, Nat.add_zero] at heq
      exact heq ▸ ih hrest

/-- Nodes in order whose pieces make a stretch span adjoining parts of it. -/
theorem Stretch.run {lo hi : Offset} {ns : List Node} {i : Nat}
    (h : s.Stretch lo hi (ns.flatMap (Node.pieces s.buffer)) i) (ho : Node.InOrder lo hi ns)
    (hns : ∀ n ∈ ns, n.Nested ∧ n.Bracketed) :
    s.SpanRun ns i (i + codeCount (ns.flatMap (Node.pieces s.buffer))) := by
  induction ns generalizing lo i with
  | nil => rfl
  | cons n rest ih =>
    rw [List.flatMap_cons] at h ⊢
    obtain ⟨hn, hb⟩ := hns n List.mem_cons_self
    obtain ⟨hlo, -, hrest⟩ := ho
    have hafter : ∀ m ∈ rest, m.Nested ∧ m.Bracketed :=
      fun m hm => hns m (List.mem_cons_of_mem n hm)
    have hpieces := Node.pieces_between (b := s.buffer) hn hb
    have hbetween : Between n.stop hi (rest.flatMap (Node.pieces s.buffer)) :=
      between_flatMap hrest fun m hm => Node.pieces_between (hafter m hm).1 (hafter m hm).2
    have hspan : s.Spans n i (i + codeCount (n.pieces s.buffer)) :=
      ⟨hn, hb, (h.left hbetween).narrow hlo (Int.le_refl _), rfl⟩
    have hright : s.Stretch n.stop hi (rest.flatMap (Node.pieces s.buffer))
        (i + codeCount (n.pieces s.buffer)) :=
      (h.narrow hlo (Int.le_refl _)).right hpieces
    rw [codeCount_append, ← Nat.add_assoc]
    exact ⟨_, hspan, ih hright hrest hafter⟩

/-- The children of a node that is cut into its children span adjoining parts of
its tokens. -/
theorem Spans.run {n : Node} {i j : Nat} (h : s.Spans n i j) (hn : n.IsCompound)
    (hchildren : n.children ≠ []) : s.SpanRun n.children i j := by
  have hns : ∀ c ∈ n.children, c.Nested ∧ c.Bracketed := fun c hc =>
    ⟨h.nested.of_mem hc, h.bracketed.of_within (.of_mem hc)⟩
  have heq := Node.pieces_eq_flatMap (b := s.buffer) h.nested hn hchildren
  have hstretch := h.stretch
  rw [heq] at hstretch
  rw [h.stop_eq, heq]
  exact hstretch.run h.nested.inOrder hns

/-! ## substitutions -/

/-- The next stretch of literal text reaches up to the rest of the template
literal at least. -/
theorem exists_templatePieces_eq {b : Buffer} (position : Offset) {lo stop : Offset}
    {ns : List Node} (h : Node.InOrder lo stop ns) :
    ∃ p ps, Node.templatePieces b position stop ns = p :: ps ∧ p.kind = .template ∧
      p.start = position ∧ lo ≤ p.stop := by
  induction ns generalizing lo with
  | nil =>
    rw [Node.templatePieces]
    exact ⟨_, _, rfl, rfl, rfl, h⟩
  | cons n rest ih =>
    obtain ⟨hlo, hle, hrest⟩ := h
    rw [Node.templatePieces_cons]
    split
    · exact ⟨_, _, rfl, rfl, rfl, by simp only; lia⟩
    · obtain ⟨p, ps, h₁, h₂, h₃, h₄⟩ := ih hrest
      exact ⟨p, ps, h₁, h₂, h₃, by lia⟩

/-- A substitution covers the tokens from place `i` to place `j` (excluded): the
literal text before it and behind it, and what it puts in between. -/
structure Substitutes (s : Source) (n : Node) (i j : Nat) : Prop where
  nested : n.Nested
  bracketed : n.Bracketed
  kind_eq : n.kind = "template_substitution"
  covers : s.Covers n i j
  stretch :
    s.Stretch (n.start + 2) (n.stop - 1) (Node.substitutedPieces s.buffer n.children) (i + 1)
  stop_eq : j = i + 1 + codeCount (Node.substitutedPieces s.buffer n.children) + 1

/-- The pieces that a bracketed substitution puts in stand between its brackets. -/
theorem substitutedPieces_between {b : Buffer} {n : Node} (h : n.Nested) (hb : n.Bracketed)
    (hkind : n.kind = "template_substitution") :
    n.start + 2 ≤ n.stop - 1 ∧
      Between (n.start + 2) (n.stop - 1) (Node.substitutedPieces b n.children) := by
  obtain ⟨opening, inner, closing, hcs, hok, -, hos, hck, hcstart, -⟩ := hb n (.refl n) hkind
  have hin := Node.IsBracketed.inOrder h hcs hos hcstart
  refine ⟨hin.le, ?_⟩
  rw [Node.IsBracketed.substitutedPieces_eq hcs hok hck]
  refine between_flatMap hin fun m hm => ?_
  have hmem : m ∈ n.children := by simp [hcs, hm]
  rw [Node.substitutedPiece]
  split
  · exact (h.of_mem hmem).le
  · exact Node.pieces_between (h.of_mem hmem) (hb.of_within (.of_mem hmem))

/-- The first substitution of a template literal covers the stretch of literal text before it, what
it puts in, and the stretch of literal text behind it, with which the rest of the literal begins. -/
theorem Stretch.substitutes_cons {position stop : Offset} {n : Node} {ns : List Node} {i : Nat}
    (h : s.Stretch position stop (Node.templatePieces s.buffer position stop (n :: ns)) i)
    (hposition : position ≤ n.start) (hrest : Node.InOrder n.stop stop ns)
    (hns : ∀ m ∈ n :: ns, m.Nested ∧ m.Bracketed) (hkind : n.kind = "template_substitution") :
    ∃ k, s.Substitutes n i (k + 1) ∧
      s.Stretch (n.stop - 1) stop (Node.templatePieces s.buffer (n.stop - 1) stop ns) k ∧
      i + codeCount (Node.templatePieces s.buffer position stop (n :: ns)) =
        k + codeCount (Node.templatePieces s.buffer (n.stop - 1) stop ns) ∧
      k < i + codeCount (Node.templatePieces s.buffer position stop (n :: ns)) := by
  rw [Node.templatePieces_cons, if_pos hkind] at h ⊢
  obtain ⟨hn, hb⟩ := hns n List.mem_cons_self
  have hafter : ∀ m ∈ ns, m.Nested ∧ m.Bracketed := fun m hm => hns m (List.mem_cons_of_mem n hm)
  obtain ⟨hwidth, hinner⟩ := substitutedPieces_between (b := s.buffer) hn hb hkind
  have hlt : n.stop - 1 < stop := by have := hrest.le; lia
  -- the literal text before the substitution, what it puts in, and the rest
  have hhead : Between position (n.start + 2) [⟨.template, position, n.start + 2⟩] :=
    ⟨Int.le_refl _, by lia, Int.le_refl _⟩
  have hcount : codeCount [⟨.template, position, n.start + 2⟩] = 1 := rfl
  have hfront : s.Stretch position stop ([⟨.template, position, n.start + 2⟩] ++ _) i := h
  have hback := hcount ▸ hfront.right hhead
  have hrestpieces : Between (n.stop - 1) stop
      (Node.templatePieces s.buffer (n.stop - 1) stop ns) :=
    Node.templatePieces_between hrest (by lia) hlt fun c hc hck =>
      substitutedPieces_between (hafter c hc).1 (hafter c hc).2 hck
  have hin := hback.left hrestpieces
  have hbehind := hback.right hinner
  -- the rest begins with one piece of literal text
  obtain ⟨p, ps, heq, hpkind, hpstart, hpstop⟩ :=
    exists_templatePieces_eq (b := s.buffer) (n.stop - 1) hrest
  have hpcount : codeCount [p] = 1 := by simp [codeCount, Piece.isComment, hpkind]
  have hsplit : s.Stretch position p.stop
      ([⟨.template, position, n.start + 2⟩]
        ++ (Node.substitutedPieces s.buffer n.children ++ [p])) i := by
    rw [heq] at h hrestpieces
    have hwhole : s.Stretch position stop (([⟨.template, position, n.start + 2⟩]
        ++ (Node.substitutedPieces s.buffer n.children ++ [p])) ++ ps) i := by
      simpa using h
    exact hwhole.left hrestpieces.2.2
  have htotal : codeCount ([⟨.template, position, n.start + 2⟩]
      ++ (Node.substitutedPieces s.buffer n.children ++ [p])) =
        1 + (codeCount (Node.substitutedPieces s.buffer n.children) + 1) := by
    rw [codeCount_append, codeCount_append, hcount, hpcount]
  have hrestcount : 1 ≤ codeCount (Node.templatePieces s.buffer (n.stop - 1) stop ns) := by
    rw [heq, ← List.singleton_append, codeCount_append, hpcount]
    omega
  rw [codeCount_cons, codeCount_append]
  simp only [Piece.isComment, show (TokenKind.template == TokenKind.comment) = false from rfl,
    Bool.false_eq_true, if_false]
  refine ⟨_, ⟨hn, hb, hkind, ?_, hin, rfl⟩, hbehind, by omega, by omega⟩
  have hcovers := hsplit.covers (n := n) (by lia) (by lia) ?_ (by omega)
  · rwa [htotal, ← Nat.add_assoc, ← Nat.add_assoc] at hcovers
  · intro q hq
    simp only [List.singleton_append, List.mem_cons, List.mem_append, List.not_mem_nil,
      or_false] at hq
    rcases hq with rfl | hq | rfl
    · simp only
      lia
    · have := hinner.mem hq
      lia
    · lia

/-- Each substitution of a template literal covers the stretch of literal text
before it, what it puts in, and the stretch of literal text behind it. -/
theorem Stretch.exists_substitutes {position lo stop : Offset} {ns : List Node} {i : Nat}
    (h : s.Stretch position stop (Node.templatePieces s.buffer position stop ns) i)
    (ho : Node.InOrder lo stop ns) (hlo : position ≤ lo)
    (hns : ∀ n ∈ ns, n.Nested ∧ n.Bracketed) {n : Node} (hn : n ∈ ns)
    (hkind : n.kind = "template_substitution") :
    ∃ k l, i ≤ k ∧ l ≤ i + codeCount (Node.templatePieces s.buffer position stop ns) ∧
      s.Substitutes n k l := by
  induction ns generalizing position lo i with
  | nil => simp at hn
  | cons m rest ih =>
    obtain ⟨hmlo, hmle, hrest⟩ := ho
    have hafter : ∀ m' ∈ rest, m'.Nested ∧ m'.Bracketed :=
      fun m' hm' => hns m' (List.mem_cons_of_mem m hm')
    by_cases hm : m.kind = "template_substitution"
    · obtain ⟨k, hsub, hbehind, hcount, hlt⟩ := h.substitutes_cons (by lia) hrest hns hm
      have hik := hsub.covers.lt
      rcases List.mem_cons.1 hn with rfl | hn
      · exact ⟨i, k + 1, Nat.le_refl i, hlt, hsub⟩
      · obtain ⟨a, b, hka, hb, hsub⟩ := ih hbehind hrest (by lia) hafter hn
        exact ⟨a, b, by omega, by omega, hsub⟩
    · rw [Node.templatePieces_cons, if_neg hm] at h ⊢
      rcases List.mem_cons.1 hn with rfl | hn
      · exact absurd hkind hm
      · exact ih h (hrest.weaken (Int.le_trans hmlo hmle)) hlo hafter hn

end Source

end ScriptIndent
