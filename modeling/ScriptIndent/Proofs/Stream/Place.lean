import ScriptIndent.Proofs.Tree.Grammar

/-!
# ScriptIndent.Proofs.Stream.Place

The places of constructs in the stream.

A node *stands* from place `i` to place `j` (excluded) if it spans these tokens and
every construct below it makes a token (`Source.Stands`).  The constructs in a
compound node stand at places of its stretch, and nodes that are listed in turn
stand one behind the other (`Stands.turn`).
-/

namespace ScriptIndent

open Piece

namespace Node

/-! ## compound nodes -/

/-- Comments have no rule. -/
theorem isComment_of_ofKind? {n : Node} {construct : Construct}
    (h : Construct.ofKind? n.kind = some construct) : n.isComment = false := by
  refine Bool.eq_false_iff.2 fun hcomment => ?_
  rw [isComment, isCommentKind, Bool.or_eq_true, beq_iff_eq, beq_iff_eq] at hcomment
  rcases hcomment with hkind | hkind <;> rw [hkind] at h
  · rw [show Construct.ofKind? "comment" = none by decide] at h
    cases h
  · rw [show Construct.ofKind? "html_comment" = none by decide] at h
    cases h

/-- A construct with a rule is visited, and then its children are. -/
theorem visited_of_ofKind? {n : Node} {construct : Construct}
    (h : Construct.ofKind? n.kind = some construct) (ancestors : List Node) :
    n.visited ancestors = ⟨n, ancestors⟩ :: n.namedChildren.flatMap (visited (n :: ancestors)) := by
  rw [visited_eq, isComment_of_ofKind? h, h, visitedAmong_eq]
  rfl

theorem mem_visited_of_ofKind? {n : Node} {construct : Construct}
    (h : Construct.ofKind? n.kind = some construct) (ancestors : List Node) :
    ⟨n, ancestors⟩ ∈ n.visited ancestors := by
  rw [visited_of_ofKind? h]
  exact List.mem_cons_self

/-- What is visited in a child of a construct is visited in the construct. -/
theorem visited_subset_of_mem {n : Node} {construct : Construct}
    (h : Construct.ofKind? n.kind = some construct) (ancestors : List Node) {c : Node}
    (hc : c ∈ n.namedChildren) : c.visited (n :: ancestors) ⊆ n.visited ancestors := by
  intro place hplace
  rw [visited_of_ofKind? h]
  exact List.mem_cons_of_mem _ (List.mem_flatMap.2 ⟨c, hc, hplace⟩)

/-- What is visited in a visited node is visited with it. -/
theorem visited_subset {n : Node} {ancestors : List Node} {place : Placed}
    (h : place ∈ n.visited ancestors) :
    place.node.visited place.ancestors ⊆ n.visited ancestors := by
  refine visited_induct (P := fun p => p.node.visited p.ancestors ⊆ n.visited ancestors)
    (List.Subset.refl _) (fun parent _ hparent hrule c hc => ?_) h
  obtain ⟨construct, hconstruct⟩ := Option.isSome_iff_exists.1 hrule
  exact List.Subset.trans
    (visited_subset_of_mem hconstruct parent.ancestors (List.mem_filter.1 hc).1) hparent

/-- A construct is a string, a regular expression, a template literal, or is cut
into its children. -/
theorem isCompound_or {n : Node} {construct : Construct}
    (h : Construct.ofKind? n.kind = some construct) :
    n.IsCompound ∨ construct = .plain ∧ isAtomicKind n.kind = true ∨
      construct = .templateLiteral ∧ n.kind = "template_string" := by
  by_cases hliteral : isLiteralKind n.kind = true
  · simp only [isLiteralKind, isAtomicKind, Bool.or_eq_true, beq_iff_eq] at hliteral
    rcases hliteral with hkind | hkind | hkind <;> rw [hkind] at h
    · rw [show Construct.ofKind? "template_string" = some .templateLiteral by decide] at h
      exact .inr (.inr ⟨(Option.some.inj h).symm, hkind⟩)
    · rw [show Construct.ofKind? "string" = some .plain by decide] at h
      exact .inr (.inl ⟨(Option.some.inj h).symm, by rw [hkind]; rfl⟩)
    · rw [show Construct.ofKind? "regex" = some .plain by decide] at h
      exact .inr (.inl ⟨(Option.some.inj h).symm, by rw [hkind]; rfl⟩)
  · exact .inl ⟨isComment_of_ofKind? h, Bool.eq_false_iff.2 hliteral⟩

/-- Literals have rules. -/
theorem isLiteralKind_eq_false {kind : String} (h : Construct.ofKind? kind = none) :
    isLiteralKind kind = false := by
  refine Bool.eq_false_iff.2 fun hliteral => ?_
  simp only [isLiteralKind, isAtomicKind, Bool.or_eq_true, beq_iff_eq] at hliteral
  rcases hliteral with rfl | rfl | rfl <;> cases h

theorem isCompound_of_ofKind? {n : Node} {construct : Construct}
    (h : Construct.ofKind? n.kind = some construct) (hplain : construct ≠ .plain)
    (htemplate : construct ≠ .templateLiteral) : n.IsCompound := by
  rcases isCompound_or h with hn | ⟨rfl, -⟩ | ⟨rfl, -⟩
  · exact hn
  · exact absurd rfl hplain
  · exact absurd rfl htemplate

/-! ## constructs that place nothing -/

/-- Nothing is written by visits to such a node. -/
def IsSilent (n : Node) : Prop :=
  Construct.ofKind? n.kind = some .plain ∧ Construct.isStatementKind n.kind = false ∧
    Construct.isExpressionKind n.kind = false

theorem IsLiteralPart.isSilent {n : Node} (h : n.IsLiteralPart)
    (hrule : (Construct.ofKind? n.kind).isSome) : n.IsSilent := by
  rcases h with h | ⟨-, h⟩
  · simp [h] at hrule
  · simp only [List.mem_cons, List.not_mem_nil, or_false] at h
    rcases h with h | h | h | h <;> rw [IsSilent, h] <;> decide

end Node

namespace Source

variable {s : Source}

/-- The token at a place of the stream. -/
abbrev At (s : Source) (i : Nat) (t : Token) : Prop := s.tokens[i]? = some t

/-- A node spans the tokens from place `i` to place `j` (excluded), and every
construct below it makes a token. -/
structure Stands (s : Source) (n : Node) (i j : Nat) : Prop where
  ordered : s.Ordered
  spans : s.Spans n i j
  hasToken : ∀ m : Node, m.Below n → m.IsCode → m.HasToken s.buffer

/-- Nodes that stand one behind the other, between two places. -/
def Turn (s : Source) : List Node → Nat → Nat → Prop
  | [], i, j => i ≤ j
  | n :: rest, i, j => ∃ k l, i ≤ k ∧ s.Stands n k l ∧ s.Turn rest l j

theorem Turn.le {ns : List Node} {i j : Nat} (h : s.Turn ns i j) : i ≤ j := by
  induction ns generalizing i with
  | nil => exact h
  | cons n rest ih =>
    obtain ⟨k, l, hik, hstands, hrest⟩ := h
    exact Nat.le_trans hik (Nat.le_trans hstands.spans.le (ih hrest))

theorem Turn.weaken {ns : List Node} {i i' j : Nat} (h : s.Turn ns i j) (hi : i' ≤ i) :
    s.Turn ns i' j := by
  cases ns with
  | nil => exact Nat.le_trans hi h
  | cons n rest =>
    obtain ⟨k, l, hik, h⟩ := h
    exact ⟨k, l, Nat.le_trans hi hik, h⟩

/-- Nodes in turn stand behind the first of them. -/
theorem Turn.mem {ns : List Node} {i j : Nat} (h : s.Turn ns i j) {n : Node} (hn : n ∈ ns) :
    ∃ k l, i ≤ k ∧ l ≤ j ∧ s.Stands n k l := by
  induction ns generalizing i with
  | nil => simp at hn
  | cons m rest ih =>
    obtain ⟨k, l, hik, hstands, hrest⟩ := h
    have hkl := hstands.spans.le
    rcases List.mem_cons.1 hn with rfl | hn
    · exact ⟨k, l, hik, hrest.le, hstands⟩
    · obtain ⟨a, b, hla, hbj, hstands⟩ := ih hrest hn
      exact ⟨a, b, by omega, hbj, hstands⟩

namespace Stands

variable {n : Node} {i j : Nat}

theorem le (h : s.Stands n i j) : i ≤ j := h.spans.le

theorem le_size (h : s.Stands n i j) : j ≤ s.tokens.size := by
  rw [h.spans.stop_eq]
  exact h.spans.stretch.le_size

theorem covers (h : s.Stands n i j) (hlt : i < j) : s.Covers n i j := by
  refine h.spans.covers ?_
  rw [h.spans.stop_eq] at hlt
  exact Nat.lt_of_add_lt_add_left hlt

theorem ends (h : s.Stands n i j) (hlt : i < j) : s.Ends n i j := (h.covers hlt).ends h.ordered

/-- There is a token at every place of the stretch. -/
theorem exists_at (h : s.Stands n i j) {k : Nat} (hk : k < j) : ∃ t, s.At k t :=
  ⟨_, Array.getElem?_eq_getElem (Nat.lt_of_lt_of_le hk h.le_size)⟩

theorem of_spans (h : s.Stands n i j) {c : Node} (hc : c ∈ n.children) {k l : Nat}
    (hspans : s.Spans c k l) : s.Stands c k l :=
  ⟨h.ordered, hspans, fun m hm => h.hasToken m ⟨c, hc, hm.within⟩⟩

/-- A construct among the children has a first token. -/
theorem lt_of_mem (h : s.Stands n i j) {c : Node} (hc : c ∈ n.codeChildren) {k l : Nat}
    (hstands : s.Stands c k l) : k < l := by
  obtain ⟨hmem, hcode⟩ := Node.mem_codeChildren.1 hc
  exact hstands.spans.lt (h.hasToken c (.of_mem hmem) hcode)

/-- A construct in a compound node stands in the node's stretch. -/
theorem child (h : s.Stands n i j) (hn : n.IsCompound) {c : Node} (hc : c ∈ n.codeChildren) :
    ∃ k l, i ≤ k ∧ k < l ∧ l ≤ j ∧ s.Stands c k l := by
  have hmem := (Node.mem_codeChildren.1 hc).1
  obtain ⟨k, l, hik, hlj, hspans⟩ :=
    (h.spans.run hn (List.ne_nil_of_mem hmem)).mem hmem
  have hstands := h.of_spans hmem hspans
  exact ⟨k, l, hik, h.lt_of_mem hc hstands, hlj, hstands⟩

/-! ## nodes in turn -/

theorem turn_of_chain (h : s.Stands n i j) {parts : List Node} {k l : Nat}
    (hchain : s.SpanChain parts k l) (hmem : ∀ c ∈ parts, c ∈ n.children) :
    s.Turn parts k l := by
  induction parts generalizing k with
  | nil => exact hchain
  | cons c rest ih =>
    obtain ⟨a, b, hka, hspans, hrest⟩ := hchain
    exact ⟨a, b, hka, h.of_spans (hmem c List.mem_cons_self) hspans,
      ih hrest fun m hm => hmem m (List.mem_cons_of_mem c hm)⟩

/-- Nodes that are listed in turn stand one behind the other. -/
theorem turn (h : s.Stands n i j) (hn : n.IsCompound) {parts : List Node}
    (hparts : n.InTurn parts) : s.Turn parts i j := by
  by_cases hchildren : n.children = []
  · rw [Node.InTurn, hchildren, List.sublist_nil] at hparts
    subst hparts
    exact h.le
  exact h.turn_of_chain ((h.spans.run hn hchildren).chain hparts) fun c hc => hparts.subset hc

/-- The children without the comments stand directly one behind the other. -/
theorem run_parts (h : s.Stands n i j) (hn : n.IsCompound) (hchildren : n.children ≠ []) :
    s.SpanRun n.parts i j := (h.spans.run hn hchildren).filter

/-- A node of one piece of code stands at one place. -/
theorem at_of_pieces (h : s.Stands n i j) {p : Piece} (hpieces : n.pieces s.buffer = [p])
    (hcode : p.isComment = false) : j = i + 1 ∧ s.At i (s.buffer.token p (some i)) := by
  have hstretch := h.spans.stretch
  have hstop := h.spans.stop_eq
  rw [hpieces] at hstretch hstop
  refine ⟨?_, hstretch.getElem?_tokens (k := 0) (by simp [hcode])⟩
  rw [hstop, codeCount_cons, hcode]
  rfl

/-- What an anonymous leaf spells stands at one place. -/
theorem spells (h : s.Stands n i j) {value : String} (hn : n.Spells s.buffer value)
    (hvalue : Node.IsSpelling value) :
    j = i + 1 ∧ ∃ t, s.At i t ∧ t.value = value ∧ t.kind = .ofLeaf value false value := by
  obtain ⟨hj, hget⟩ := h.at_of_pieces (hn.pieces_eq hvalue)
    (Node.ofLeaf_isComment hvalue.1 false value n.start n.stop)
  exact ⟨hj, _, hget, hn.text_eq, rfl⟩

/-- A leaf, or a literal, stands at one place. -/
theorem leaf (h : s.Stands n i j) (hij : i < j) (hkind : Node.IsSpelling n.kind)
    (hleaf : (Node.isAtomicKind n.kind || n.children.isEmpty) = true) :
    j = i + 1 ∧ ∃ t, s.At i t ∧ t.kind = .ofLeaf n.kind n.isNamed t.value := by
  have hne : n.start ≠ n.stop := by
    intro hempty
    have hstop := h.spans.stop_eq
    rw [Node.pieces_eq, if_pos hempty, codeCount_nil] at hstop
    omega
  have hpieces : n.pieces s.buffer =
      [⟨.ofLeaf n.kind n.isNamed (s.buffer.text n.start n.stop), n.start, n.stop⟩] := by
    rw [Node.pieces_eq, if_neg hne, if_neg (by simp [Node.isComment, hkind.1]), if_neg hkind.2,
      if_pos hleaf]
  obtain ⟨hj, hat⟩ := h.at_of_pieces hpieces (Node.ofLeaf_isComment hkind.1 _ _ _ _)
  exact ⟨hj, _, hat, rfl⟩

/-- A list or a block begins and ends with its delimiters, and its elements stand
between them. -/
theorem enclosed (h : s.Stands n i j) {left right : String}
    (hn : n.Enclosed s.buffer left right) (hleft : Node.IsSpelling left)
    (hright : Node.IsSpelling right) :
    i + 2 ≤ j ∧
      (∃ t, s.At i t ∧ t.value = left ∧ t.kind = .ofLeaf left false left) ∧
      (∃ t, s.At (j - 1) t ∧ t.value = right ∧ t.kind = .ofLeaf right false right) ∧
      ∀ c ∈ n.codeChildren, ∃ k l, i < k ∧ k < l ∧ l < j ∧ s.Stands c k l := by
  obtain ⟨hcompound, opening, inner, closing, hcs, hopening, hclosing⟩ := hn
  have hrun := h.spans.run hcompound (by simp [hcs])
  rw [hcs] at hrun
  obtain ⟨k, hkspans, hrun⟩ := hrun
  obtain ⟨l, hinner, m, hlspans, rfl⟩ := hrun.append
  have hopens := h.of_spans (by simp [hcs]) hkspans
  have hcloses := h.of_spans (by simp [hcs]) hlspans
  obtain ⟨rfl, t, ht⟩ := hopens.spells hopening hleft
  obtain ⟨rfl, u, hu⟩ := hcloses.spells hclosing hright
  have hle := (hinner.chain (List.Sublist.refl _)).le
  refine ⟨by omega, ⟨t, ht⟩, ⟨u, hu⟩, fun c hc => ?_⟩
  obtain ⟨hmem, hcode⟩ := Node.mem_codeChildren.1 hc
  have hne : ∀ d : Node, d.isNamed = false → c ≠ d := by
    rintro d hd rfl
    rw [hcode.1] at hd
    simp at hd
  have hcinner : c ∈ inner := by
    rw [hcs] at hmem
    simpa [hne opening hopening.anonymous, hne closing hclosing.anonymous] using hmem
  obtain ⟨a, b, hia, hbl, hspans⟩ := hinner.mem hcinner
  have hstands := h.of_spans hmem hspans
  exact ⟨a, b, by omega, h.lt_of_mem hc hstands, by omega, hstands⟩

/-- The first two tokens of a node with at least two. -/
theorem exists_firsts (h : s.Stands n i j) (hlt : i + 1 < j) :
    ∃ t u, s.At i t ∧ s.At (i + 1) u ∧ s.firsts n 2 = [t, u] := by
  obtain ⟨t, ht⟩ := h.exists_at (k := i) (by omega)
  obtain ⟨u, hu⟩ := h.exists_at (k := i + 1) hlt
  refine ⟨t, u, ht, hu, ?_⟩
  obtain ⟨hi, rfl⟩ := Array.getElem?_eq_some_iff.1 ht
  obtain ⟨hj, rfl⟩ := Array.getElem?_eq_some_iff.1 hu
  rw [(h.covers (by omega)).firsts_eq h.ordered, Nat.min_eq_left hlt, Array.toList_extract,
    List.extract_eq_take_drop, show (i + 1).succ - i = 2 by omega,
    List.drop_eq_getElem_cons (by simpa using hi), List.drop_eq_getElem_cons (by simpa using hj)]
  simp

/-- The first token of a node tells how it begins. -/
theorem begins (h : s.Stands n i j) (hlt : i < j) {t : Token} (ht : s.At i t) :
    n.Begins s.buffer t.value := by
  have hlen := h.spans.stop_eq
  rw [codeCount_eq_length_filter] at hlen
  cases hps : (n.pieces s.buffer).filter (!·.isComment) with
  | nil =>
    rw [hps, List.length_nil] at hlen
    omega
  | cons p ps =>
    have hget := h.spans.stretch.getElem?_tokens (k := 0) (p := p) (by rw [hps]; rfl)
    refine ⟨p, ps, hps, ?_⟩
    rw [Option.mem_unique ht hget]
    rfl

/-- A node stands at one place only. -/
theorem unique (h : s.Stands n i j) (hlt : i < j) {k l : Nat} (h' : s.Stands n k l) :
    k = i ∧ l = j := by
  have hlen := h.spans.stop_eq
  have hlen' := h'.spans.stop_eq
  have hlt' : k < l := by omega
  obtain ⟨t, ht, hfirst⟩ := (h.ends hlt).exists_first?
  have hk := ((h'.ends hlt').first?_eq.symm.trans hfirst)
  have := eq_of_getElem? hk ht
  omega

/-- Children in turn do not begin before the first of them. -/
theorem start_le_of_head? (h : s.Stands n i j) (hn : n.IsCompound) {cs : List Node}
    (hturn : n.InTurn cs) {head : Node} (hhead : cs.head? = some head) {a b : Nat}
    (hstands : s.Stands head a b) (hab : a < b) {c : Node} (hc : c ∈ cs) {e f : Nat}
    (hcs : s.Stands c e f) (hef : e < f) : a ≤ e := by
  obtain ⟨rest, rfl⟩ := List.head?_eq_some_iff.1 hhead
  obtain ⟨a', b', -, hstands', hchain⟩ := h.turn hn hturn
  obtain ⟨rfl, rfl⟩ := hstands.unique hab hstands'
  rcases List.mem_cons.1 hc with rfl | hc
  · exact Nat.le_of_eq (hstands.unique hab hcs).1.symm
  · obtain ⟨e', f', hbe, -, hcs'⟩ := hchain.mem hc
    obtain ⟨rfl, rfl⟩ := hcs.unique hef hcs'
    omega

/-- A node with tokens stands in the stretch of any node around it. -/
theorem le_of_within {m : Node} {k l : Nat} (h : s.Stands n i j) (hm : s.Stands m k l)
    (hlt : k < l) (hwithin : m.Within n) : i ≤ k ∧ l ≤ j := by
  obtain ⟨hstart, -, hstop⟩ := h.spans.nested.range_within hwithin
  have hbetween {a : Nat} {t : Token} (hka : k ≤ a) (hal : a < l) (ht : s.At a t) :
      i ≤ a ∧ a < j := by
    obtain ⟨h₁, h₂⟩ := (hm.covers hlt).overlap hka hal ht
    obtain ⟨p, hp, rfl⟩ := exists_codePiece ht
    have hcases := h.spans.stretch.getElem?_codePieces hp
    rw [← h.spans.stop_eq] at hcases
    simp only [Buffer.token] at h₁ h₂
    rcases hcases with h | h | h
    · lia
    · exact ⟨h.1, h.2.1⟩
    · lia
  obtain ⟨t, ht⟩ := hm.exists_at hlt
  obtain ⟨u, hu⟩ := hm.exists_at (k := l - 1) (by omega)
  have h₁ := hbetween (Nat.le_refl k) hlt ht
  have h₂ := hbetween (by omega) (by omega) hu
  omega

end Stands

/-! ## visited nodes -/

/-- A visited node of a grammatical tree stands at a place, substitutes, or is a
part of a literal. -/
inductive Found (s : Source) (n : Node) : Prop
  | stands {i j : Nat} (h : s.Stands n i j)
  | substitutes {i j : Nat} (h : s.Substitutes n i j)
  | part (h : n.IsLiteralPart)

theorem Substitutes.isSilent {n : Node} {i j : Nat} (h : s.Substitutes n i j) : n.IsSilent := by
  rw [Node.IsSilent, h.kind_eq]
  decide

/-- A construct stands at a place, unless visits to it write nothing. -/
theorem Found.stands_or_isSilent {n : Node} (h : s.Found n)
    (hrule : (Construct.ofKind? n.kind).isSome) : (∃ i j, s.Stands n i j) ∨ n.IsSilent := by
  cases h with
  | stands h => exact .inl ⟨_, _, h⟩
  | substitutes h => exact .inr h.isSilent
  | part h => exact .inr (h.isSilent hrule)

/-- Kinds of what may stand for no tokens of its own: parts of literals. -/
def literalPartKinds : List String :=
  ["template_substitution", "string_fragment", "escape_sequence", "regex_pattern", "regex_flags"]

/-- A construct stands at a place, unless it is a part of a literal. -/
theorem Found.exists_stands_of_kind {n : Node} (h : s.Found n)
    (hrule : (Construct.ofKind? n.kind).isSome) (hkind : n.kind ∉ literalPartKinds) :
    ∃ i j, s.Stands n i j := by
  cases h with
  | stands h => exact ⟨_, _, h⟩
  | substitutes h => exact absurd (by simp [literalPartKinds, h.kind_eq]) hkind
  | part h =>
    rcases h with h | ⟨-, h⟩
    · simp [h] at hrule
    · exact absurd (List.mem_cons_of_mem _ h) hkind

/-- A construct with a rule of its own stands at a place. -/
theorem Found.exists_stands {n : Node} (h : s.Found n) {construct : Construct}
    (hrule : Construct.ofKind? n.kind = some construct) (hplain : construct ≠ .plain) :
    ∃ i j, s.Stands n i j := by
  have hall : ∀ kind ∈ literalPartKinds, Construct.ofKind? kind = some .plain := by decide
  refine h.exists_stands_of_kind (by simp [hrule]) fun hkind => hplain ?_
  exact Option.mem_unique hrule (hall _ hkind)

/-- Nodes in order whose pieces make a stretch have stretches of their own. -/
theorem Stretch.of_mem {lo hi : Offset} {ns : List Node} {f : Node → List Piece} {i : Nat}
    (h : s.Stretch lo hi (ns.flatMap f) i) (ho : Node.InOrder lo hi ns)
    (hf : ∀ n ∈ ns, Between n.start n.stop (f n)) {n : Node} (hn : n ∈ ns) :
    ∃ k, i ≤ k ∧ k + codeCount (f n) ≤ i + codeCount (ns.flatMap f) ∧
      s.Stretch n.start n.stop (f n) k := by
  induction ns generalizing lo i with
  | nil => simp at hn
  | cons m rest ih =>
    rw [List.flatMap_cons] at h ⊢
    obtain ⟨hlo, -, hrest⟩ := ho
    have hafter := fun c hc => hf c (List.mem_cons_of_mem m hc)
    have h := h.narrow hlo (Int.le_refl _)
    rw [codeCount_append]
    rcases List.mem_cons.1 hn with rfl | hn
    · exact ⟨i, Nat.le_refl i, by omega, h.left (between_flatMap hrest hafter)⟩
    · obtain ⟨k, hk, hle, hstretch⟩ :=
        ih (h.right (hf m List.mem_cons_self)) hrest hafter hn
      exact ⟨k, by omega, by omega, hstretch⟩

/-- What a substitution puts in stands at a place, the brackets apart. -/
theorem Substitutes.child {n : Node} {i j : Nat} (h : s.Substitutes n i j) (ho : s.Ordered)
    (hasToken : ∀ m : Node, m.Below n → m.IsCode → m.HasToken s.buffer) {c : Node}
    (hc : c ∈ n.children) (hkind : Node.isSubstitutionBracket c.kind = false) :
    ∃ k l, i < k ∧ l < j ∧ s.Stands c k l := by
  obtain ⟨opening, inner, closing, hcs, hok, -, hos, hck, hcstart, -⟩ :=
    h.bracketed n (.refl n) h.kind_eq
  have hin := Node.IsBracketed.inOrder h.nested hcs hos hcstart
  have hbracket : ∀ d : Node, Node.isSubstitutionBracket d.kind = true → c ≠ d := by
    rintro d hd rfl
    rw [hkind] at hd
    simp at hd
  have hcinner : c ∈ inner := by
    rw [hcs] at hc
    simpa [hbracket opening (by rw [hok]; decide), hbracket closing (by rw [hck]; decide)] using hc
  have hstretch := h.stretch
  have hstop := h.stop_eq
  rw [Node.IsBracketed.substitutedPieces_eq hcs hok hck] at hstretch hstop
  have hpieces : ∀ m ∈ inner, Between m.start m.stop (Node.substitutedPiece s.buffer m) := by
    intro m hm
    have hmem : m ∈ n.children := by simp [hcs, hm]
    rw [Node.substitutedPiece]
    split
    · exact (h.nested.of_mem hmem).le
    · exact Node.pieces_between (h.nested.of_mem hmem) (h.bracketed.of_within (.of_mem hmem))
  obtain ⟨k, hk, hle, hspan⟩ := hstretch.of_mem hin hpieces hcinner
  rw [Node.substitutedPiece, hkind] at hspan hle
  exact ⟨k, k + codeCount (c.pieces s.buffer), by omega, by simp at hle; omega, ho,
    ⟨h.nested.of_mem hc, h.bracketed.of_within (.of_mem hc), hspan, rfl⟩,
    fun m hm => hasToken m ⟨c, hc, hm.within⟩⟩

/-- The root of a grammatical tree stands at the tokens of the source. -/
theorem stands_root (g : s.root.Grammatical s.buffer) :
    s.Stands s.root 0 s.tokens.size :=
  ⟨ordered_of_nested g.nested g.bracketed, spans_root g.nested g.bracketed, g.hasToken⟩

/-- A visited node of a grammatical tree has the shape of its construct. -/
theorem shape_of_visited (g : s.root.Grammatical s.buffer) {place : Node.Placed}
    (h : place ∈ s.root.visited []) {construct : Construct}
    (hrule : Construct.ofKind? place.node.kind = some construct) :
    place.node.Shape s.buffer construct := by
  refine g.shape place.node (Node.within_of_mem_visited h) ?_ construct hrule
  rcases Node.mem_visited h with rfl | ⟨parent, -, -, hmem, -⟩
  · exact .inl rfl
  · exact .inr (Node.mem_codeChildren.1 hmem).2.1

/-- Substitutions in a template literal stand in its stretch. -/
theorem Stands.exists_substitutes {n c : Node} {i j : Nat} (h : s.Stands n i j)
    (hkind : n.kind = "template_string") (hc : c ∈ n.children)
    (hsub : c.kind = "template_substitution") :
    ∃ k l, i ≤ k ∧ l ≤ j ∧ s.Substitutes c k l := by
  obtain ⟨hn, hb⟩ : n.Nested ∧ n.Bracketed := ⟨h.spans.nested, h.spans.bracketed⟩
  have hwidth := (substitutedPieces_between (b := s.buffer) (hn.of_mem hc)
    (hb.of_within (.of_mem hc)) hsub).1
  have hrange := hn.range_within (.of_mem hc)
  have hpieces : n.pieces s.buffer =
      Node.templatePieces s.buffer n.start n.stop n.children := by
    rw [Node.pieces_eq, if_neg (by lia), Node.isComment, hkind, if_neg (by decide), if_pos rfl]
  have hstretch := h.spans.stretch
  have hstop := h.spans.stop_eq
  rw [hpieces] at hstretch hstop
  obtain ⟨k, l, hik, hlj, hsub⟩ := hstretch.exists_substitutes hn.inOrder (Int.le_refl _)
    (fun m hm => ⟨hn.of_mem hm, hb.of_within (.of_mem hm)⟩) hc hsub
  exact ⟨k, l, hik, by omega, hsub⟩

/-- A construct in one that has a rule and stands at a place does so, too, unless that one is a
literal: then it is a substitution, or a part. -/
theorem Stands.found_child {n c : Node} {i j : Nat} (h : s.Stands n i j) {construct : Construct}
    (hrule : Construct.ofKind? n.kind = some construct) (hshape : n.Shape s.buffer construct)
    (hc : c ∈ n.codeChildren) :
    (∃ k l, s.Stands c k l) ∨ (∃ k l, s.Substitutes c k l) ∨
      Node.isLiteralKind n.kind = true ∧ c.IsLiteralPart := by
  rcases Node.isCompound_or hrule with hn | ⟨rfl, hatomic⟩ | ⟨rfl, htemplate⟩
  · obtain ⟨k, l, -, -, -, hchild⟩ := h.child hn hc
    exact .inl ⟨k, l, hchild⟩
  · exact .inr (.inr ⟨by simp [Node.isLiteralKind, hatomic], hshape hatomic c hc⟩)
  · rcases hshape.2 c hc with hsub | hpart
    · obtain ⟨k, l, -, -, hsub⟩ :=
        h.exists_substitutes htemplate (Node.mem_codeChildren.1 hc).1 hsub
      exact .inr (.inl ⟨k, l, hsub⟩)
    · exact .inr (.inr ⟨by simp [Node.isLiteralKind, htemplate], hpart⟩)

/-- What a substitution in a grammatical tree puts in stands at a place, and its brackets have no
rule. -/
theorem Substitutes.found_child {n c : Node} {i j : Nat} (h : s.Substitutes n i j)
    (g : s.root.Grammatical s.buffer) (hn : n.Within s.root) (hc : c ∈ n.children) :
    (∃ k l, s.Stands c k l) ∨
      Node.isSubstitutionBracket c.kind = true ∧ Construct.ofKind? c.kind = none := by
  by_cases hbracket : Node.isSubstitutionBracket c.kind = true
  · refine .inr ⟨hbracket, ?_⟩
    rw [Node.isSubstitutionBracket, Bool.or_eq_true, beq_iff_eq, beq_iff_eq] at hbracket
    rcases hbracket with hkind | hkind <;> rw [hkind] <;> decide
  · have htokens : ∀ m : Node, m.Below n → m.IsCode → m.HasToken s.buffer := by
      rintro m ⟨d, hd, hm⟩
      exact g.hasToken m (hm.trans_below (hn.below_of_mem hd))
    obtain ⟨k, l, -, -, hchild⟩ := h.child (ordered_of_nested g.nested g.bracketed) htokens hc
      (Bool.eq_false_iff.2 hbracket)
    exact .inl ⟨k, l, hchild⟩

/-- Every visited node of a grammatical tree is found in the stream. -/
theorem found_of_visited (g : s.root.Grammatical s.buffer) {place : Node.Placed}
    (h : place ∈ s.root.visited []) : s.Found place.node := by
  refine Node.visited_induct (P := fun p => s.Found p.node) (.stands (stands_root g)) ?_ h
  intro parent hparent hfound hrule c hc
  obtain ⟨construct, hconstruct⟩ := Option.isSome_iff_exists.1 hrule
  have hshape := shape_of_visited g hparent hconstruct
  have hmem := (Node.mem_codeChildren.1 hc).1
  cases hfound with
  | stands hstands =>
    rcases hstands.found_child hconstruct hshape hc with ⟨k, l, h⟩ | ⟨k, l, h⟩ | ⟨-, h⟩
    · exact .stands h
    · exact .substitutes h
    · exact .part h
  | substitutes hsub =>
    rcases hsub.found_child g (Node.within_of_mem_visited hparent) hmem with ⟨k, l, h⟩ | ⟨-, h⟩
    · exact .stands h
    · exact .part (.inl h)
  | part hpart =>
    rcases hpart with hnone | ⟨hleaf, -⟩
    · rw [hnone] at hconstruct
      cases hconstruct
    · rw [hleaf] at hmem
      simp at hmem

end Source

end ScriptIndent
