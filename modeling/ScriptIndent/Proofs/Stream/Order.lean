import ScriptIndent.Proofs.Tree.Nested

/-!
# ScriptIndent.Proofs.Stream.Order

The pieces of a nested tree stand in the text in order.

A tree is *bracketed* if every substitution in it opens with two bytes and
closes with one, so that the stretches of literal text around it do not overlap
what it puts in.  The pieces of a nested, bracketed tree are not empty, in order
and disjoint (`pieces_between`), and so are the code tokens of a source over
such a tree (`Source.ordered_of_nested`).
-/

namespace ScriptIndent

namespace Piece

/-- Pieces in order and disjoint, none of them empty, between two offsets. -/
def Between (lo hi : Offset) : List Piece → Prop
  | [] => lo ≤ hi
  | p :: rest => lo ≤ p.start ∧ p.start < p.stop ∧ Between p.stop hi rest

theorem Between.le {lo hi : Offset} {ps : List Piece} (h : Between lo hi ps) : lo ≤ hi := by
  induction ps generalizing lo with
  | nil => exact h
  | cons p rest ih => exact Int.le_trans h.1 (Int.le_trans (Int.le_of_lt h.2.1) (ih h.2.2))

theorem Between.append {lo mid hi : Offset} {ps qs : List Piece} (hp : Between lo mid ps)
    (hq : Between mid hi qs) : Between lo hi (ps ++ qs) := by
  induction ps generalizing lo with
  | nil =>
    cases qs with
    | nil => exact Int.le_trans hp hq
    | cons q rest => exact ⟨Int.le_trans hp hq.1, hq.2⟩
  | cons p rest ih => exact ⟨hp.1, hp.2.1, ih hp.2.2⟩

theorem Between.mem {lo hi : Offset} {ps : List Piece} (h : Between lo hi ps) {p : Piece}
    (hp : p ∈ ps) : lo ≤ p.start ∧ p.start < p.stop ∧ p.stop ≤ hi := by
  induction ps generalizing lo with
  | nil => simp at hp
  | cons q rest ih =>
    obtain ⟨hlo, hlt, hrest⟩ := h
    rcases List.mem_cons.1 hp with rfl | hp
    · exact ⟨hlo, hlt, hrest.le⟩
    · obtain ⟨h₁, h₂⟩ := ih hrest hp
      exact ⟨Int.le_trans hlo (Int.le_trans (Int.le_of_lt hlt) h₁), h₂⟩

theorem Between.pairwise {lo hi : Offset} {ps : List Piece} (h : Between lo hi ps) :
    ps.Pairwise fun p q => p.stop ≤ q.start := by
  induction ps generalizing lo with
  | nil => exact .nil
  | cons p rest ih => exact .cons (fun q hq => (h.2.2.mem hq).1) (ih h.2.2)

/-- The pieces of nodes in order stand in order, if those of each node stand in
its range. -/
theorem between_flatMap {lo hi : Offset} {ns : List Node} {f : Node → List Piece}
    (h : Node.InOrder lo hi ns) (hf : ∀ n ∈ ns, Between n.start n.stop (f n)) :
    Between lo hi (ns.flatMap f) := by
  induction ns generalizing lo with
  | nil => exact h
  | cons n rest ih =>
    rw [List.flatMap_cons]
    have hn := hf n List.mem_cons_self
    have hrest := ih h.2.2 fun m hm => hf m (List.mem_cons_of_mem n hm)
    have hlo : Between lo n.start [] := h.1
    exact (hlo.append hn).append hrest

end Piece

namespace Node

/-! ## the pieces of lists of nodes -/

theorem piecesOfAll_eq (b : Buffer) (ns : List Node) :
    piecesOfAll b ns = ns.flatMap (pieces b) := by
  induction ns with
  | nil => rfl
  | cons n rest ih => rw [piecesOfAll, ih, List.flatMap_cons]

/-- The pieces of a node in a substitution: its brackets have none of their
own. -/
def substitutedPiece (b : Buffer) (n : Node) : List Piece :=
  if isSubstitutionBracket n.kind then [] else n.pieces b

theorem substitutedPieces_eq (b : Buffer) (ns : List Node) :
    substitutedPieces b ns = ns.flatMap (substitutedPiece b) := by
  induction ns with
  | nil => rfl
  | cons n rest ih => rw [substitutedPieces, ih, List.flatMap_cons, substitutedPiece]

theorem templatePieces_cons (b : Buffer) (position stop : Offset) (n : Node)
    (rest : List Node) :
    templatePieces b position stop (n :: rest) =
      if n.kind = "template_substitution" then
        ⟨.template, position, n.start + 2⟩
          :: (substitutedPieces b n.children ++ templatePieces b (n.stop - 1) stop rest)
      else templatePieces b position stop rest := by
  obtain ⟨kind, isNamed, isMissing, hasError, fields, start, stop', inner⟩ := n
  rw [templatePieces]
  simp only [beq_iff_eq]

/-- The node is one token, or is cut at its substitutions, rather than being cut
into its children. -/
def isLiteralKind (kind : String) : Bool :=
  kind == "template_string" || isAtomicKind kind

theorem pieces_eq (b : Buffer) (n : Node) :
    n.pieces b =
      if n.start = n.stop then []
      else if n.isComment then [⟨.comment, n.start, n.stop⟩]
      else if n.kind = "template_string" then templatePieces b n.start n.stop n.children
      else if isAtomicKind n.kind || n.children.isEmpty then
        [⟨.ofLeaf n.kind n.isNamed (b.text n.start n.stop), n.start, n.stop⟩]
      else n.children.flatMap (pieces b) := by
  obtain ⟨kind, isNamed, isMissing, hasError, fields, start, stop, children⟩ := n
  rw [pieces, piecesOfAll_eq]
  simp only [isComment, beq_iff_eq]

/-! ## order -/

/-- A substitution opens with two bytes and closes with one. -/
def IsBracketed (n : Node) : Prop :=
  ∃ opening inner closing, n.children = opening :: (inner ++ [closing]) ∧
    opening.kind = "$\x7b" ∧ opening.start = n.start ∧ opening.stop = n.start + 2 ∧
    closing.kind = "\x7d" ∧ closing.start = n.stop - 1 ∧ closing.stop = n.stop

/-- Every substitution of the tree has its brackets. -/
def Bracketed (n : Node) : Prop :=
  ∀ m : Node, m.Within n → m.kind = "template_substitution" → m.IsBracketed

theorem Bracketed.of_within {m n : Node} (h : n.Bracketed) (hm : m.Within n) : m.Bracketed :=
  fun k hk => h k (hk.trans hm)

theorem InOrder.append {lo hi : Offset} {xs ys : List Node} (h : InOrder lo hi (xs ++ ys)) :
    ∃ mid, InOrder lo mid xs ∧ InOrder mid hi ys := by
  induction xs generalizing lo with
  | nil => exact ⟨lo, Int.le_refl lo, h⟩
  | cons n rest ih =>
    obtain ⟨mid, h₁, h₂⟩ := ih h.2.2
    exact ⟨mid, ⟨h.1, h.2.1, h₁⟩, h₂⟩

theorem InOrder.concat {lo mid hi : Offset} {xs ys : List Node} (hx : InOrder lo mid xs)
    (hy : InOrder mid hi ys) : InOrder lo hi (xs ++ ys) := by
  induction xs generalizing lo with
  | nil => exact hy.weaken hx
  | cons n rest ih => exact ⟨hx.1, hx.2.1, ih hx.2.2⟩

theorem InOrder.extend {lo hi hi' : Offset} {ns : List Node} (h : InOrder lo hi ns)
    (hhi : hi ≤ hi') : InOrder lo hi' ns := by
  induction ns generalizing lo with
  | nil => exact Int.le_trans h hhi
  | cons n rest ih => exact ⟨h.1, h.2.1, ih h.2.2⟩

/-- What a substitution puts in stands between its brackets. -/
theorem IsBracketed.inOrder {n : Node} {opening closing : Node} {inner : List Node}
    (h : n.Nested) (hn : n.children = opening :: (inner ++ [closing]))
    (hopening : opening.stop = n.start + 2) (hclosing : closing.start = n.stop - 1) :
    InOrder (n.start + 2) (n.stop - 1) inner := by
  have hall := h.inOrder
  rw [hn] at hall
  obtain ⟨mid, hinner, hmid, -⟩ := InOrder.append hall.2.2
  rw [hopening] at hinner
  exact hinner.extend (hclosing ▸ hmid)

theorem isSubstitutionBracket_opening : isSubstitutionBracket "$\x7b" = true := by decide

theorem isSubstitutionBracket_closing : isSubstitutionBracket "\x7d" = true := by decide

/-- The pieces that a substitution puts in are those of the nodes between its
brackets. -/
theorem IsBracketed.substitutedPieces_eq {b : Buffer} {n opening closing : Node}
    {inner : List Node} (hn : n.children = opening :: (inner ++ [closing]))
    (hopening : opening.kind = "$\x7b") (hclosing : closing.kind = "\x7d") :
    substitutedPieces b n.children = inner.flatMap (substitutedPiece b) := by
  rw [Node.substitutedPieces_eq, hn]
  simp [substitutedPiece, hopening, hclosing, isSubstitutionBracket_opening,
    isSubstitutionBracket_closing]

/-- The pieces of the rest of a template literal stand in order, if those of what
its substitutions put in do. -/
theorem templatePieces_between {b : Buffer} {position lo stop : Offset} {ns : List Node}
    (h : InOrder lo stop ns) (hposition : position ≤ lo) (hstop : position < stop)
    (hsub : ∀ n ∈ ns, n.kind = "template_substitution" →
      n.start + 2 ≤ n.stop - 1 ∧
        Piece.Between (n.start + 2) (n.stop - 1) (substitutedPieces b n.children)) :
    Piece.Between position stop (templatePieces b position stop ns) := by
  induction ns generalizing position lo with
  | nil =>
    rw [templatePieces]
    exact ⟨Int.le_refl _, hstop, Int.le_refl _⟩
  | cons n rest ih =>
    rw [templatePieces_cons]
    have hrest := fun m hm => hsub m (List.mem_cons_of_mem n hm)
    obtain ⟨hlo, hle, hin⟩ := h
    by_cases hkind : n.kind = "template_substitution"
    · rw [if_pos hkind]
      obtain ⟨hwidth, hinner⟩ := hsub n List.mem_cons_self hkind
      have hlt : n.stop - 1 < stop := by have := hin.le; lia
      have hafter := ih hin (by lia) hlt hrest
      exact ⟨Int.le_refl _, by lia, hinner.append hafter⟩
    · rw [if_neg hkind]
      exact ih (hin.weaken (Int.le_trans hlo hle)) hposition hstop hrest

/-- The pieces of a nested, bracketed tree are not empty and stand in its range
in order and disjoint. -/
theorem pieces_between {b : Buffer} {n : Node} (h : n.Nested) (hb : n.Bracketed) :
    Piece.Between n.start n.stop (n.pieces b) := by
  induction n using induct_below with
  | step n ih =>
    have hbelow : ∀ m : Node, m.Below n → Piece.Between m.start m.stop (m.pieces b) :=
      fun m hm => ih m hm (h.of_within hm.within) (hb.of_within hm.within)
    rw [pieces_eq]
    by_cases hempty : n.start = n.stop
    · simp [hempty, Piece.Between]
    have hlt : n.start < n.stop := by have := h.le; lia
    by_cases hcomment : n.isComment
    · simp [hempty, hcomment, Piece.Between, hlt]
    by_cases htemplate : n.kind = "template_string"
    · simp only [hempty, hcomment, htemplate, if_true, if_false, Bool.false_eq_true]
      refine templatePieces_between h.inOrder (Int.le_refl _) hlt fun c hc hkind => ?_
      obtain ⟨opening, inner, closing, hcs, hok, -, hos, hck, hcstart, -⟩ :=
        hb c (.of_mem hc) hkind
      have hin := IsBracketed.inOrder (h.of_mem hc) hcs hos hcstart
      refine ⟨hin.le, ?_⟩
      rw [IsBracketed.substitutedPieces_eq hcs hok hck]
      refine Piece.between_flatMap hin fun m hm => ?_
      have hmc : m ∈ c.children := by simp [hcs, hm]
      have hmn : m.Below n := (Below.of_mem hc).below_of_mem hmc
      rw [substitutedPiece]
      split
      · exact (h.range_within hmn.within).2.1
      · exact hbelow m hmn
    by_cases hleaf : (isAtomicKind n.kind || n.children.isEmpty) = true
    · simp [hempty, hcomment, htemplate, hleaf, Piece.Between, hlt]
    · simp only [hempty, hcomment, htemplate, hleaf, if_false, Bool.false_eq_true]
      exact Piece.between_flatMap h.inOrder fun c hc => hbelow c (.of_mem hc)

/-! ## pieces that are not empty -/

/-- Literal text around substitutions is not empty. -/
theorem templatePieces_proper {b : Buffer} {position lo stop : Offset} {ns : List Node}
    (h : InOrder lo stop ns) (hposition : position ≤ lo) (hlt : position < stop)
    (hsub : ∀ n ∈ ns, ∀ p ∈ substitutedPieces b n.children, p.start < p.stop) {p : Piece}
    (hp : p ∈ templatePieces b position stop ns) : p.start < p.stop := by
  induction ns generalizing position lo with
  | nil =>
    rw [templatePieces, List.mem_singleton] at hp
    rw [hp]
    exact hlt
  | cons n rest ih =>
    obtain ⟨hlo, hle, hrest⟩ := h
    have hmore := fun m hm => hsub m (List.mem_cons_of_mem n hm)
    rw [templatePieces_cons] at hp
    split at hp
    · rw [List.mem_cons, List.mem_append] at hp
      rcases hp with rfl | hp | hp
      · dsimp only
        lia
      · exact hsub n List.mem_cons_self p hp
      · have := hrest.le
        exact ih hrest (by lia) (by lia) hmore hp
    · exact ih (hrest.weaken (Int.le_trans hlo hle)) hposition hlt hmore hp

/-- The pieces of a nested tree are not empty. -/
theorem pieces_proper {b : Buffer} {n : Node} (h : n.Nested) {p : Piece}
    (hp : p ∈ n.pieces b) : p.start < p.stop := by
  induction n using induct_below generalizing p with
  | step n ih =>
    have hle := h.le
    rw [pieces_eq] at hp
    split at hp
    · simp at hp
    next hempty =>
    split at hp
    · rw [List.mem_singleton] at hp
      rw [hp]
      dsimp only
      lia
    split at hp
    · refine templatePieces_proper h.inOrder (Int.le_refl _) (by lia) (fun c hc q hq => ?_) hp
      rw [substitutedPieces_eq, List.mem_flatMap] at hq
      obtain ⟨d, hd, hq⟩ := hq
      rw [substitutedPiece] at hq
      have hbelow : d.Below n := (Below.of_mem hc).below_of_mem hd
      split at hq
      · simp at hq
      · exact ih d hbelow (h.of_within hbelow.within) hq
    split at hp
    · rw [List.mem_singleton] at hp
      rw [hp]
      dsimp only
      lia
    · rw [List.mem_flatMap] at hp
      obtain ⟨c, hc, hp⟩ := hp
      exact ih c (.of_mem hc) (h.of_mem hc) hp

end Node

namespace Source

/-! ## code tokens -/

/-- The pieces that become code tokens. -/
def codePieces (s : Source) : List Piece := (s.root.pieces s.buffer).filter (!·.isComment)

/-- The code token at a place is the piece at that place. -/
theorem getElem?_tokens (s : Source) (i : Nat) :
    s.tokens[i]? = s.codePieces[i]?.map fun p => s.buffer.token p (some i) := by
  rw [s.tokens_eq, List.getElem?_toArray, Buffer.codeTokens, List.getElem?_map,
    List.getElem?_zipIdx, codePieces]
  cases ((s.root.pieces s.buffer).filter (!·.isComment))[i]? <;> simp

theorem exists_codePiece {s : Source} {i : Nat} {t : Token} (h : s.tokens[i]? = some t) :
    ∃ p, s.codePieces[i]? = some p ∧ t = s.buffer.token p (some i) := by
  rw [getElem?_tokens, Option.map_eq_some_iff] at h
  obtain ⟨p, hp, rfl⟩ := h
  exact ⟨p, hp, rfl⟩

theorem size_tokens (s : Source) : s.tokens.size = s.codePieces.length := by
  rw [s.tokens_eq]
  simp [Buffer.codeTokens, codePieces]

/-- A code token knows its place. -/
theorem index_of_getElem? {s : Source} {i : Nat} {t : Token} (h : s.tokens[i]? = some t) :
    t.index = some i := by
  obtain ⟨p, -, rfl⟩ := exists_codePiece h
  rfl

/-- No code token stands at two places. -/
theorem eq_of_getElem? {s : Source} {i j : Nat} {t : Token} (hi : s.tokens[i]? = some t)
    (hj : s.tokens[j]? = some t) : i = j :=
  Option.mem_unique (index_of_getElem? hi) (index_of_getElem? hj)

/-- The code tokens are in order and disjoint, and none of them is empty. -/
structure Ordered (s : Source) : Prop where
  proper {i : Nat} {t : Token} : s.tokens[i]? = some t → t.start < t.stop
  disjoint {i j : Nat} {t u : Token} :
    i < j → s.tokens[i]? = some t → s.tokens[j]? = some u → t.stop ≤ u.start

theorem ordered_of_between {s : Source} {lo hi : Offset}
    (h : Piece.Between lo hi (s.root.pieces s.buffer)) : s.Ordered where
  proper ht := by
    obtain ⟨p, hp, rfl⟩ := exists_codePiece ht
    exact (h.mem (List.mem_filter.1 (List.mem_of_getElem? hp)).1).2.1
  disjoint hlt ht hu := by
    obtain ⟨p, hp, rfl⟩ := exists_codePiece ht
    obtain ⟨q, hq, rfl⟩ := exists_codePiece hu
    obtain ⟨hi, rfl⟩ := List.getElem?_eq_some_iff.1 hp
    obtain ⟨hj, rfl⟩ := List.getElem?_eq_some_iff.1 hq
    exact List.pairwise_iff_getElem.1 (h.pairwise.filter _) _ _ hi hj hlt

/-- Disjoint code tokens of a nested tree are in order. -/
theorem ordered_of_disjoint {s : Source} (h : s.root.Nested)
    (hdisjoint : s.tokens.toList.Pairwise (·.stop ≤ ·.start)) : s.Ordered where
  proper ht := by
    obtain ⟨p, hp, rfl⟩ := exists_codePiece ht
    exact Node.pieces_proper h (List.mem_filter.1 (List.mem_of_getElem? hp)).1
  disjoint hlt ht hu := by
    obtain ⟨hi, rfl⟩ := Array.getElem?_eq_some_iff.1 ht
    obtain ⟨hj, rfl⟩ := Array.getElem?_eq_some_iff.1 hu
    exact List.pairwise_iff_getElem.1 hdisjoint _ _ hi hj hlt

/-- The code tokens of a nested, bracketed tree are in order. -/
theorem ordered_of_nested {s : Source} (h : s.root.Nested) (hb : s.root.Bracketed) : s.Ordered :=
  ordered_of_between (Node.pieces_between h hb)

end Source

end ScriptIndent
