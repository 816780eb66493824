import Mathlib.Logic.ExistsUnique
import ScriptIndent.Proofs.Stream.Span

/-!
# ScriptIndent.Proofs.Stream.Lossless

Every byte of a leaf is in one token or in one comment.

```
`a${ b /* c */ }d`
^^^^ ^         ^^^     code tokens: two of the template, one of what it puts in
       ^^^^^^^         comment
```

Cutting a tree into pieces goes down to some of its nodes and leaves others alone
(`Node.CutIn`): it does not go into a comment, a string or a regular expression, nor
into the literal text of a template.  The pieces of the nodes it goes down to stand one
behind the other among the pieces of the tree (`Node.CutIn.pieces`).  With the pieces in
order and disjoint, this is where the bytes of a leaf are found (`Source.lossless`).

A substitution that holds a bracket beside its own two loses it: the bracket is *stray*,
and its bytes are in no token (`Source.strayed_lost`).
-/

namespace ScriptIndent

namespace Piece

/-- The byte at an offset is in the piece. -/
def Holds (p : Piece) (x : Offset) : Prop := p.start ≤ x ∧ x < p.stop

/-- Of two pieces one stops before the other starts. -/
theorem Between.apart {lo hi : Offset} {ps : List Piece} (h : Between lo hi ps) {p q : Piece}
    (hp : p ∈ ps) (hq : q ∈ ps) (hne : p ≠ q) : p.stop ≤ q.start ∨ q.stop ≤ p.start := by
  induction ps generalizing lo with
  | nil => simp at hp
  | cons r rest ih =>
    rcases List.mem_cons.1 hp with heq | hp <;> rcases List.mem_cons.1 hq with heq' | hq
    · exact absurd (heq.trans heq'.symm) hne
    · exact .inl (heq ▸ (h.2.2.mem hq).1)
    · exact .inr (heq' ▸ (h.2.2.mem hp).1)
    · exact ih h.2.2 hp hq

/-- No two pieces hold one byte. -/
theorem Between.eq_of_holds {lo hi : Offset} {ps : List Piece} (h : Between lo hi ps)
    {p q : Piece} (hp : p ∈ ps) (hq : q ∈ ps) {x : Offset} (hpx : p.Holds x) (hqx : q.Holds x) :
    p = q := by
  unfold Holds at hpx hqx
  by_cases heq : p = q
  · exact heq
  · have := h.apart hp hq heq
    lia

theorem Between.pairwise_start {lo hi : Offset} {ps : List Piece} (h : Between lo hi ps) :
    ps.Pairwise (·.start < ·.start) := by
  induction ps generalizing lo with
  | nil => exact .nil
  | cons p rest ih =>
    exact .cons (fun q hq => Int.lt_of_lt_of_le h.2.1 (h.2.2.mem hq).1) (ih h.2.2)

end Piece

namespace Node

/-! ## the nodes that are cut -/

/-- The node is cut into its children, rather than being one piece or being cut at its
substitutions. -/
def isPlain (n : Node) : Bool := !n.isComment && !isLiteralKind n.kind

/-- What a substitution puts in: its children without its own two brackets. -/
def substituted (n : Node) : List Node := n.children.tail.dropLast

/-- Cutting a tree into pieces goes down to a node. -/
inductive CutIn : Node → Node → Prop
  | refl (n : Node) : CutIn n n
  | child {m c n : Node} (hplain : n.isPlain = true) (hc : c ∈ n.children) (h : CutIn m c) :
      CutIn m n
  | substituted {m d c n : Node} (htemplate : n.kind = "template_string") (hc : c ∈ n.children)
      (hkind : c.kind = "template_substitution") (hd : d ∈ c.substituted)
      (hbracket : isSubstitutionBracket d.kind = false) (h : CutIn m d) : CutIn m n

/-- The node is a bracket among what a substitution puts in. -/
def StrayIn (m n : Node) : Prop :=
  ∃ t c : Node, t.CutIn n ∧ t.kind = "template_string" ∧ c ∈ t.children ∧
    c.kind = "template_substitution" ∧ m ∈ c.substituted ∧ isSubstitutionBracket m.kind = true

theorem CutIn.trans {a b c : Node} (hab : a.CutIn b) (hbc : b.CutIn c) : a.CutIn c := by
  induction hbc with
  | refl => exact hab
  | child hplain hc _ ih => exact .child hplain hc ih
  | substituted htemplate hc hkind hd hbracket _ ih =>
    exact .substituted htemplate hc hkind hd hbracket ih

theorem StrayIn.of_cutIn {m a n : Node} (h : m.StrayIn a) (ha : a.CutIn n) : m.StrayIn n := by
  obtain ⟨t, c, ht, hrest⟩ := h
  exact ⟨t, c, ht.trans ha, hrest⟩

theorem mem_children_of_mem_substituted {d c : Node} (h : d ∈ c.substituted) : d ∈ c.children :=
  List.mem_of_mem_tail (List.dropLast_subset _ h)

theorem CutIn.within {m n : Node} (h : m.CutIn n) : m.Within n := by
  induction h with
  | refl => exact .refl _
  | child _ hc _ ih => exact .child hc ih
  | substituted _ hc _ hd _ _ ih =>
    exact .child hc (.child (mem_children_of_mem_substituted hd) ih)

theorem isComment_of_template {n : Node} (h : n.kind = "template_string") :
    n.isComment = false := by
  rw [isComment, h]
  decide

variable {b : Buffer}

/-- A plain node that is not a leaf gives the pieces of its children. -/
theorem pieces_of_isPlain {n : Node} (h : n.isPlain = true) (hlt : n.start < n.stop)
    (hne : n.children ≠ []) : n.pieces b = n.children.flatMap (pieces b) := by
  have hempty : n.start ≠ n.stop := Int.ne_of_lt hlt
  simp only [isPlain, isLiteralKind, Bool.and_eq_true, Bool.not_eq_true', Bool.or_eq_false_iff,
    beq_eq_false_iff_ne] at h
  rw [pieces_eq, if_neg hempty]
  simp [h, hne]

theorem pieces_of_template {n : Node} (h : n.kind = "template_string") (hlt : n.start < n.stop) :
    n.pieces b = templatePieces b n.start n.stop n.children := by
  have hempty : n.start ≠ n.stop := Int.ne_of_lt hlt
  rw [pieces_eq, if_neg hempty]
  simp [isComment_of_template h, h]

theorem pieces_of_comment {n : Node} (h : n.isComment = true) (hlt : n.start < n.stop) :
    n.pieces b = [⟨.comment, n.start, n.stop⟩] := by
  have hempty : n.start ≠ n.stop := Int.ne_of_lt hlt
  rw [pieces_eq, if_neg hempty, if_pos h]

theorem pieces_of_empty {n : Node} (h : n.start = n.stop) : n.pieces b = [] := by
  rw [pieces_eq, if_pos h]

/-- What a bracketed substitution puts in stands between its own brackets. -/
theorem IsBracketed.children_eq {c : Node} (h : c.IsBracketed) :
    ∃ opening closing, c.children = opening :: (c.substituted ++ [closing]) ∧
      opening.kind = "$\x7b" ∧ opening.start = c.start ∧ opening.stop = c.start + 2 ∧
      closing.kind = "\x7d" ∧ closing.start = c.stop - 1 ∧ closing.stop = c.stop := by
  obtain ⟨opening, inner, closing, hc, hrest⟩ := h
  have hinner : c.substituted = inner := by simp [substituted, hc]
  exact ⟨opening, closing, hinner ▸ hc, hrest⟩

theorem substitutedPieces_of_isBracketed {c : Node} (h : c.IsBracketed) :
    substitutedPieces b c.children = c.substituted.flatMap (substitutedPiece b) := by
  obtain ⟨opening, closing, hc, hopening, -, -, hclosing, -⟩ := h.children_eq
  exact IsBracketed.substitutedPieces_eq hc hopening hclosing

/-- The pieces of one of some trees stand together among the pieces of all. -/
theorem isInfix_flatMap {α β : Type} {f : α → List β} {x : α} {xs : List α} (h : x ∈ xs) :
    f x <:+: xs.flatMap f := by
  obtain ⟨before, after, rfl⟩ := List.append_of_mem h
  exact ⟨before.flatMap f, after.flatMap f, by simp⟩

/-- The pieces of a substitution stand together among those of its template. -/
theorem isInfix_templatePieces {c : Node} (hkind : c.kind = "template_substitution")
    {ns : List Node} (hc : c ∈ ns) (position stop : Offset) :
    substitutedPieces b c.children <:+: templatePieces b position stop ns := by
  induction ns generalizing position with
  | nil => simp at hc
  | cons n rest ih =>
    rw [templatePieces_cons]
    rcases List.mem_cons.1 hc with rfl | hc
    · rw [if_pos hkind]
      exact ⟨[⟨.template, position, c.start + 2⟩], templatePieces b (c.stop - 1) stop rest, by simp⟩
    · split
      · exact (ih hc _).trans ((List.suffix_append _ _).isInfix.trans (List.suffix_cons _ _).isInfix)
      · exact ih hc position

/-- The pieces of a node that cutting goes down to stand together among those of the
tree. -/
theorem CutIn.pieces {m n : Node} (h : m.CutIn n) (hn : n.Nested) (hb : n.Bracketed) :
    m.pieces b <:+: n.pieces b := by
  induction h with
  | refl => exact List.infix_rfl
  | @child c n hplain hc h ih =>
    have hinfix := ih (hn.of_mem hc) (hb.of_within (.of_mem hc))
    have hrange := hn.range_within (.of_mem hc)
    by_cases hempty : n.start = n.stop
    · rw [pieces_of_empty (n := c) (by lia)] at hinfix
      exact hinfix.trans List.nil_infix
    · rw [pieces_of_isPlain hplain (by lia) (List.ne_nil_of_mem hc)]
      exact hinfix.trans (isInfix_flatMap hc)
  | @substituted d c n htemplate hc hkind hd hbracket h ih =>
    have hdn : d.Within n := .child hc (.of_mem (mem_children_of_mem_substituted hd))
    have hinfix := ih (hn.of_within hdn) (hb.of_within hdn)
    have hcn := hn.range_within (.of_mem hc)
    have hbracketed := hb c (.of_mem hc) hkind
    have hd' : substitutedPiece b d = d.pieces b := by simp [substitutedPiece, hbracket]
    have hlt : n.start < n.stop := by
      obtain ⟨opening, closing, hcs, -, hos, hop, -⟩ := hbracketed.children_eq
      have hopening := (hn.of_mem hc).inOrder.mem (hcs ▸ List.mem_cons_self)
      lia
    rw [pieces_of_template htemplate hlt]
    refine hinfix.trans (.trans ?_ (isInfix_templatePieces hkind hc n.start n.stop))
    rw [substitutedPieces_of_isBracketed hbracketed, ← hd']
    exact isInfix_flatMap hd

/-! ## the bytes of a leaf -/

/-- A byte before the rest of a template's children is in the literal text that goes
on. -/
theorem exists_literal_of_lt {position lo stop x : Offset} {ns : List Node}
    (h : InOrder lo stop ns) (hposition : position ≤ x) (hlt : x < lo) :
    ∃ p ∈ templatePieces b position stop ns, p.isComment = false ∧ p.Holds x := by
  induction ns generalizing lo with
  | nil =>
    have hle : lo ≤ stop := h
    exact ⟨⟨.template, position, stop⟩, by simp [templatePieces], rfl, hposition, by
      show x < stop
      lia⟩
  | cons n rest ih =>
    rw [templatePieces_cons]
    obtain ⟨hlo, hle, hrest⟩ := h
    split
    · refine ⟨⟨.template, position, n.start + 2⟩, List.mem_cons_self, rfl, hposition, ?_⟩
      show x < n.start + 2
      lia
    · exact ih (hrest.weaken (by lia)) hlt

/-- A byte of a template's child is in literal text, unless it stands between the
brackets of a substitution. -/
theorem exists_literal {position lo stop x : Offset} {ns : List Node} (h : InOrder lo stop ns)
    (hposition : position ≤ lo) {c : Node} (hc : c ∈ ns) (hx : c.start ≤ x ∧ x < c.stop)
    (hliteral : c.kind = "template_substitution" → x < c.start + 2 ∨ c.stop - 1 ≤ x) :
    ∃ p ∈ templatePieces b position stop ns, p.isComment = false ∧ p.Holds x := by
  induction ns generalizing position lo with
  | nil => simp at hc
  | cons n rest ih =>
    rw [templatePieces_cons]
    obtain ⟨hlo, hle, hrest⟩ := h
    by_cases hkind : n.kind = "template_substitution"
    · rw [if_pos hkind]
      rcases List.mem_cons.1 hc with rfl | hc
      · rcases hliteral hkind with hopening | hclosing
        · exact ⟨⟨.template, position, c.start + 2⟩, List.mem_cons_self, rfl,
            Int.le_trans hposition (Int.le_trans hlo hx.1), hopening⟩
        · obtain ⟨p, hp, hheld⟩ := exists_literal_of_lt (b := b) hrest hclosing hx.2
          exact ⟨p, by simp [hp], hheld⟩
      · have hbracket : n.stop - 1 ≤ n.stop := by lia
        obtain ⟨p, hp, hheld⟩ := ih hrest hbracket hc
        exact ⟨p, by simp [hp], hheld⟩
    · rw [if_neg hkind]
      rcases List.mem_cons.1 hc with rfl | hc
      · exact exists_literal_of_lt hrest (by lia) hx.2
      · exact ih hrest (by lia) hc

/-- A leaf within a bracketed substitution is below it. -/
theorem below_of_isBracketed {c leaf : Node} (h : c.IsBracketed) (hleaf : leaf.Within c)
    (hchildren : leaf.children = []) : leaf.Below c := by
  rcases hleaf.eq_or_below with rfl | hbelow
  · obtain ⟨_, _, hcs, -⟩ := h.children_eq
    simp [hcs] at hchildren
  · exact hbelow

/-- A child with a byte between the brackets of a substitution is put in by it. -/
theorem mem_substituted {c d : Node} (h : c.IsBracketed) (hd : d ∈ c.children) {x : Offset}
    (hx : d.start ≤ x ∧ x < d.stop) (hopened : ¬x < c.start + 2) (hclosed : ¬c.stop - 1 ≤ x) :
    d ∈ c.substituted := by
  obtain ⟨opening, closing, hcs, -, -, hop, -, hcl, -⟩ := h.children_eq
  rw [hcs, List.mem_cons, List.mem_append, List.mem_singleton] at hd
  rcases hd with rfl | hd | rfl
  · lia
  · exact hd
  · lia

/-- A byte of a leaf is in a piece that is no comment, unless a comment that is cut or a
stray bracket holds the leaf. -/
theorem exists_piece {n leaf : Node} (hn : n.Nested) (hb : n.Bracketed) (hleaf : leaf.Within n)
    (hchildren : leaf.children = []) {x : Offset} (hx : leaf.start ≤ x ∧ x < leaf.stop)
    (hcomment : ∀ m : Node, m.CutIn n → m.isComment = true → ¬leaf.Within m)
    (hstray : ∀ m : Node, m.StrayIn n → ¬leaf.Within m) :
    ∃ p ∈ n.pieces b, p.isComment = false ∧ p.Holds x := by
  induction n using induct_below with
  | step n ih =>
    have hrange := hn.range_within hleaf
    have hlt : n.start < n.stop := by lia
    have hcode : n.isComment = false := by
      cases h : n.isComment with
      | false => rfl
      | true => exact absurd hleaf (hcomment n (.refl n) h)
    -- what cutting goes down to keeps the assumptions
    have hdown : ∀ m : Node, m.Below n → m.CutIn n → leaf.Within m →
        ∃ p ∈ n.pieces b, p.isComment = false ∧ p.Holds x := by
      intro m hbelow hm hleaf
      obtain ⟨p, hp, hheld⟩ := ih m hbelow (hn.of_within hm.within) (hb.of_within hm.within) hleaf
        (fun k hk => hcomment k (hk.trans hm)) fun k hk => hstray k (hk.of_cutIn hm)
      exact ⟨p, (hm.pieces hn hb).subset hp, hheld⟩
    by_cases htemplate : n.kind = "template_string"
    · rw [pieces_of_template htemplate hlt]
      rcases hleaf.eq_or_below with rfl | ⟨c, hc, hleafc⟩
      · rw [hchildren, templatePieces]
        exact ⟨_, List.mem_singleton_self _, rfl, hx⟩
      have hcrange := (hn.of_mem hc).range_within hleafc
      have hxc : c.start ≤ x ∧ x < c.stop := by lia
      by_cases hliteral : c.kind = "template_substitution" → x < c.start + 2 ∨ c.stop - 1 ≤ x
      · exact exists_literal hn.inOrder (Int.le_refl _) hc hxc hliteral
      · rw [Classical.not_imp, not_or] at hliteral
        obtain ⟨hkind, hopened, hclosed⟩ := hliteral
        have hbracketed := hb c (.of_mem hc) hkind
        obtain ⟨d, hd, hleafd⟩ := below_of_isBracketed hbracketed hleafc hchildren
        have hdrange := ((hn.of_mem hc).of_mem hd).range_within hleafd
        have hsub := mem_substituted hbracketed hd (by lia) hopened hclosed
        have hbracket : isSubstitutionBracket d.kind = false := by
          cases h : isSubstitutionBracket d.kind with
          | false => rfl
          | true => exact absurd hleafd (hstray d ⟨n, c, .refl n, htemplate, hc, hkind, hsub, h⟩)
        rw [← pieces_of_template htemplate hlt]
        exact hdown d ⟨c, hc, .of_mem hd⟩ (.substituted htemplate hc hkind hsub hbracket (.refl d))
          hleafd
    by_cases hatomic : (isAtomicKind n.kind || n.children.isEmpty) = true
    · rw [pieces_eq, if_neg (Int.ne_of_lt hlt)]
      simp only [hcode, htemplate, hatomic, if_true, if_false, Bool.false_eq_true]
      exact ⟨_, List.mem_singleton_self _, ofLeaf_isComment hcode _ _ _ _, by unfold Piece.Holds; lia⟩
    · simp only [Bool.or_eq_true, not_or, Bool.not_eq_true, List.isEmpty_eq_false_iff] at hatomic
      have hplain : n.isPlain = true := by simp [isPlain, isLiteralKind, hcode, htemplate, hatomic.1]
      rcases hleaf.eq_or_below with rfl | ⟨c, hc, hleafc⟩
      · exact absurd hchildren hatomic.2
      · exact hdown c (.of_mem hc) (.child hplain hc (.refl c)) hleafc

/-! ## tests -/

theorem isBracketed_iff {n : Node} : n.IsBracketed ↔
    (n.children.head?.any fun opening => n.children.tail.getLast?.any fun closing =>
      opening.kind == "$\x7b" && opening.start == n.start && opening.stop == n.start + 2 &&
        closing.kind == "\x7d" && closing.start == n.stop - 1 && closing.stop == n.stop) =
      true := by
  constructor
  · rintro ⟨opening, inner, closing, hcs, hrest⟩
    simp [hcs, hrest]
  · intro h
    cases hcs : n.children with
    | nil => simp [hcs] at h
    | cons opening rest =>
      rcases rest.eq_nil_or_concat with rfl | ⟨inner, closing, rfl⟩
      · simp [hcs] at h
      · exact ⟨opening, inner, closing, by simpa using hcs, by simpa [hcs, and_assoc] using h⟩

instance decidableIsBracketed (n : Node) : Decidable n.IsBracketed :=
  decidable_of_iff _ isBracketed_iff.symm

theorem bracketed_of_all {n : Node} (h : n.all
    (fun m => m.kind != "template_substitution" || decide m.IsBracketed) = true) : n.Bracketed := by
  intro m hm hkind
  simpa [hkind] using of_all h hm

theorem nested_of_all {n : Node}
    (h : n.all (fun m => decide (InOrder m.start m.stop m.children)) = true) : n.Nested :=
  fun _ hm => of_decide_eq_true (of_all h hm)

/-! ## the pieces of a template -/

/-- The piece stands between the brackets of a substitution. -/
def encloses (c : Node) (p : Piece) : Bool :=
  c.kind == "template_substitution" && c.start + 2 ≤ p.start && p.stop ≤ c.stop - 1

/-- The piece stands in no substitution of some nodes. -/
def leaveOut (ns : List Node) (p : Piece) : Bool := ns.all fun c => !c.encloses p

/-- The piece is one of the node's own: it stands in the node's range, and not in what a
substitution puts in. -/
def owns (n : Node) (p : Piece) : Bool :=
  n.start ≤ p.start && p.stop ≤ n.stop && leaveOut n.children p

/-- The substitutions among the children of a template. -/
def substitutions (ns : List Node) : List Node := ns.filter (·.kind == "template_substitution")

theorem leaveOut_cons (n : Node) (rest : List Node) (p : Piece) :
    leaveOut (n :: rest) p = (!n.encloses p && leaveOut rest p) := rfl

theorem encloses_iff {c : Node} {p : Piece} : c.encloses p = true ↔
    c.kind = "template_substitution" ∧ c.start + 2 ≤ p.start ∧ p.stop ≤ c.stop - 1 := by
  simp [encloses, and_assoc]

/-- No node encloses a piece that reaches before it. -/
theorem leaveOut_of_lt {lo hi : Offset} {ns : List Node} (h : InOrder lo hi ns) {p : Piece}
    (hp : p.start < lo + 2) : leaveOut ns p = true := by
  rw [leaveOut, List.all_eq_true]
  intro c hc
  have hlo := (h.mem hc).1
  rw [Bool.not_eq_true', ← Bool.not_eq_true, encloses_iff]
  lia

/-- Before the substitutions of a template and behind them there is one piece of literal
text each. -/
theorem literal_templatePieces {position lo stop : Offset} {ns : List Node}
    (h : InOrder lo stop ns) (hposition : position ≤ lo) (hstop : position < stop)
    (hsub : ∀ n ∈ ns, n.kind = "template_substitution" →
      n.start + 2 ≤ n.stop - 1 ∧
        Piece.Between (n.start + 2) (n.stop - 1) (substitutedPieces b n.children)) :
    ((templatePieces b position stop ns).filter (leaveOut ns)).map (·.kind) =
      List.replicate ((substitutions ns).length + 1) .template := by
  induction ns generalizing position lo with
  | nil =>
    have hnone : leaveOut [] = fun _ => true := rfl
    simp [templatePieces, substitutions, hnone]
  | cons n rest ih =>
    rw [templatePieces_cons]
    obtain ⟨hlo, hle, hrest⟩ := h
    have hsub' := fun m hm => hsub m (List.mem_cons_of_mem n hm)
    by_cases hkind : n.kind = "template_substitution"
    · obtain ⟨hwidth, hinner⟩ := hsub n List.mem_cons_self hkind
      have hlt : n.stop - 1 < stop := by have := hrest.le; lia
      have hbracket : n.stop - 1 ≤ n.stop := by lia
      have hafter := templatePieces_between hrest hbracket hlt hsub'
      have hhead : leaveOut (n :: rest) ⟨.template, position, n.start + 2⟩ = true := by
        have hall : InOrder n.start stop (n :: rest) := ⟨Int.le_refl _, hle, hrest⟩
        refine leaveOut_of_lt hall ?_
        show position < n.start + 2
        lia
      have hput : (substitutedPieces b n.children).filter (leaveOut (n :: rest)) = [] := by
        rw [List.filter_eq_nil_iff]
        intro p hp
        obtain ⟨hstart, -, hstop⟩ := hinner.mem hp
        simp [leaveOut_cons, encloses_iff.2 ⟨hkind, hstart, hstop⟩]
      have htail : (templatePieces b (n.stop - 1) stop rest).filter (leaveOut (n :: rest)) =
          (templatePieces b (n.stop - 1) stop rest).filter (leaveOut rest) := by
        refine List.filter_congr fun p hp => ?_
        have hbehind : n.encloses p = false := by
          obtain ⟨hstart, hproper, -⟩ := hafter.mem hp
          rw [← Bool.not_eq_true, encloses_iff]
          lia
        simp [leaveOut_cons, hbehind]
      rw [if_pos hkind, List.filter_cons_of_pos hhead, List.filter_append, hput, htail,
        List.nil_append, List.map_cons, ih hrest hbracket hlt hsub']
      simp [substitutions, hkind, List.replicate_succ]
    · have hskip : leaveOut (n :: rest) = leaveOut rest := by
        funext p
        simp [leaveOut_cons, encloses, hkind]
      rw [if_neg hkind, hskip, ih (hrest.weaken (by lia)) hposition hstop hsub']
      simp [substitutions, hkind]

/-- A template has one piece of its own more than it has substitutions. -/
theorem owns_templatePieces {n : Node} (hn : n.Nested) (hb : n.Bracketed)
    (htemplate : n.kind = "template_string") (hlt : n.start < n.stop) :
    ((n.pieces b).filter n.owns).map (·.kind) =
      List.replicate ((substitutions n.children).length + 1) .template := by
  have hinside : (n.pieces b).filter n.owns = (n.pieces b).filter (leaveOut n.children) := by
    refine List.filter_congr fun p hp => ?_
    obtain ⟨hstart, -, hstop⟩ := (pieces_between hn hb).mem hp
    simp [owns, hstart, hstop]
  rw [hinside, pieces_of_template htemplate hlt]
  exact literal_templatePieces hn.inOrder (Int.le_refl _) hlt fun c hc hkind =>
    Source.substitutedPieces_between (hn.of_mem hc) (hb.of_within (.of_mem hc)) hkind

private theorem exists_first_templatePieces (position stop : Offset) (ns : List Node) :
    ∃ p ∈ templatePieces b position stop ns, p.start = position := by
  induction ns with
  | nil => exact ⟨⟨.template, position, stop⟩, by simp [templatePieces], rfl⟩
  | cons n rest ih =>
    rw [templatePieces_cons]
    split
    · exact ⟨⟨.template, position, n.start + 2⟩, List.mem_cons_self, rfl⟩
    · exact ih

private theorem exists_last_templatePieces (position stop : Offset) (ns : List Node) :
    ∃ p ∈ templatePieces b position stop ns, p.stop = stop := by
  induction ns generalizing position with
  | nil => exact ⟨⟨.template, position, stop⟩, by simp [templatePieces], rfl⟩
  | cons n rest ih =>
    rw [templatePieces_cons]
    split
    · obtain ⟨p, hp, hstop⟩ := ih (n.stop - 1)
      exact ⟨p, by simp [hp], hstop⟩
    · exact ih position

/-- Of the pieces of a tree, a template that is cut owns none but its own. -/
theorem CutIn.filter_owns {m n : Node} (h : m.CutIn n) (hn : n.Nested) (hb : n.Bracketed)
    (htemplate : m.kind = "template_string") (hlt : m.start < m.stop) :
    (n.pieces b).filter m.owns = (m.pieces b).filter m.owns := by
  obtain ⟨before, after, heq⟩ := h.pieces (b := b) hn hb
  have hbetween := pieces_between (b := b) hn hb
  have hpairwise := hbetween.pairwise
  rw [← heq, List.pairwise_append, List.pairwise_append] at hpairwise
  obtain ⟨⟨-, -, hbefore⟩, -, hafter⟩ := hpairwise
  have hproper : ∀ p ∈ n.pieces b, p.start < p.stop := fun p hp => (hbetween.mem hp).2.1
  have hnone : ∀ p ∈ n.pieces b, p.stop ≤ m.start ∨ m.stop ≤ p.start → m.owns p = false := by
    intro p hp hapart
    have := hproper p hp
    rw [owns, Bool.and_eq_false_iff, Bool.and_eq_false_iff, decide_eq_false_iff_not,
      decide_eq_false_iff_not]
    lia
  have hpieces := pieces_of_template (b := b) htemplate hlt
  have hfirst : before.filter m.owns = [] := by
    obtain ⟨q, hq, hstart⟩ := exists_first_templatePieces (b := b) m.start m.stop m.children
    rw [List.filter_eq_nil_iff]
    intro p hp
    have hle := hbefore p hp q (hpieces ▸ hq)
    simp [hnone p (heq ▸ by simp [hp]) (.inl (hstart ▸ hle))]
  have hlast : after.filter m.owns = [] := by
    obtain ⟨q, hq, hstop⟩ := exists_last_templatePieces (b := b) m.start m.stop m.children
    rw [List.filter_eq_nil_iff]
    intro p hp
    have hle := hafter q (List.mem_append_right before (hpieces ▸ hq)) p hp
    simp [hnone p (heq ▸ by simp [hp]) (.inr (hstop ▸ hle))]
  rw [← heq, List.filter_append, List.filter_append, hfirst, hlast, List.nil_append,
    List.append_nil]

end Node

/-- The stretch of text that a token is. -/
def Token.piece (t : Token) : Piece := ⟨t.kind, t.start, t.stop⟩

namespace Source

/-- The tokens and comments of a source keep every byte of its leaves. -/
structure Lossless (s : Source) : Prop where
  /-- The tokens are in order. -/
  increasing : s.tokens.toList.Pairwise (·.start < ·.start)
  nonempty {t : Token} : t ∈ s.tokens → t.start < t.stop
  /-- A token stops before the next one starts. -/
  disjoint : s.tokens.toList.Pairwise (·.stop ≤ ·.start)
  /-- The tokens are numbered, and none of them is a comment. -/
  numbered {i : Nat} {t : Token} : s.tokens[i]? = some t → t.index = some i ∧ t.kind ≠ .comment
  /-- No token overlaps a comment. -/
  apart {t c : Token} : t ∈ s.tokens → c ∈ s.comments → t.stop ≤ c.start ∨ c.stop ≤ t.start
  /-- A byte of a leaf that no comment holds is in one token. -/
  code {leaf : Node} : leaf.Within s.root → leaf.children = [] →
    (∀ m : Node, m.StrayIn s.root → ¬leaf.Within m) →
    (∀ m : Node, m.CutIn s.root → m.isComment = true → ¬leaf.Within m) →
    ∀ x, leaf.start ≤ x → x < leaf.stop → ∃! t, t ∈ s.tokens ∧ t.start ≤ x ∧ x < t.stop
  /-- A byte of a leaf that a comment holds is in one comment. -/
  comment {leaf m : Node} : leaf.Within s.root → leaf.children = [] →
    m.CutIn s.root → m.isComment = true → leaf.Within m →
    ∀ x, leaf.start ≤ x → x < leaf.stop → ∃! c, c ∈ s.comments ∧ c.start ≤ x ∧ x < c.stop
  /-- A template has one token of its own more than it has substitutions. -/
  template {n : Node} : n.CutIn s.root → n.kind = "template_string" → n.start < n.stop →
    ((s.tokens.toList.filter fun t => n.owns t.piece).map (·.kind)) =
      List.replicate ((Node.substitutions n.children).length + 1) .template

variable {s : Source}

theorem map_piece_tokens (s : Source) : s.tokens.toList.map Token.piece = s.codePieces := by
  refine List.ext_getElem? fun i => ?_
  rw [List.getElem?_map, Array.getElem?_toList, getElem?_tokens]
  cases s.codePieces[i]? <;> rfl

theorem map_piece_comments (s : Source) :
    s.comments.map Token.piece = (s.root.pieces s.buffer).filter (·.isComment) := by
  rw [s.comments_eq, Buffer.commentTokens, List.map_map]
  exact List.map_id _

theorem piece_of_mem_tokens {t : Token} (h : t ∈ s.tokens) :
    t.piece ∈ s.root.pieces s.buffer ∧ t.piece.isComment = false := by
  have hmem := List.mem_map_of_mem (f := Token.piece) (Array.mem_toList_iff.2 h)
  rw [map_piece_tokens, codePieces, List.mem_filter, Bool.not_eq_true'] at hmem
  exact hmem

theorem piece_of_mem_comments {c : Token} (h : c ∈ s.comments) :
    c.piece ∈ s.root.pieces s.buffer ∧ c.piece.isComment = true := by
  have hmem := List.mem_map_of_mem (f := Token.piece) h
  rw [map_piece_comments, List.mem_filter] at hmem
  exact hmem

private theorem exists_token_of_piece {p : Piece} (h : p ∈ s.root.pieces s.buffer)
    (hcode : p.isComment = false) : ∃ t ∈ s.tokens, t.piece = p := by
  have hmem : p ∈ s.codePieces := List.mem_filter.2 ⟨h, by simp [hcode]⟩
  rw [← map_piece_tokens, List.mem_map] at hmem
  obtain ⟨t, ht, heq⟩ := hmem
  exact ⟨t, Array.mem_toList_iff.1 ht, heq⟩

private theorem exists_comment_of_piece {p : Piece} (h : p ∈ s.root.pieces s.buffer)
    (hcomment : p.isComment = true) : ∃ c ∈ s.comments, c.piece = p := by
  have hmem := List.mem_filter.2 ⟨h, hcomment⟩
  rwa [← map_piece_comments, List.mem_map] at hmem

/-- A byte is in one token at most. -/
theorem Ordered.eq_of_holds (h : s.Ordered) {t u : Token} (ht : t ∈ s.tokens) (hu : u ∈ s.tokens)
    {x : Offset} (htx : t.start ≤ x ∧ x < t.stop) (hux : u.start ≤ x ∧ x < u.stop) : t = u := by
  obtain ⟨i, hi⟩ := Array.getElem?_of_mem ht
  obtain ⟨j, hj⟩ := Array.getElem?_of_mem hu
  rcases Nat.lt_trichotomy i j with hlt | rfl | hlt
  · have := h.disjoint hlt hi hj
    lia
  · exact Option.mem_unique hi hj
  · have := h.disjoint hlt hj hi
    lia

/-- A comment is known by its piece. -/
theorem eq_of_piece_comments {c : Token} (h : c ∈ s.comments) :
    c = s.buffer.token c.piece none := by
  rw [s.comments_eq, Buffer.commentTokens, List.mem_map] at h
  obtain ⟨p, -, rfl⟩ := h
  rfl

/-- The tokens and comments of a nested, bracketed tree are in order and disjoint, and
keep every byte of its leaves. -/
theorem lossless (hn : s.root.Nested) (hb : s.root.Bracketed) : s.Lossless := by
  have hbetween := Node.pieces_between (b := s.buffer) hn hb
  have hordered := ordered_of_nested hn hb
  have hcode : s.codePieces.Sublist (s.root.pieces s.buffer) := List.filter_sublist
  refine ⟨?_, ?_, ?_, ?_, ?_, ?_, ?_, ?_⟩
  · have hstarts := hbetween.pairwise_start.sublist hcode
    rw [← map_piece_tokens, List.pairwise_map] at hstarts
    exact hstarts
  · intro t ht
    exact (hbetween.mem (piece_of_mem_tokens ht).1).2.1
  · have hstops := hbetween.pairwise.sublist hcode
    rw [← map_piece_tokens, List.pairwise_map] at hstops
    exact hstops
  · intro i t ht
    refine ⟨index_of_getElem? ht, fun hcomment => ?_⟩
    have hpiece := (piece_of_mem_tokens (Array.mem_of_getElem? ht)).2
    simp [Piece.isComment, Token.piece, hcomment] at hpiece
  · intro t c ht hc
    obtain ⟨ht, htcode⟩ := piece_of_mem_tokens ht
    obtain ⟨hc, hccomment⟩ := piece_of_mem_comments hc
    exact hbetween.apart ht hc fun heq => by simp [heq, hccomment] at htcode
  · intro leaf hleaf hchildren hstray hcomment x hstart hstop
    obtain ⟨p, hp, hpcode, hholds⟩ :=
      Node.exists_piece (b := s.buffer) hn hb hleaf hchildren ⟨hstart, hstop⟩ hcomment hstray
    obtain ⟨t, ht, rfl⟩ := exists_token_of_piece hp hpcode
    exact ⟨t, ⟨ht, hholds⟩, fun u hu => hordered.eq_of_holds hu.1 ht hu.2 hholds⟩
  · intro leaf m hleaf hchildren hm hcomment hwithin x hstart hstop
    have hrange := (hn.of_within hm.within).range_within hwithin
    have hmem : ⟨.comment, m.start, m.stop⟩ ∈ s.root.pieces s.buffer := by
      refine (hm.pieces hn hb).subset ?_
      simp [Node.pieces_of_comment hcomment (by lia)]
    have hheld : (⟨.comment, m.start, m.stop⟩ : Piece).Holds x := by
      constructor <;> dsimp only <;> lia
    obtain ⟨c, hc, hpiece⟩ := exists_comment_of_piece hmem rfl
    have hheldc : c.piece.Holds x := hpiece ▸ hheld
    refine ⟨c, ⟨hc, hheldc⟩, ?_⟩
    rintro u ⟨hu, hux⟩
    have heq := hbetween.eq_of_holds (piece_of_mem_comments hu).1 hmem hux hheld
    rw [eq_of_piece_comments hu, eq_of_piece_comments hc, heq, hpiece]
  · intro n hcut htemplate hlt
    have hpieces := hcut.filter_owns (b := s.buffer) hn hb htemplate hlt
    have hown := Node.owns_templatePieces (b := s.buffer) (hn.of_within hcut.within)
      (hb.of_within hcut.within) htemplate hlt
    have hkinds : ∀ p ∈ (n.pieces s.buffer).filter n.owns, (!p.isComment) = true := by
      intro p hp
      have hkind := List.mem_map_of_mem (f := (·.kind)) hp
      rw [hown] at hkind
      simp [Piece.isComment, List.eq_of_mem_replicate hkind]
    have hcodeOwn : s.codePieces.filter n.owns = (n.pieces s.buffer).filter n.owns := by
      rw [codePieces, List.filter_filter]
      simp only [Bool.and_comm (n.owns _)]
      rw [← List.filter_filter, hpieces, List.filter_eq_self.2 hkinds]
    rw [← hown, ← hcodeOwn, ← map_piece_tokens, List.filter_map, List.map_map]
    rfl

/-! ## a template and a comment -/

/-- A template that puts in a name, and a comment behind it. -/
def templateSource : Source :=
  .ofTree #[0x60, 0x24, 0x7B, 0x61, 0x7D, 0x60, 0x2F, 0x2F]
    ⟨"program", true, false, false, [], 0, 8,
      [⟨"template_string", true, false, false, [], 0, 6,
        [⟨"`", false, false, false, [], 0, 1, []⟩,
          ⟨"template_substitution", true, false, false, [], 1, 5,
            [⟨"$\x7b", false, false, false, [], 1, 3, []⟩,
              ⟨"identifier", true, false, false, [], 3, 4, []⟩,
              ⟨"\x7d", false, false, false, [], 4, 5, []⟩]⟩,
          ⟨"`", false, false, false, [], 5, 6, []⟩]⟩,
        ⟨"comment", true, false, false, [], 6, 8, []⟩]⟩
    none []

theorem templateSource_lossless :
    templateSource.root.Nested ∧ templateSource.root.Bracketed ∧ templateSource.Lossless := by
  have hn : templateSource.root.Nested := Node.nested_of_all (by decide +kernel)
  have hb : templateSource.root.Bracketed := Node.bracketed_of_all (by decide +kernel)
  exact ⟨hn, hb, lossless hn hb⟩

/-! ## a stray bracket -/

/-- A bracket put into a template beside the two of the substitution. -/
def strayBracket : Node := ⟨"\x7d", false, false, false, [], 4, 5, []⟩

/-- A template with a stray bracket. -/
def strayedSource : Source :=
  .ofTree #[0x60, 0x24, 0x7B, 0x61, 0x7D, 0x7D, 0x60]
    ⟨"program", true, false, false, [], 0, 7,
      [⟨"template_string", true, false, false, [], 0, 7,
        [⟨"`", false, false, false, [], 0, 1, []⟩,
          ⟨"template_substitution", true, false, false, [], 1, 6,
            [⟨"$\x7b", false, false, false, [], 1, 3, []⟩,
              ⟨"identifier", true, false, false, [], 3, 4, []⟩,
              strayBracket,
              ⟨"\x7d", false, false, false, [], 5, 6, []⟩]⟩,
          ⟨"`", false, false, false, [], 6, 7, []⟩]⟩]⟩
    none []

/-- The byte of a stray bracket is in no token, though no comment holds it. -/
theorem strayedSource_loses :
    strayedSource.root.Nested ∧ strayedSource.root.Bracketed ∧
      (0 ≤ strayedSource.root.start ∧ strayedSource.root.stop ≤ strayedSource.buffer.bytes.size) ∧
      strayBracket.Within strayedSource.root ∧ strayBracket.children = [] ∧
      (∀ m : Node, m.Within strayedSource.root → m.isComment = false) ∧
      (strayBracket.start ≤ 4 ∧ 4 < strayBracket.stop) ∧
      ∀ t ∈ strayedSource.tokens, ¬(t.start ≤ 4 ∧ 4 < t.stop) := by
  refine ⟨Node.nested_of_all (by decide +kernel), Node.bracketed_of_all (by decide +kernel),
    by decide, ?_, rfl, ?_, by decide, ?_⟩
  · exact .child List.mem_cons_self (.child (.tail _ List.mem_cons_self)
      (.of_mem (.tail _ (.tail _ List.mem_cons_self))))
  · intro m hm
    have hall : strayedSource.root.all (fun m => !m.isComment) = true := by decide +kernel
    simpa using Node.of_all hall hm
  · have hall : strayedSource.tokens.toList.all (fun t => !(t.start ≤ 4 && 4 < t.stop)) = true := by
      decide +kernel
    intro t ht hbyte
    simpa [hbyte] using List.all_eq_true.1 hall t (Array.mem_toList_iff.2 ht)

end Source

end ScriptIndent
