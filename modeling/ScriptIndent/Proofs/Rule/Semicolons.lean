import ScriptIndent.Proofs.Rule.Bodies

/-!
# ScriptIndent.Proofs.Rule.Semicolons

Semicolons at the end of statements.

```
if (a)
    b
    ;        ends both statements, and is flush with the inner one
```

All statements that end with the same semicolon place it, one after the other from the outside in
(`Source.Closes`).  What is visited within the innermost one and behind it does not reach the
semicolon, if no other constructs end with a semicolon than statements and what may hold one at its
end (`Source.Punctuated`).  So the innermost one has the last word (`Source.get?_of_closes`).
-/

namespace ScriptIndent

/-- Of the members of a list with a property there is a last one. -/
theorem exists_last_of_mem {α : Type} {P : α → Prop} {xs : List α} (h : ∃ x ∈ xs, P x) :
    ∃ front x rest, xs = front ++ x :: rest ∧ P x ∧ ∀ y ∈ rest, ¬P y := by
  induction xs with
  | nil => simp at h
  | cons a xs ih =>
    by_cases htail : ∃ x ∈ xs, P x
    · obtain ⟨front, x, rest, rfl, hx, hrest⟩ := ih htail
      exact ⟨a :: front, x, rest, rfl, hx, hrest⟩
    · obtain ⟨x, hmem, hx⟩ := h
      obtain rfl : x = a := (List.mem_cons.1 hmem).resolve_right fun hmem => htail ⟨x, hmem, hx⟩
      exact ⟨[], x, xs, rfl, hx, fun y hy hP => htail ⟨y, hy, hP⟩⟩

namespace Source

/-- The token at a place is the last one of a statement of more than one token, or it follows a
class field. -/
def Closes (s : Source) (n : Node) (l : Nat) : Prop :=
  ∃ i j, s.Stands n i j ∧ i < l ∧ (Construct.isStatementKind n.kind = true ∧ l + 1 = j ∨
    n.kind = "field_definition" ∧ l = j)

/-- What may end with a semicolon, among the constructs that have rules: statements, the clauses
that hold them, and programs.  A class field ends before its semicolon, and the clauses of a switch
statement stand in braces. -/
structure Punctuated (s : Source) : Prop where
  last : ∀ place ∈ s.root.visited [], (Construct.ofKind? place.node.kind).isSome →
    ∀ t ∈ s.last? place.node, t.isSemicolon = true →
      Construct.isStatementKind place.node.kind = true ∧ place.node.kind ≠ "field_definition" ∨
        place.node.kind ∈ ["program", "else_clause", "switch_case", "switch_default"]
  clauses : ∀ m : Node, m.Within s.root → ∀ c ∈ m.codeChildren,
    c.kind ∈ ["switch_case", "switch_default"] →
      m.kind = "switch_body" ∧ m.Enclosed s.buffer "\x7b" "\x7d"

variable {s : Source} {n : Node} {ancestors : List Node} {caseLevels : Int} {i j l : Nat}
  {semicolon : Token}

private theorem isParen_of_isSemicolon {t : Token} (h : t.isSemicolon = true) :
    t.isOpeningParen = false ∧ t.isClosingParen = false := by
  simp only [Token.isSemicolon, Token.isPunctuator, Bool.and_eq_true, beq_iff_eq] at h
  simp [Token.isOpeningParen, Token.isClosingParen, Token.isPunctuator, h.2]

/-- Before a semicolon at the end of a balanced statement, or behind a balanced class field, no
parenthesis opens. -/
theorem Closes.calm (h : s.Closes n l) (hbalanced : parenDepth 0 (s.tokensOf n) = some 0)
    (hl : s.At l semicolon) (hsemicolon : semicolon.isSemicolon = true) : s.Calm l := by
  obtain ⟨i, j, hn, hil, hends⟩ := h
  have hparen := isParen_of_isSemicolon hsemicolon
  have hlast : parenDepth 0 (s.tokens.extract i l).toList = some 0 := by
    have hij : i < j := by rcases hends with ⟨-, rfl⟩ | ⟨-, rfl⟩ <;> omega
    rw [(hn.ends hij).tokensOf_eq] at hbalanced
    rcases hends with ⟨-, rfl⟩ | ⟨-, rfl⟩
    · rw [toList_extract_split (Nat.le_of_lt hil) (Nat.le_succ l), toList_extract_succ hl,
        parenDepth_append, Option.bind_eq_some_iff] at hbalanced
      obtain ⟨depth, hdepth, hrest⟩ := hbalanced
      rw [hdepth]
      simpa [parenDepth, hparen.1, hparen.2] using hrest
    · exact hbalanced
  refine ⟨fun {t} ht => ?_, fun {k t} hk ht => ?_⟩
  · obtain rfl := Option.mem_unique hl ht
    exact hparen.2
  · subst hk
    rw [toList_extract_split (by omega : i ≤ k) (Nat.le_succ k), toList_extract_succ ht] at hlast
    exact isOpeningParen_of_parenDepth hlast

end Source

namespace Rule

open Draft

variable {s : Source} {n : Node} {ancestors : List Node} {caseLevels : Int} {i j l : Nat}
  {semicolon : Token}

/-- What statements and expressions have in common is recorded last. -/
theorem visit?_records_of_common (g : s.root.Grammatical s.buffer)
    (hplace : ⟨n, ancestors⟩ ∈ s.root.visited []) {draft : Draft Unit}
    (hdraft : visit? s caseLevels ⟨n, ancestors⟩ = some draft) {e : Entry} (he : e ∈ common s n)
    (hunique : ∀ d ∈ common s n, d.token = e.token → d = e) : draft.Records e := by
  obtain ⟨-, a, hok, -⟩ := visit?_meets g hplace caseLevels hdraft
  obtain ⟨construct, -, rfl⟩ := Option.map_eq_some_iff.1 hdraft
  exact records_of_ok ⟨a, hok⟩ fun _ _ _ => records_write he hunique

/-- A statement trails the semicolon that closes it. -/
theorem trails_of_closes (hn : s.Stands n i j) (hil : i < l) (hl : s.At l semicolon)
    (hsemicolon : semicolon.isSemicolon = true)
    (hends : n.kind ≠ "field_definition" ∧ l + 1 = j ∨ n.kind = "field_definition" ∧ l = j)
    (hnext : ∀ t, s.At (l + 1) t → semicolon.line < t.line) : Trails s n semicolon := by
  refine ⟨?_, ?_⟩
  · rw [closingSemicolon?, Option.filter_eq_some_iff, Option.or_eq_some_iff]
    refine ⟨?_, hsemicolon⟩
    rcases hends with ⟨hkind, rfl⟩ | ⟨hkind, rfl⟩
    · exact .inr ⟨by simp [hkind], (hn.ends (by omega)).last?_eq.trans hl⟩
    · refine .inl ?_
      rw [if_pos (by simp [hkind]), (hn.ends hil).after?_eq,
        show s.tokens[l]? = some semicolon from hl, Option.filter_some, if_pos hsemicolon]
  · rw [(Source.ends_token hl).after?_eq]
    cases hat : s.tokens[l + 1]? with
    | none => rfl
    | some t => simpa using hnext t hat

end Rule

namespace Source

variable {s : Source} {n : Node} {ancestors : List Node} {caseLevels : Int} {i j l : Nat}
  {semicolon : Token}

section Closing

variable (h : s.Orderly) (hpunctuated : s.Punctuated) (hl : s.At l semicolon)
  (hsemicolon : semicolon.isSemicolon = true)

include h hpunctuated hl hsemicolon

/-- A construct in a statement that reaches over the semicolon at the statement's end ends there,
too, or it writes nothing. -/
theorem closes_of_over {p q : Node.Placed} {a b : Nat} (hp : p ∈ s.root.visited [])
    (hstatement : Construct.isStatementKind p.node.kind = true)
    (hpn : s.Stands p.node i (l + 1)) (hq : q ∈ p.node.visited p.ancestors)
    (hprogram : q.node.kind ≠ "program") (hqn : s.Stands q.node a b) (hal : a < l) (hlb : l < b)
    (hrule : (Construct.ofKind? q.node.kind).isSome) : s.Closes q.node l ∨ q.node.IsSilent := by
  have hvisited := Node.visited_subset hp
  obtain ⟨-, hbl⟩ := hpn.le_of_within hqn (by omega) (Node.within_of_mem_visited hq)
  obtain rfl : b = l + 1 := by omega
  rcases hpunctuated.last q (hvisited hq) hrule semicolon ((hqn.ends (by omega)).last?_eq.trans hl)
    hsemicolon with ⟨hkind, -⟩ | hkind
  · exact .inl ⟨a, l + 1, hqn, hal, .inl ⟨hkind, rfl⟩⟩
  simp only [List.mem_cons, List.not_mem_nil, or_false] at hkind
  have hclause (hclause : q.node.kind ∈ ["switch_case", "switch_default"]) : False := by
    rcases Node.mem_visited hq with rfl | ⟨parent, hparent, hparentRule, hmem, -⟩
    · simp only [List.mem_cons, List.not_mem_nil, or_false] at hclause
      rcases hclause with hclause | hclause <;> simp [hclause, Construct.isStatementKind,
        Construct.statementKinds] at hstatement
    -- the brace behind the clauses would have to stand in the statement
    obtain ⟨hbody, henclosed⟩ := hpunctuated.clauses parent.node
      (Node.within_of_mem_visited (hvisited hparent)) q.node hmem hclause
    obtain ⟨c, d, hstands⟩ := (found_of_visited h.grammatical (hvisited hparent)).exists_stands_of_kind
      hparentRule (by rw [hbody]; decide)
    obtain ⟨hcd, -, -, hinner⟩ := hstands.enclosed henclosed (by decide) (by decide)
    obtain ⟨a', b', -, hab, hbd, hchild⟩ := hinner q.node hmem
    obtain ⟨rfl, rfl⟩ := hqn.unique (by omega) hchild
    have := (hpn.le_of_within hstands (by omega) (Node.within_of_mem_visited hparent)).2
    omega
  rcases hkind with hkind | hkind | hkind | hkind
  · exact absurd hkind hprogram
  · right
    rw [Node.IsSilent, hkind]
    decide
  · exact (hclause (by simp [hkind])).elim
  · exact (hclause (by simp [hkind])).elim

/-- Nothing that follows the last construct to close with a semicolon places the semicolon. -/
theorem not_mem_writes_of_follows {p q : Node.Placed} {places rest : List Node.Placed}
    (hsplit : s.root.visited [] = places ++ p :: rest) (hp : s.Closes p.node l)
    (hlast : ∀ q ∈ rest, ¬s.Closes q.node l) (hq : q ∈ rest) {draft : Draft Unit}
    (hdraft : Rule.visit? s caseLevels q = some draft) {e : Entry} (he : e ∈ draft.writes) :
    e.token ≠ semicolon := by
  have g := h.grammatical
  have hpVisited : p ∈ s.root.visited [] := by simp [hsplit]
  have hqVisited : q ∈ s.root.visited [] := by simp [hsplit, hq]
  have hprogram : q.node.kind ≠ "program" := by
    refine h.programs _ (below_root_of_mem_tail ?_)
    rw [hsplit]
    cases places with
    | nil => exact hq
    | cons x places => simp [hq]
  have hrule : (Construct.ofKind? q.node.kind).isSome := by
    obtain ⟨construct, hconstruct, -⟩ := Option.map_eq_some_iff.1 hdraft
    exact Option.isSome_iff_exists.2 ⟨construct, hconstruct⟩
  have hcalm := hp.calm (h.balanced p hpVisited) hl hsemicolon
  obtain ⟨i, j, hn, hil, hends⟩ := hp
  have hij : i < j := by rcases hends with ⟨-, rfl⟩ | ⟨-, rfl⟩ <;> omega
  obtain ⟨a, b, k, hm, hab, hk, hreaches⟩ := (Rule.visit?_reaches g hqVisited caseLevels hdraft).1 e he
  rintro rfl
  obtain rfl := eq_of_getElem? hk hl
  by_cases hover : a < k ∧ k < b
  · obtain ⟨below, behind, rfl, hbelow, hbehind⟩ := Node.visited_cut g.nested hsplit
    rcases List.mem_append.1 hq with hmem | hmem
    · have hmem : q ∈ p.node.visited p.ancestors := by simp [hbelow, hmem]
      rcases hends with ⟨hstatement, rfl⟩ | ⟨-, rfl⟩
      · rcases closes_of_over h hpunctuated hl hsemicolon hpVisited hstatement hn hmem hprogram hm
          hover.1 hover.2 hrule with hcloses | hsilent
        · exact hlast q hq hcloses
        · simp [writes_of_isSilent hsilent hdraft] at he
      · have := hn.le_of_within hm hab (Node.within_of_mem_visited hmem)
        omega
    · have := hn.le_of_stop_le hij hm hab (hbehind q hmem)
      rcases hends with ⟨-, rfl⟩ | ⟨-, rfl⟩ <;> omega
  · exact hreaches.elim hcalm hprogram (by omega) fun hkind hkb =>
      hlast q hq ⟨a, b, hm, by omega, .inr ⟨hkind, hkb⟩⟩

/-- Of the constructs that close with a semicolon the innermost one has the last word. -/
theorem get?_of_closes (hcloses : ∃ place ∈ s.root.visited [], s.Closes place.node l)
    (hnext : ∀ t, s.At (l + 1) t → semicolon.line < t.line) (caseLevels : Int) :
    ∃ place ∈ s.root.visited [], ∃ i j start, s.Stands place.node i j ∧ s.At i start ∧ i < l ∧ i < j ∧
      s.Closes place.node l ∧
      (∀ other ∈ s.root.visited [], s.Closes other.node l → place.node.Within other.node) ∧
      (s.analyze caseLevels).registry.get? semicolon = some ⟨semicolon, some start, 0⟩ := by
  have g := h.grammatical
  obtain ⟨places, p, rest, hsplit, hclose, hlast⟩ := exists_last_of_mem hcloses
  have hp : p ∈ s.root.visited [] := by simp [hsplit]
  have hkept : ∀ q ∈ rest, ∀ draft, Rule.visit? s caseLevels q = some draft →
      ∀ d ∈ draft.writes, d.token ≠ semicolon := fun q hq draft hdraft d hd =>
    not_mem_writes_of_follows h hpunctuated hl hsemicolon hsplit hclose hlast hq hdraft hd
  obtain ⟨i, j, hn, hil, hends⟩ := hclose
  have hij : i < j := by rcases hends with ⟨-, rfl⟩ | ⟨-, rfl⟩ <;> omega
  obtain ⟨start, hstart, hfirst⟩ := (hn.ends hij).exists_first?
  refine ⟨p, hp, i, j, start, hn, hstart, hil, hij, ⟨i, j, hn, hil, hends⟩,
    fun q hq hcloses => ?_, ?_⟩
  · -- what closes with the semicolon and is visited before lies around
    rw [hsplit, List.mem_append, List.mem_cons] at hq
    rcases hq with hq | rfl | hq
    · obtain ⟨front, back, rfl⟩ := List.append_of_mem hq
      have hfollows := Node.visited_split g.nested
        (show s.root.visited [] = front ++ q :: (back ++ p :: rest) by simp [hsplit]) p (by simp)
      rcases hfollows with hbelow | hbehind
      · exact hbelow.within
      · obtain ⟨a, b, hm, hal, hqends⟩ := hcloses
        have hab : a < b := by rcases hqends with ⟨-, rfl⟩ | ⟨-, rfl⟩ <;> omega
        have := hm.le_of_stop_le hab hn hij hbehind
        rcases hqends with ⟨-, rfl⟩ | ⟨-, rfl⟩ <;> omega
    · exact .refl _
    · exact absurd hcloses (hlast q hq)
  · have hstatement : Construct.isStatementKind p.node.kind = true := by
      rcases hends with ⟨hkind, -⟩ | ⟨hkind, -⟩
      · exact hkind
      · rw [hkind]
        decide
    have hends : p.node.kind ≠ "field_definition" ∧ l + 1 = j ∨
        p.node.kind = "field_definition" ∧ l = j := by
      refine hends.imp_left fun ⟨_, hlj⟩ => ⟨fun hkind => ?_, hlj⟩
      subst hlj
      rcases hpunctuated.last p hp (by rw [hkind]; decide) semicolon
        ((hn.ends hij).last?_eq.trans hl) hsemicolon with ⟨-, hne⟩ | hmem
      · exact hne hkind
      · rw [hkind] at hmem
        exact absurd hmem (by decide)
    obtain ⟨construct, hrule⟩ := Rule.exists_ofKind? (.inl hstatement)
    have hdraft := Rule.visit?_eq hrule s caseLevels p.ancestors
    have htrails := Rule.trails_of_closes hn hil hl hsemicolon hends hnext
    have hne : semicolon ≠ start := by
      rintro rfl
      have := eq_of_getElem? hl hstart
      omega
    have hcommon := Rule.common_eq_of_isStatementKind (s := s) hstatement
    refine get?_analyze_of_records (e := ⟨semicolon, some start, 0⟩) g hsplit hdraft
      (Rule.visit?_records_of_common g hp hdraft ?_ ?_) fun q hq draft hdraft d hd heq =>
        absurd heq (hkept q hq draft hdraft d hd)
    · exact hcommon ▸ (Rule.mem_trailingSemicolon hfirst).2 ⟨htrails, hne, rfl⟩
    · rw [hcommon]
      intro d hd heq
      have hentry := ((Rule.mem_trailingSemicolon hfirst).1 hd).2.2
      rwa [show d.token = semicolon from heq] at hentry

end Closing

end Source

end ScriptIndent
