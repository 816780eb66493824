import ScriptIndent.Proofs.Embedding.Basic

/-!
# ScriptIndent.Proofs.Embedding.Query

What the questions about tokens answer in a source and in a source around it.

What stands next to a node or a token corresponds, or is found in the larger
source only, and then outside the smaller one (`Answers`).  The tokens between
two anchors, and the tokens of an anchor, correspond one by one.
-/

namespace ScriptIndent

namespace Embedding

variable {s s' : Source} {m : Embedding s s'} {n : Node}

/-! ## anchors -/

/-- An anchor and where it is found. -/
inductive PairsAnchor (m : Embedding s s') : Anchor → Anchor → Prop
  | node {n : Node} (h : m.Domain n) : PairsAnchor m n (m.move n)
  | token {t t' : Token} (h : m.Pairs t t') : PairsAnchor m t t'

variable {a a' b b' : Anchor}

theorem rel_first? (h : m.PairsAnchor a a') :
    Option.Rel m.Pairs (s.first? a) (s'.first? a') := by
  cases h with
  | node h => exact rel_firstOfNode? h
  | token h => exact .some h

theorem rel_last? (h : m.PairsAnchor a a') : Option.Rel m.Pairs (s.last? a) (s'.last? a') := by
  cases h with
  | node h => exact rel_lastOfNode? h respects_isAny
  | token h => exact .some h

/-- Either nothing was found twice, or corresponding tokens were. -/
theorem rel_cases {o o' : Option Token} (h : Option.Rel m.Pairs o o') :
    o = none ∧ o' = none ∨
      ∃ i t t', o = some t ∧ o' = some t' ∧ s.At i t ∧ s'.At (m.skip + i) t' := by
  cases h with
  | none => exact .inl ⟨rfl, rfl⟩
  | some hpairs =>
    obtain ⟨i, ht, ht'⟩ := hpairs
    exact .inr ⟨i, _, _, rfl, rfl, ht, ht'⟩

/-! ## neighbours -/

/-- What two searches find: corresponding tokens, or nothing in the smaller source
and, if anything in the larger one, a token outside the smaller. -/
inductive Answers (m : Embedding s s') : Option Token → Option Token → Prop
  | some {t t' : Token} (h : m.Pairs t t') : Answers m (some t) (some t')
  | none : Answers m none none
  | outside {t' : Token} (h : m.owns t' = false) (hfull : ¬m.Full) : Answers m none (some t')

theorem owns_eq_false {k : Nat} {t' : Token} (ht' : s'.At k t')
    (h : k < m.skip ∨ m.skip + s.tokens.size ≤ k) : m.owns t' = false := by
  rw [owns_eq ht']
  grind

theorem not_full {k : Nat} {t' : Token} (ht' : s'.At k t')
    (h : k < m.skip ∨ m.skip + s.tokens.size ≤ k) : ¬m.Full := by
  rintro ⟨hskip, hsize⟩
  have := (Array.getElem?_eq_some_iff.1 ht').1
  omega

theorem answers_outside {k : Nat} {t' : Token} (ht' : s'.At k t')
    (h : k < m.skip ∨ m.skip + s.tokens.size ≤ k) : m.Answers none (some t') :=
  .outside (owns_eq_false ht' h) (not_full ht' h)

theorem answers_scanDown {keep : Token → Bool} (hkeep : m.Respects keep) {i : Nat}
    (hi : i ≤ s.tokens.size) :
    m.Answers (Source.scanDown s.tokens keep i) (Source.scanDown s'.tokens keep (m.skip + i)) := by
  induction i with
  | zero =>
    rw [Source.scanDown]
    cases hscan : Source.scanDown s'.tokens keep (m.skip + 0) with
    | none => exact .none
    | some t' =>
      obtain ⟨k, hk, ht', -⟩ := Source.scanDown_eq_some hscan
      exact answers_outside ht' (.inl hk)
  | succ i ih =>
    obtain ⟨t, t', ht, ht', hpairs⟩ := rel_getElem? (m := m) (i := i) (by omega)
    rw [← Nat.add_assoc, Source.scanDown, Source.scanDown, ht, ht', Option.filter, Option.filter,
      hkeep t t' hpairs]
    cases keep t with
    | true => exact .some hpairs
    | false => exact ih (by omega)

theorem answers_scanUp {keep : Token → Bool} (hkeep : m.Respects keep) {i : Nat} :
    m.Answers (Source.scanUp s.tokens keep i) (Source.scanUp s'.tokens keep (m.skip + i)) := by
  fun_induction Source.scanUp s.tokens keep i with
  | case1 i hi hkept =>
    obtain ⟨t, t', ht, ht', hpairs⟩ := rel_getElem? (m := m) hi
    obtain ⟨_, rfl⟩ := Array.getElem?_eq_some_iff.1 ht
    obtain ⟨hlt, rfl⟩ := Array.getElem?_eq_some_iff.1 ht'
    unfold Source.scanUp
    rw [dif_pos hlt, if_pos ((hkeep _ _ hpairs).trans hkept)]
    exact .some hpairs
  | case2 i hi hkept ih =>
    obtain ⟨t, t', ht, ht', hpairs⟩ := rel_getElem? (m := m) hi
    obtain ⟨_, rfl⟩ := Array.getElem?_eq_some_iff.1 ht
    obtain ⟨hlt, rfl⟩ := Array.getElem?_eq_some_iff.1 ht'
    have hscan : Source.scanUp s'.tokens keep (m.skip + i) =
        Source.scanUp s'.tokens keep (m.skip + (i + 1)) := by
      conv_lhs => unfold Source.scanUp
      rw [dif_pos hlt, if_neg (by rwa [hkeep _ _ hpairs]), Nat.add_assoc]
    rw [hscan]
    exact ih
  | case3 i hi =>
    cases hscan : Source.scanUp s'.tokens keep (m.skip + i) with
    | none => exact .none
    | some t' =>
      obtain ⟨k, hk, ht', -⟩ := Source.scanUp_eq_some hscan
      exact answers_outside ht' (.inr (by omega))

/-- What stands before corresponding anchors. -/
theorem answers_beforeWhere? {keep : Token → Bool} (hkeep : m.Respects keep)
    (h : m.PairsAnchor a a') : m.Answers (s.beforeWhere? keep a) (s'.beforeWhere? keep a') := by
  rw [Source.beforeWhere?, Source.beforeWhere?]
  rcases rel_cases (rel_first? h) with ⟨ho, ho'⟩ | ⟨i, t, t', ho, ho', ht, ht'⟩
  · rw [ho, ho']
    exact .none
  · rw [ho, ho']
    have hi := (Array.getElem?_eq_some_iff.1 ht).1
    simp only [Option.bind_some, Source.index_of_getElem? ht, Source.index_of_getElem? ht',
      Option.getD_some]
    exact answers_scanDown hkeep (Nat.le_of_lt hi)

/-- What stands behind corresponding anchors. -/
theorem answers_afterWhere? {keep : Token → Bool} (hkeep : m.Respects keep)
    (h : m.PairsAnchor a a') : m.Answers (s.afterWhere? keep a) (s'.afterWhere? keep a') := by
  rw [Source.afterWhere?, Source.afterWhere?]
  rcases rel_cases (rel_last? h) with ⟨ho, ho'⟩ | ⟨i, t, t', ho, ho', ht, ht'⟩
  · rw [ho, ho']
    exact .none
  · rw [ho, ho']
    simp only [Option.bind_some, Source.index_of_getElem? ht, Source.index_of_getElem? ht',
      Option.elim_some]
    exact answers_scanUp hkeep

theorem answers_before? (h : m.PairsAnchor a a') : m.Answers (s.before? a) (s'.before? a') :=
  answers_beforeWhere? respects_isAny h

theorem answers_after? (h : m.PairsAnchor a a') : m.Answers (s.after? a) (s'.after? a') :=
  answers_afterWhere? respects_isAny h

/-- An opening parenthesis stands directly before both anchors or before none. -/
theorem any_before? (h : m.PairsAnchor a a') :
    (s'.before? a').any Token.isOpeningParen = (s.before? a).any Token.isOpeningParen := by
  rw [Source.before?, Source.before?, Source.beforeWhere?, Source.beforeWhere?]
  rcases rel_cases (rel_first? h) with ⟨ho, ho'⟩ | ⟨i, t, t', ho, ho', ht, ht'⟩
  · rw [ho, ho']
    rfl
  · rw [ho, ho']
    have hi := (Array.getElem?_eq_some_iff.1 ht).1
    have hi' := (Array.getElem?_eq_some_iff.1 ht').1
    simp only [Option.bind_some, Source.index_of_getElem? ht, Source.index_of_getElem? ht',
      Option.getD_some]
    rw [Source.scanDown_isAny (Nat.le_of_lt hi), Source.scanDown_isAny (Nat.le_of_lt hi')]
    cases i with
    | zero =>
      rw [if_pos rfl, Option.any_none]
      split
      · rfl
      · next hskip =>
        rw [Option.any_eq_false]
        intro t' ht'
        simp [m.opening (by omega) ht']
    | succ i =>
      obtain ⟨t, t', ht, ht', hpairs⟩ := rel_getElem? (m := m) (i := i) (by omega)
      rw [if_neg (by omega), if_neg (by omega), ← Nat.add_assoc, Nat.add_sub_cancel,
        Nat.add_sub_cancel, ht, ht']
      exact hpairs.isPunctuator "("

/-- What follows corresponding anchors directly corresponds, or is the first token
behind the smaller source. -/
theorem rel_after? (h : m.PairsAnchor a a') :
    Option.Rel m.Pairs (s.after? a) (s'.after? a') ∨
      s.after? a = none ∧ ∃ t', s'.At (m.skip + s.tokens.size) t' ∧ s'.after? a' = some t' := by
  rw [Source.after?, Source.after?, Source.afterWhere?, Source.afterWhere?]
  rcases rel_cases (rel_last? h) with ⟨ho, ho'⟩ | ⟨i, t, t', ho, ho', ht, ht'⟩
  · rw [ho, ho']
    exact .inl .none
  · rw [ho, ho']
    have hi := (Array.getElem?_eq_some_iff.1 ht).1
    simp only [Option.bind_some, Source.index_of_getElem? ht, Source.index_of_getElem? ht',
      Option.elim_some, Source.scanUp_isAny, Nat.add_assoc]
    rcases Nat.lt_or_eq_of_le (Nat.succ_le_of_lt hi) with hlt | heq
    · obtain ⟨t, t', ht, ht', hpairs⟩ := rel_getElem? (m := m) hlt
      rw [ht, ht']
      exact .inl (.some hpairs)
    · rw [Nat.succ_eq_add_one] at heq
      rw [heq, Array.getElem?_eq_none (Nat.le_refl _)]
      cases hget : s'.tokens[m.skip + s.tokens.size]? with
      | none => exact .inl .none
      | some t' => exact .inr ⟨rfl, t', hget, rfl⟩

/-! ## stretches -/

/-- Tokens that correspond one by one. -/
abbrev PairsAll (m : Embedding s s') : List Token → List Token → Prop := List.Forall₂ m.Pairs

theorem rel_extract {i j : Nat} (hj : j ≤ s.tokens.size) :
    m.PairsAll (s.tokens.extract i j).toList
      (s'.tokens.extract (m.skip + i) (m.skip + j)).toList := by
  have hfits := m.fits
  refine List.forall₂_iff_get.2 ⟨?_, ?_⟩
  · simp only [Array.length_toList, Array.size_extract]
    omega
  · intro k hk hk'
    simp only [Array.length_toList, Array.size_extract] at hk hk'
    obtain ⟨t, t', ht, ht', hpairs⟩ := rel_getElem? (m := m) (i := i + k) (by omega)
    rw [← Nat.add_assoc] at ht'
    obtain ⟨_, rfl⟩ := Array.getElem?_eq_some_iff.1 ht
    obtain ⟨_, rfl⟩ := Array.getElem?_eq_some_iff.1 ht'
    simpa using hpairs

theorem rel_filter {keep : Token → Bool} (hkeep : m.Respects keep) {ts ts' : List Token}
    (h : m.PairsAll ts ts') : m.PairsAll (ts.filter keep) (ts'.filter keep) := by
  induction h with
  | nil => exact .nil
  | cons hpairs _ ih =>
    rw [List.filter_cons, List.filter_cons, hkeep _ _ hpairs]
    split
    · exact .cons hpairs ih
    · exact ih

/-- The tokens between corresponding anchors. -/
theorem rel_betweenWhere {keep : Token → Bool} (hkeep : m.Respects keep)
    (ha : m.PairsAnchor a a') (hb : m.PairsAnchor b b') :
    m.PairsAll (s.betweenWhere keep a b) (s'.betweenWhere keep a' b') := by
  rw [Source.betweenWhere, Source.betweenWhere]
  rcases rel_cases (rel_last? ha) with ⟨ho, ho'⟩ | ⟨i, t, t', ho, ho', ht, ht'⟩
  · rw [ho, ho']
    exact .nil
  rcases rel_cases (rel_first? hb) with ⟨hp, hp'⟩ | ⟨j, u, u', hp, hp', hu, hu'⟩
  · rw [ho, ho', hp, hp']
    exact .nil
  rw [ho, ho', hp, hp']
  have hj := (Array.getElem?_eq_some_iff.1 hu).1
  simp only [Source.index_of_getElem? ht, Source.index_of_getElem? ht',
    Source.index_of_getElem? hu, Source.index_of_getElem? hu', Option.elim_some,
    Option.getD_some, Nat.add_assoc]
  exact rel_filter hkeep (rel_extract (Nat.le_of_lt hj))

theorem rel_between (ha : m.PairsAnchor a a') (hb : m.PairsAnchor b b') :
    m.PairsAll (s.between a b) (s'.between a' b') :=
  rel_betweenWhere respects_isAny ha hb

/-- The tokens of corresponding anchors. -/
theorem rel_tokensOf (ha : m.PairsAnchor a a') :
    m.PairsAll (s.tokensOf a) (s'.tokensOf a') := by
  rw [Source.tokensOf, Source.tokensOf]
  rcases rel_cases (rel_first? ha) with ⟨ho, ho'⟩ | ⟨i, t, t', ho, ho', ht, ht'⟩
  · rw [ho, ho']
    exact .nil
  rcases rel_cases (rel_last? ha) with ⟨hp, hp'⟩ | ⟨j, u, u', hp, hp', hu, hu'⟩
  · rw [ho, ho', hp, hp']
    exact .nil
  rw [ho, ho', hp, hp']
  have hj := (Array.getElem?_eq_some_iff.1 hu).1
  simp only [Source.index_of_getElem? ht, Source.index_of_getElem? ht',
    Source.index_of_getElem? hu, Source.index_of_getElem? hu', Option.elim_some,
    Option.getD_some, Nat.add_assoc]
  exact rel_extract hj

private theorem takeWhile_append_of_neg {p : Token → Bool} {ts us : List Token}
    (h : ∀ u ∈ us, p u = false) : (ts ++ us).takeWhile p = ts.takeWhile p := by
  induction ts with
  | nil =>
    cases us with
    | nil => rfl
    | cons u rest => simp [h u List.mem_cons_self]
  | cons t rest ih => simp only [List.cons_append, List.takeWhile_cons, ih]

theorem rel_takeWhile {p p' : Token → Bool} {ts ts' : List Token} (h : m.PairsAll ts ts')
    (hp : ∀ t t', m.Pairs t t' → p' t' = p t) :
    m.PairsAll (ts.takeWhile p) (ts'.takeWhile p') := by
  induction h with
  | nil => exact .nil
  | cons hpairs _ ih =>
    rw [List.takeWhile_cons, List.takeWhile_cons, hp _ _ hpairs]
    split
    · exact .cons hpairs ih
    · exact .nil

/-- The first tokens of corresponding nodes.  What follows the smaller source in
the larger one starts behind the node. -/
theorem rel_firsts (hn : m.Domain n) (count : Nat) :
    m.PairsAll (s.firsts n count) (s'.firsts (m.move n) count) := by
  rw [Source.firsts, Source.firsts]
  rcases rel_cases (rel_first? (.node hn)) with ⟨ho, ho'⟩ | ⟨i, t, t', ho, ho', ht, ht'⟩
  · rw [ho, ho']
    exact .nil
  rw [ho, ho']
  simp only [Source.index_of_getElem? ht, Source.index_of_getElem? ht', Option.getD_some]
  change m.PairsAll ((s.tokens.extract i (i + count)).toList.takeWhile (·.start < n.stop))
    ((s'.tokens.extract (m.skip + i) (m.skip + i + count)).toList.takeWhile
      (·.start < (m.move n).stop))
  have hi := (Array.getElem?_eq_some_iff.1 ht).1
  -- the stretch in the larger source may go on behind the smaller one
  obtain ⟨e, he⟩ : ∃ e, e = min (i + count) s.tokens.size := ⟨_, rfl⟩
  have hsmall : s.tokens.extract i (i + count) = s.tokens.extract i e := by
    rw [Array.extract_eq_extract_right]
    omega
  have hlarge : s'.tokens.extract (m.skip + i) (m.skip + i + count) =
      s'.tokens.extract (m.skip + i) (m.skip + e) ++
        s'.tokens.extract (m.skip + e) (m.skip + i + count) := by
    rw [Array.extract_append_extract, Nat.min_eq_left (by omega), Nat.max_eq_right (by omega)]
  have hbehind : ∀ u ∈ (s'.tokens.extract (m.skip + e) (m.skip + i + count)).toList,
      decide (u.start < (m.move n).stop) = false := by
    intro u hu
    obtain ⟨k, hk, hki, hget⟩ := Source.mem_extract hu
    exact decide_eq_false (Int.not_lt.2 (m.behind hn (by omega) hget))
  rw [hsmall, hlarge, Array.toList_append, takeWhile_append_of_neg hbehind]
  refine rel_takeWhile (rel_extract (by omega)) fun u u' hpairs => ?_
  obtain ⟨k, hu, hu'⟩ := hpairs
  exact decide_eq_decide.2 (m.start_lt hn hu hu')

end Embedding

end ScriptIndent
