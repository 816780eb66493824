import ScriptIndent.Proofs.Rule.Parens

/-!
# ScriptIndent.Proofs.Rule.Wrapping

The pairs of parentheses around an expression.

```
( ( ( x ) )         two openings stand directly before x and two closings directly behind it: two
    i   j           pairs; the outermost opening is left alone
```

As many pairs are recorded as there are parentheses on both sides of the expression, each relative
to the next one outwards, and nothing else is (`Registry.wraps_record`).  The sides are not matched
against each other.  They match nevertheless, if the expression itself is balanced
(`Source.mem_parenPairs_of_around`).
-/

namespace ScriptIndent

namespace Source

variable {s : Source} {i j m : Nat} {t : Token}

/-- The parentheses that open directly before a place, the nearest first. -/
def opensBefore (s : Source) (i : Nat) : List Token :=
  (s.tokens.toList.take i).reverse.takeWhile Token.isOpeningParen

/-- The parentheses that close from a place on. -/
def closesFrom (s : Source) (j : Nat) : List Token :=
  (s.tokens.toList.drop j).takeWhile Token.isClosingParen

theorem openersBelow_eq (hi : i ≤ s.tokens.size) :
    Rule.openersBelow s.tokens i = s.opensBefore i := by
  induction i with
  | zero => rfl
  | succ i ih =>
    have hget : s.tokens[i]? = some s.tokens[i] := Array.getElem?_eq_getElem hi
    have hlist : s.tokens.toList[i]? = some s.tokens[i] := by rw [Array.getElem?_toList, hget]
    rw [Rule.openersBelow, opensBefore, List.take_add_one, hlist, hget, Option.toList_some,
      List.reverse_append, List.reverse_singleton, List.singleton_append, List.takeWhile_cons,
      ← opensBefore, ← ih (by omega), Option.filter_some]
    by_cases hopening : s.tokens[i].isOpeningParen = true <;> simp [hopening]

theorem closersFrom_eq (s : Source) (j : Nat) :
    Rule.closersFrom s.tokens j = s.closesFrom j := by
  unfold closesFrom
  fun_induction Rule.closersFrom s.tokens j with
  | case1 j hj hclosing ih =>
    rw [List.drop_eq_getElem_cons (by simpa using hj), List.takeWhile_cons, ih]
    simp [hclosing]
  | case2 j hj hclosing =>
    rw [List.drop_eq_getElem_cons (by simpa using hj), List.takeWhile_cons]
    simp [hclosing]
  | case3 j hj => simp [List.drop_eq_nil_of_le (Nat.le_of_not_lt hj)]

/-- Where the parentheses directly before a place stand. -/
theorem at_of_opensBefore (hi : i ≤ s.tokens.size) (h : (s.opensBefore i)[m]? = some t) :
    m < i ∧ s.At (i - 1 - m) t ∧ t.isOpeningParen = true :=
  Rule.getElem?_openersBelow (openersBelow_eq hi ▸ h)

/-- Where the parentheses from a place on stand. -/
theorem at_of_closesFrom (h : (s.closesFrom j)[m]? = some t) :
    s.At (j + m) t ∧ t.isClosingParen = true :=
  Rule.getElem?_closersFrom (closersFrom_eq s j ▸ h)

/-- What the parentheses before a place wrap from the inside out stands there, place by place. -/
theorem at_of_cons_opensBefore {first : Token} (hi : i ≤ s.tokens.size) (hfirst : s.At i first)
    (h : (first :: s.opensBefore i)[m]? = some t) : m ≤ i ∧ s.At (i - m) t := by
  cases m with
  | zero => exact ⟨Nat.zero_le i, Option.some.inj h ▸ hfirst⟩
  | succ m =>
    obtain ⟨hlt, hat, -⟩ := at_of_opensBefore hi (List.getElem?_cons_succ ▸ h)
    exact ⟨hlt, by rwa [show i - (m + 1) = i - 1 - m by omega]⟩

theorem Ordered.exists_covers (h : s.Ordered) {n : Node}
    (htoken : ∃ t ∈ s.tokens, t.start < n.stop ∧ n.start < t.stop) :
    ∃ i j, s.Covers n i j := h.ascending.exists_covers htoken

/-- The parentheses on both sides of a balanced stretch belong together, from the inside out. -/
theorem mem_parenPairs_of_around (hij : i ≤ j) (hj : j ≤ s.tokens.size)
    (hbalanced : parenDepth 0 (s.tokens.extract i j).toList = some 0) {left right : Token}
    (hleft : (s.opensBefore i)[m]? = some left) (hright : (s.closesFrom j)[m]? = some right) :
    (left, right) ∈ parenPairs [] s.tokens.toList := by
  have hi : i ≤ s.tokens.size := Nat.le_trans hij hj
  obtain ⟨hmi, hleftAt, hopening⟩ := at_of_opensBefore hi hleft
  obtain ⟨hrightAt, hclosing⟩ := at_of_closesFrom hright
  have hjm := (Array.getElem?_eq_some_iff.1 hrightAt).1
  have hopens : ∀ t ∈ (s.tokens.extract (i - m) i).toList, t.isOpeningParen = true := by
    refine forall_extract fun k hk hki => ?_
    have hlt : i - 1 - k < (s.opensBefore i).length := by
      have := (List.getElem?_eq_some_iff.1 hleft).1
      omega
    obtain ⟨-, hat, hparen⟩ := at_of_opensBefore hi (List.getElem?_eq_getElem hlt)
    exact ⟨_, by rwa [show i - 1 - (i - 1 - k) = k by omega] at hat, hparen⟩
  have hcloses : ∀ t ∈ (s.tokens.extract j (j + m)).toList, t.isClosingParen = true := by
    refine forall_extract fun k hjk hk => ?_
    have hlt : k - j < (s.closesFrom j).length := by
      have := (List.getElem?_eq_some_iff.1 hright).1
      omega
    obtain ⟨hat, hparen⟩ := at_of_closesFrom (List.getElem?_eq_getElem hlt)
    exact ⟨_, by rwa [show j + (k - j) = k by omega] at hat, hparen⟩
  refine mem_parenPairs hleftAt hopening hrightAt hclosing (by omega) ?_
  rw [show i - 1 - m + 1 = i - m by omega,
    toList_extract_split (Nat.sub_le i m) (by omega : i ≤ j + m),
    toList_extract_split hij (Nat.le_add_right j m)]
  refine parenDepth_wrap hopens hbalanced hcloses ?_
  rw [length_extract hi, length_extract (by omega)]
  omega

end Source

namespace Registry

/-- One registry becomes another when each of some pairs of parentheses, the innermost first, is
recorded around a token: what the pair wraps is one level deeper than its opening parenthesis, and
its closing one is flush with that. -/
structure Wraps (r r' : Registry) (first : Token) (openers closers : List Token) : Prop where
  pair {m : Nat} {inner left right : Token} : (first :: openers)[m]? = some inner →
    openers[m]? = some left → closers[m]? = some right →
      r'.get? inner = some ⟨inner, some left, 1⟩ ∧ r'.get? right = some ⟨right, some left, 0⟩
  /-- No more is recorded. -/
  other {t : Token} : t ∉ (first :: openers).take (min openers.length closers.length) →
    t ∉ closers.take (min openers.length closers.length) → r'.get? t = r.get? t
  ignored : r'.ignored = r.ignored

variable {s : Source} {n : Node} {i j : Nat}

/-- What the parentheses around a node are recorded as. -/
theorem mem_wrappingParentheses_iff (h : s.Ends n i j) {first : Token} (hfirst : s.At i first)
    {e : Entry} : e ∈ Rule.wrappingParentheses s n ↔ ∃ (m : Nat) (inner left right : Token),
      (first :: s.opensBefore i)[m]? = some inner ∧ (s.opensBefore i)[m]? = some left ∧
        (s.closesFrom j)[m]? = some right ∧
          (e = ⟨inner, some left, 1⟩ ∨ e = ⟨right, some left, 0⟩) := by
  have hi : i ≤ s.tokens.size := Nat.le_of_lt (Nat.lt_of_lt_of_le h.lt h.le_size)
  rw [Rule.wrappingParentheses_eq, h.first?_eq.trans hfirst, Rule.wrappers_eq_of_ends h,
    Source.openersBelow_eq hi, Source.closersFrom_eq]
  simp only [Rule.mem_unwrap_iff, List.getElem?_zip_eq_some]
  -- the parentheses up to a pair are those of the pairs up to it
  have hinner {m : Nat} {inner left right : Token} (hleft : (s.opensBefore i)[m]? = some left)
      (hright : (s.closesFrom j)[m]? = some right) :
      (first :: ((s.opensBefore i).zip (s.closesFrom j)).map Prod.fst)[m]? = some inner ↔
        (first :: s.opensBefore i)[m]? = some inner := by
    cases m with
    | zero => rfl
    | succ m =>
      have hopener := List.getElem?_eq_getElem
        (Nat.lt_of_succ_lt (List.getElem?_eq_some_iff.1 hleft).1)
      have hcloser := List.getElem?_eq_getElem
        (Nat.lt_of_succ_lt (List.getElem?_eq_some_iff.1 hright).1)
      have hpair : ((s.opensBefore i).zip (s.closesFrom j))[m]? = some (_, _) :=
        List.getElem?_zip_eq_some.2 ⟨hopener, hcloser⟩
      rw [List.getElem?_cons_succ, List.getElem?_cons_succ, List.getElem?_map, hpair, hopener]
      rfl
  constructor
  · rintro ⟨m, ⟨left, right⟩, inner, ⟨hleft, hright⟩, hmem, hcases⟩
    exact ⟨m, inner, left, right, (hinner hleft hright).1 hmem, hleft, hright,
      hcases.imp And.right And.right⟩
  · rintro ⟨m, inner, left, right, hmem, hleft, hright, hcases⟩
    refine ⟨m, (left, right), inner, ⟨hleft, hright⟩, (hinner hleft hright).2 hmem, ?_⟩
    obtain ⟨hmi, hleftAt, hopening⟩ := Source.at_of_opensBefore hi hleft
    have hinner : inner ≠ left := by
      rintro rfl
      have := Source.eq_of_getElem? (Source.at_of_cons_opensBefore hi hfirst hmem).2 hleftAt
      omega
    have hcloser : right ≠ left := by
      rintro rfl
      have hclosing := (Source.at_of_closesFrom hright).2
      simp [isOpeningParen_eq_false hclosing] at hopening
    exact hcases.imp (.intro hinner) (.intro hcloser)

/-- No token is recorded twice for the parentheses around a node. -/
theorem eq_of_mem_wrappingParentheses (h : s.Ends n i j) {d e : Entry}
    (hd : d ∈ Rule.wrappingParentheses s n) (he : e ∈ Rule.wrappingParentheses s n)
    (heq : d.token = e.token) : d = e := by
  have hij := h.lt
  have hi : i ≤ s.tokens.size := Nat.le_of_lt (Nat.lt_of_lt_of_le hij h.le_size)
  obtain ⟨first, hfirst, -⟩ := h.exists_first?
  obtain ⟨m, inner, left, right, hinner, hleft, hright, hcases⟩ :=
    (mem_wrappingParentheses_iff h hfirst).1 hd
  obtain ⟨m', inner', left', right', hinner', hleft', hright', hcases'⟩ :=
    (mem_wrappingParentheses_iff h hfirst).1 he
  obtain ⟨hmi, hinner⟩ := Source.at_of_cons_opensBefore hi hfirst hinner
  obtain ⟨hmi', hinner'⟩ := Source.at_of_cons_opensBefore hi hfirst hinner'
  obtain ⟨hright, -⟩ := Source.at_of_closesFrom hright
  obtain ⟨hright', -⟩ := Source.at_of_closesFrom hright'
  rcases hcases with rfl | rfl <;> rcases hcases' with rfl | rfl
  · obtain rfl : inner = inner' := heq
    have := Source.eq_of_getElem? hinner hinner'
    obtain rfl : m = m' := by omega
    rw [Option.mem_unique hleft hleft']
  · obtain rfl : inner = right' := heq
    have := Source.eq_of_getElem? hinner hright'
    omega
  · obtain rfl : right = inner' := heq
    have := Source.eq_of_getElem? hright hinner'
    omega
  · obtain rfl : right = right' := heq
    have := Source.eq_of_getElem? hright hright'
    obtain rfl : m = m' := by omega
    rw [Option.mem_unique hleft hleft']

/-- Recording what the parentheses around a node place does no more and no less. -/
theorem wraps_record (h : s.Ends n i j) {first : Token} (hfirst : s.At i first) (r : Registry) :
    r.Wraps (r.record (Rule.wrappingParentheses s n)) first (s.opensBefore i) (s.closesFrom j) where
  pair {m inner left right} hinner hleft hright := by
    have hrecord {e : Entry} (he : e ∈ Rule.wrappingParentheses s n) :
        (r.record (Rule.wrappingParentheses s n)).get? e.token = some e :=
      get?_record_of_mem he fun d hd => eq_of_mem_wrappingParentheses h hd he
    have hmem := (mem_wrappingParentheses_iff (e := ⟨inner, some left, 1⟩) h hfirst).2
      ⟨m, inner, left, right, hinner, hleft, hright, .inl rfl⟩
    have hmem' := (mem_wrappingParentheses_iff (e := ⟨right, some left, 0⟩) h hfirst).2
      ⟨m, inner, left, right, hinner, hleft, hright, .inr rfl⟩
    exact ⟨hrecord hmem, hrecord hmem'⟩
  other {t} hinner hcloser := by
    refine get?_record_of_ne fun e he => ?_
    obtain ⟨m, inner, left, right, hmem, hleft, hright, hcases⟩ :=
      (mem_wrappingParentheses_iff h hfirst).1 he
    have hopeners := (List.getElem?_eq_some_iff.1 hleft).1
    have hclosers := (List.getElem?_eq_some_iff.1 hright).1
    rintro rfl
    rcases hcases with rfl | rfl
    · refine hinner (List.mem_of_getElem? (i := m) ?_)
      rwa [List.getElem?_take_of_lt (by omega)]
    · refine hcloser (List.mem_of_getElem? (i := m) ?_)
      rwa [List.getElem?_take_of_lt (by omega)]
  ignored := ignored_record r _

end Registry

end ScriptIndent
