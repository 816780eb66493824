import ScriptIndent.Proofs.Stream.Order

/-!
# ScriptIndent.Proofs.Stream.Query

What the questions about tokens answer, by places in the stream.

A node *covers* the tokens from place `i` to place `j` (excluded) if they are the
ones that overlap its range.  In an ordered stream the binary searches find these
places, so the first token of the node stands at `i` and its last one at `j - 1`,
and the neighbours of the node are looked for below `i` and from `j` on.
-/

namespace ScriptIndent

/-- The search finds the boundary of a predicate that does not hold again once it has
failed. -/
theorem lt_partitionPoint_iff {n : Nat} {p : Nat → Bool}
    (hp : ∀ i j, i < j → j < n → p j = true → p i = true) {i : Nat} (hi : i < n) :
    p i = true ↔ i < partitionPoint n p := by
  obtain ⟨k, hk, hboundary⟩ : ∃ k ≤ n, ∀ i, i < n → (p i = true ↔ i < k) := by
    clear hi
    induction n with
    | zero => exact ⟨0, Nat.le_refl 0, by simp⟩
    | succ n ih =>
      obtain ⟨k, hk, hboundary⟩ := ih fun i j hij hj => hp i j hij (by omega)
      cases hn : p n with
      | true =>
        refine ⟨n + 1, Nat.le_refl _, fun i hi => ⟨fun _ => hi, fun _ => ?_⟩⟩
        rcases Nat.lt_or_eq_of_le (Nat.le_of_lt_succ hi) with hlt | rfl
        · exact hp i n hlt (Nat.lt_succ_self n) hn
        · exact hn
      | false =>
        refine ⟨k, by omega, fun i hi => ?_⟩
        rcases Nat.lt_or_eq_of_le (Nat.le_of_lt_succ hi) with hlt | rfl
        · exact hboundary i hlt
        · simp only [hn, Bool.false_eq_true, false_iff]
          omega
  rw [partitionPoint_eq hk hboundary]
  exact hboundary i hi

namespace Source

variable {s : Source}

/-! ## searching -/

/-- The code tokens are ranges in ascending order, and none of them overlaps another. -/
structure Ascending (s : Source) : Prop where
  range {i : Nat} {t : Token} : s.tokens[i]? = some t → t.start ≤ t.stop
  starts {i j : Nat} {t u : Token} :
    i < j → s.tokens[i]? = some t → s.tokens[j]? = some u → t.start < u.start
  disjoint {i j : Nat} {t u : Token} :
    i < j → s.tokens[i]? = some t → s.tokens[j]? = some u → t.stop ≤ u.start

theorem Ordered.ascending (h : s.Ordered) : s.Ascending where
  range ht := Int.le_of_lt (h.proper ht)
  starts hij ht hu := Int.lt_of_lt_of_le (h.proper ht) (h.disjoint hij ht hu)
  disjoint := h.disjoint

/-- The search finds how many tokens pass a test, if none passes behind one that fails. -/
theorem lt_partitionPoint_tokens_iff {p : Token → Bool}
    (hp : ∀ {i j : Nat} {t u : Token}, i < j → s.tokens[i]? = some t → s.tokens[j]? = some u →
      p u = true → p t = true) {i : Nat} {t : Token} (ht : s.tokens[i]? = some t) :
    i < partitionPoint s.tokens.size (fun i => s.tokens[i]?.any p) ↔ p t = true := by
  have hi := (Array.getElem?_eq_some_iff.1 ht).1
  rw [← lt_partitionPoint_iff ?_ hi, ht, Option.any_some]
  intro i j hij hj
  have hti : s.tokens[i]? = some s.tokens[i] := Array.getElem?_eq_getElem (by omega)
  have htj : s.tokens[j]? = some s.tokens[j] := Array.getElem?_eq_getElem hj
  rw [hti, htj, Option.any_some, Option.any_some]
  exact hp hij hti htj

/-- The tokens that start at or before an offset are the first ones. -/
theorem Ascending.lt_startsUpTo_iff (h : s.Ascending) {i : Nat} {t : Token}
    (ht : s.tokens[i]? = some t) (o : Offset) : i < s.startsUpTo o ↔ t.start ≤ o := by
  rw [startsUpTo, lt_partitionPoint_tokens_iff ?_ ht, decide_eq_true_eq]
  intro i j t u hij ht hu hle
  have := h.starts hij ht hu
  rw [decide_eq_true_eq] at hle ⊢
  lia

/-- The tokens that start before an offset are the first ones. -/
theorem Ascending.lt_startsBefore_iff (h : s.Ascending) {i : Nat} {t : Token}
    (ht : s.tokens[i]? = some t) (o : Offset) : i < s.startsBefore o ↔ t.start < o := by
  rw [startsBefore, lt_partitionPoint_tokens_iff ?_ ht, decide_eq_true_eq]
  intro i j t u hij ht hu hlt
  have := h.starts hij ht hu
  rw [decide_eq_true_eq] at hlt ⊢
  lia

theorem Ordered.lt_startsUpTo_iff (h : s.Ordered) {i : Nat} {t : Token} (ht : s.tokens[i]? = some t)
    (o : Offset) : i < s.startsUpTo o ↔ t.start ≤ o := h.ascending.lt_startsUpTo_iff ht o

theorem Ordered.lt_startsBefore_iff (h : s.Ordered) {i : Nat} {t : Token} (ht : s.tokens[i]? = some t)
    (o : Offset) : i < s.startsBefore o ↔ t.start < o := h.ascending.lt_startsBefore_iff ht o

/-! ## scanning -/

theorem scanDown_eq_some {tokens : Array Token} {keep : Token → Bool} {i : Nat} {t : Token}
    (h : scanDown tokens keep i = some t) :
    ∃ k, k < i ∧ tokens[k]? = some t ∧ keep t = true := by
  induction i with
  | zero => simp [scanDown] at h
  | succ i ih =>
    rw [scanDown] at h
    split at h
    · next u hu =>
      obtain rfl := Option.some.inj h
      rw [Option.filter_eq_some_iff] at hu
      exact ⟨i, Nat.lt_succ_self i, hu⟩
    · obtain ⟨k, hk, h⟩ := ih h
      exact ⟨k, Nat.lt_succ_of_lt hk, h⟩

/-- The scan downwards stops at a token that passes the test, or above it. -/
theorem exists_scanDown {tokens : Array Token} {keep : Token → Bool} {i k : Nat} {t : Token}
    (hk : k < i) (ht : tokens[k]? = some t) (hkeep : keep t = true) :
    ∃ l u, k ≤ l ∧ l < i ∧ tokens[l]? = some u ∧ keep u = true ∧
      scanDown tokens keep i = some u := by
  induction i with
  | zero => omega
  | succ i ih =>
    rw [scanDown]
    cases hi : tokens[i]?.filter keep with
    | some u =>
      obtain ⟨hu, hku⟩ := Option.filter_eq_some_iff.1 hi
      exact ⟨i, u, by omega, by omega, hu, hku, rfl⟩
    | none =>
      have hne : k ≠ i := by
        rintro rfl
        simp [ht, hkeep] at hi
      obtain ⟨l, u, hkl, hli, h⟩ := ih (by omega)
      exact ⟨l, u, hkl, by omega, h⟩

theorem scanUp_eq_some {tokens : Array Token} {keep : Token → Bool} {i : Nat} {t : Token}
    (h : scanUp tokens keep i = some t) :
    ∃ k, i ≤ k ∧ tokens[k]? = some t ∧ keep t = true := by
  fun_induction scanUp tokens keep i with
  | case1 i hi hkeep =>
    obtain rfl := Option.some.inj h
    exact ⟨i, Nat.le_refl i, Array.getElem?_eq_getElem hi, hkeep⟩
  | case2 i hi hkeep ih =>
    obtain ⟨k, hk, h⟩ := ih h
    exact ⟨k, by omega, h⟩
  | case3 i hi => simp at h

/-- The scan upwards stops at a token that passes the test, or below it. -/
theorem exists_scanUp {tokens : Array Token} {keep : Token → Bool} {i k : Nat} {t : Token}
    (hk : i ≤ k) (ht : tokens[k]? = some t) (hkeep : keep t = true) :
    ∃ l u, i ≤ l ∧ l ≤ k ∧ tokens[l]? = some u ∧ keep u = true ∧
      scanUp tokens keep i = some u := by
  have hlt := (Array.getElem?_eq_some_iff.1 ht).1
  fun_induction scanUp tokens keep i with
  | case1 i hi hki =>
    exact ⟨i, tokens[i], Nat.le_refl i, hk, Array.getElem?_eq_getElem hi, hki, rfl⟩
  | case2 i hi hki ih =>
    have hne : k ≠ i := by
      rintro rfl
      rw [Array.getElem?_eq_getElem hi] at ht
      exact hki (Option.some.inj ht ▸ hkeep)
    obtain ⟨l, u, hil, h⟩ := ih (by omega)
    exact ⟨l, u, by omega, h⟩
  | case3 i hi => omega

theorem scanUp_isAny (tokens : Array Token) (i : Nat) :
    scanUp tokens Token.isAny i = tokens[i]? := by
  rw [scanUp]
  split
  · next h => simp [Token.isAny]
  · next h => simp at h; simp [h]

theorem scanDown_isAny {tokens : Array Token} {i : Nat} (h : i ≤ tokens.size) :
    scanDown tokens Token.isAny i = if i = 0 then none else tokens[i - 1]? := by
  cases i with
  | zero => rfl
  | succ i =>
    have hi : tokens[i]? = some tokens[i] := Array.getElem?_eq_getElem h
    have hany : tokens[i]?.filter Token.isAny = some tokens[i] := by
      rw [hi, Option.filter_eq_some_iff]
      exact ⟨rfl, rfl⟩
    rw [scanDown, hany]
    simp [hi]

theorem scanCovered_eq_some {tokens : Array Token} {start : Offset} {keep : Token → Bool}
    {i : Nat} {t : Token} (h : scanCovered tokens start keep i = some t) :
    ∃ k, k < i ∧ tokens[k]? = some t ∧ keep t = true ∧ start < t.stop := by
  induction i with
  | zero => simp [scanCovered] at h
  | succ i ih =>
    rw [scanCovered] at h
    split at h
    · next u hu =>
      split at h
      · next hstart =>
        split at h
        · next hkeep =>
          obtain rfl := Option.some.inj h
          exact ⟨i, Nat.lt_succ_self i, hu, hkeep, hstart⟩
        · obtain ⟨k, hk, h⟩ := ih h
          exact ⟨k, Nat.lt_succ_of_lt hk, h⟩
      · simp at h
    · simp at h

/-- Among tokens that stop behind `start`, the scan stops at one that passes the
test, or above it. -/
theorem exists_scanCovered {tokens : Array Token} {start : Offset} {keep : Token → Bool}
    {i k : Nat} {t : Token} (hk : k < i) (ht : tokens[k]? = some t) (hkeep : keep t = true)
    (hcovered : ∀ l, k ≤ l → l < i → ∃ u, tokens[l]? = some u ∧ start < u.stop) :
    ∃ l u, k ≤ l ∧ l < i ∧ tokens[l]? = some u ∧ keep u = true ∧
      scanCovered tokens start keep i = some u := by
  induction i with
  | zero => omega
  | succ i ih =>
    obtain ⟨u, hu, hstart⟩ := hcovered i (by omega) (by omega)
    simp only [scanCovered, hu, hstart, if_true]
    by_cases hku : keep u
    · exact ⟨i, u, by omega, by omega, hu, hku, if_pos hku⟩
    · have hne : k ≠ i := by
        rintro rfl
        exact hku (Option.mem_unique ht hu ▸ hkeep)
      rw [if_neg hku]
      obtain ⟨l, v, hkl, hli, h⟩ := ih (by omega) fun l h₁ h₂ => hcovered l h₁ (by omega)
      exact ⟨l, v, hkl, by omega, h⟩

/-! ## the tokens that a node covers -/

/-- The tokens that overlap a node are those from place `i` to place `j`
(excluded), and there are some. -/
structure Covers (s : Source) (n : Node) (i j : Nat) : Prop where
  lt : i < j
  le_size : j ≤ s.tokens.size
  below {k : Nat} {t : Token} : k < i → s.tokens[k]? = some t → t.stop ≤ n.start
  above {k : Nat} {t : Token} : j ≤ k → s.tokens[k]? = some t → n.stop ≤ t.start
  overlap {k : Nat} {t : Token} :
    i ≤ k → k < j → s.tokens[k]? = some t → t.start < n.stop ∧ n.start < t.stop

namespace Covers

variable {n : Node} {i j : Nat}

theorem exists_getElem? (h : s.Covers n i j) {k : Nat} (hk : k < j) :
    ∃ t, s.tokens[k]? = some t :=
  ⟨_, Array.getElem?_eq_getElem (Nat.lt_of_lt_of_le hk h.le_size)⟩

end Covers

namespace Ascending

variable {n : Node} {i j : Nat}

theorem startsBefore_eq (h : s.Ascending) (hn : s.Covers n i j) : s.startsBefore n.stop = j := by
  refine partitionPoint_eq hn.le_size fun k hk => ?_
  have hget : s.tokens[k]? = some s.tokens[k] := Array.getElem?_eq_getElem hk
  simp only [hget, Option.any_some, decide_eq_true_eq]
  constructor
  · intro hlt
    refine Nat.lt_of_not_le fun hjk => ?_
    have := hn.above hjk hget
    lia
  · intro hkj
    obtain ⟨t, ht⟩ := hn.exists_getElem? hn.lt
    have hti := (hn.overlap (Nat.le_refl i) hn.lt ht).1
    by_cases hik : i ≤ k
    · exact (hn.overlap hik hkj hget).1
    · have := h.starts (by omega) hget ht
      lia

/-- The first token of a node is the first that it covers. -/
theorem firstOfNode?_eq (h : s.Ascending) (hn : s.Covers n i j) :
    s.firstOfNode? n = s.tokens[i]? := by
  obtain ⟨t, ht⟩ := hn.exists_getElem? hn.lt
  obtain ⟨htstop, hstart⟩ := hn.overlap (Nat.le_refl i) hn.lt ht
  have hpoint : s.startsUpTo n.start = if t.start ≤ n.start then i + 1 else i := by
    have hij := hn.lt
    have hj := hn.le_size
    refine partitionPoint_eq (by split <;> omega) fun k hk => ?_
    have hget : s.tokens[k]? = some s.tokens[k] := Array.getElem?_eq_getElem hk
    simp only [hget, Option.any_some, decide_eq_true_eq]
    rcases Nat.lt_trichotomy k i with hki | rfl | hik
    · have h₁ := hn.below hki hget
      have h₂ := h.range hget
      exact ⟨fun _ => by split <;> omega, fun _ => by lia⟩
    · obtain rfl := Option.mem_unique hget ht
      split <;> simp [*]
    · have h₁ := h.disjoint hik ht hget
      exact ⟨fun _ => by lia, fun _ => by split at * <;> omega⟩
  rw [firstOfNode?, hpoint, ht]
  by_cases hle : t.start ≤ n.start
  · simp [hle, ht, Option.filter, hstart]
  · simp only [hle, if_false]
    split
    · next u hu =>
      rw [Option.filter_eq_some_iff] at hu
      split at hu
      · simp at hu
      · have := hn.below (by omega) hu.1
        simp only [decide_eq_true_eq] at hu
        lia
    · simp [ht, Option.filter, htstop]

/-- A node that overlaps a token covers some tokens. -/
theorem exists_covers (h : s.Ascending) (htoken : ∃ t ∈ s.tokens, t.start < n.stop ∧ n.start < t.stop) :
    ∃ i j, s.Covers n i j := by
  obtain ⟨t, hmem, hstart, hstop⟩ := htoken
  obtain ⟨k, ht⟩ := Array.mem_iff_getElem?.1 hmem
  -- the tokens that stop before the node are the first ones
  let before := partitionPoint s.tokens.size fun i => s.tokens[i]?.any (·.stop ≤ n.start)
  have hbefore {l : Nat} {u : Token} (hu : s.tokens[l]? = some u) :
      l < before ↔ u.stop ≤ n.start := by
    rw [lt_partitionPoint_tokens_iff ?_ hu, decide_eq_true_eq]
    intro i j t u hij ht hu hle
    have := h.disjoint hij ht hu
    have := h.range hu
    rw [decide_eq_true_eq] at hle ⊢
    lia
  have hbk : before ≤ k := Nat.le_of_not_lt fun hlt => by
    have := (hbefore ht).1 hlt
    lia
  refine ⟨before, s.startsBefore n.stop, ?_, partitionPoint_le _ _, fun hl hu => (hbefore hu).1 hl,
    fun hl hu => ?_, fun hil hlj hu => ⟨(h.lt_startsBefore_iff hu n.stop).1 hlj, ?_⟩⟩
  · exact Nat.lt_of_le_of_lt hbk ((h.lt_startsBefore_iff ht n.stop).2 hstart)
  · have := mt (h.lt_startsBefore_iff hu n.stop).2 (Nat.not_lt.2 hl)
    lia
  · have := mt (hbefore hu).2 (Nat.not_lt.2 hil)
    lia

end Ascending

namespace Covers

variable {n : Node} {i j : Nat}

theorem startsBefore_eq (h : s.Covers n i j) (ho : s.Ordered) : s.startsBefore n.stop = j :=
  ho.ascending.startsBefore_eq h

theorem first?_eq (h : s.Covers n i j) (ho : s.Ordered) : s.firstOfNode? n = s.tokens[i]? :=
  ho.ascending.firstOfNode?_eq h

/-- A last token that passes a test is one that the node covers. -/
theorem of_lastOfNode? (h : s.Covers n i j) (ho : s.Ordered) {keep : Token → Bool} {t : Token}
    (ht : s.lastOfNode? n keep = some t) :
    ∃ k, i ≤ k ∧ k < j ∧ s.tokens[k]? = some t ∧ keep t = true := by
  rw [lastOfNode?, h.startsBefore_eq ho] at ht
  obtain ⟨k, hkj, hget, hkeep, hstart⟩ := scanCovered_eq_some ht
  refine ⟨k, Nat.le_of_not_lt fun hki => ?_, hkj, hget, hkeep⟩
  have := h.below hki hget
  lia

theorem exists_lastOfNode? (h : s.Covers n i j) (ho : s.Ordered) {keep : Token → Bool} {k : Nat}
    {t : Token} (hik : i ≤ k) (hkj : k < j) (ht : s.tokens[k]? = some t)
    (hkeep : keep t = true) :
    ∃ l u, k ≤ l ∧ l < j ∧ s.tokens[l]? = some u ∧ keep u = true ∧
      s.lastOfNode? n keep = some u := by
  rw [lastOfNode?, h.startsBefore_eq ho]
  refine exists_scanCovered hkj ht hkeep fun l hkl hlj => ?_
  obtain ⟨u, hu⟩ := h.exists_getElem? hlj
  exact ⟨u, hu, (h.overlap (by omega) hlj hu).2⟩

/-- If the last token of a node passes a test, it is the last one that does. -/
theorem lastOfNode?_eq (h : s.Covers n i j) (ho : s.Ordered) {keep : Token → Bool} {t : Token}
    (ht : s.tokens[j - 1]? = some t) (hkeep : keep t = true) : s.lastOfNode? n keep = some t := by
  have hij := h.lt
  obtain ⟨l, u, hl, hlj, hu, -, hlast⟩ := h.exists_lastOfNode? ho (by omega) (by omega) ht hkeep
  obtain rfl : l = j - 1 := by omega
  rw [hlast, ← hu, ht]

/-- The last token of a node is the last that it covers. -/
theorem last?_eq (h : s.Covers n i j) (ho : s.Ordered) :
    s.lastOfNode? n Token.isAny = s.tokens[j - 1]? := by
  have hij := h.lt
  obtain ⟨t, ht⟩ := h.exists_getElem? (k := j - 1) (by omega)
  rw [h.lastOfNode?_eq ho ht rfl, ht]

end Covers

/-! ## the ends of an anchor -/

/-- An anchor begins with the token at place `i` and ends with the one before
place `j`. -/
structure Ends (s : Source) (a : Anchor) (i j : Nat) : Prop where
  lt : i < j
  le_size : j ≤ s.tokens.size
  first?_eq : s.first? a = s.tokens[i]?
  last?_eq : s.last? a = s.tokens[j - 1]?

theorem Covers.ends {n : Node} {i j : Nat} (h : s.Covers n i j) (ho : s.Ordered) :
    s.Ends n i j := ⟨h.lt, h.le_size, h.first?_eq ho, h.last?_eq ho⟩

/-- A code token is its own first and last token. -/
theorem ends_token {t : Token} {i : Nat} (h : s.tokens[i]? = some t) : s.Ends t i (i + 1) where
  lt := Nat.lt_succ_self i
  le_size := (Array.getElem?_eq_some_iff.1 h).1
  first?_eq := h.symm
  last?_eq := by
    rw [Nat.add_sub_cancel, h]
    rfl

namespace Ends

variable {a : Anchor} {i j : Nat}

theorem exists_first? (h : s.Ends a i j) : ∃ t, s.tokens[i]? = some t ∧ s.first? a = some t := by
  have hi : i < s.tokens.size := Nat.lt_of_lt_of_le h.lt h.le_size
  have hget : s.tokens[i]? = some s.tokens[i] := Array.getElem?_eq_getElem hi
  exact ⟨_, hget, h.first?_eq.trans hget⟩

theorem exists_last? (h : s.Ends a i j) :
    ∃ t, s.tokens[j - 1]? = some t ∧ s.last? a = some t := by
  have hi : j - 1 < s.tokens.size := by have := h.lt; have := h.le_size; omega
  have hget : s.tokens[j - 1]? = some s.tokens[j - 1] := Array.getElem?_eq_getElem hi
  exact ⟨_, hget, h.last?_eq.trans hget⟩

/-- Before an anchor the tokens below its first place are searched. -/
theorem beforeWhere?_eq (h : s.Ends a i j) (keep : Token → Bool) :
    s.beforeWhere? keep a = scanDown s.tokens keep i := by
  obtain ⟨t, ht, hfirst⟩ := h.exists_first?
  rw [beforeWhere?, hfirst, Option.bind_some, index_of_getElem? ht, Option.getD_some]

/-- Behind an anchor the tokens from its end on are searched. -/
theorem afterWhere?_eq (h : s.Ends a i j) (keep : Token → Bool) :
    s.afterWhere? keep a = scanUp s.tokens keep j := by
  obtain ⟨t, ht, hlast⟩ := h.exists_last?
  have hj : j - 1 + 1 = j := by have := h.lt; omega
  rw [afterWhere?, hlast, Option.bind_some, index_of_getElem? ht, Option.elim_some, hj]

/-- The search upwards ends at once if the next token passes the test. -/
theorem afterWhere?_eq_some (h : s.Ends a i j) {keep : Token → Bool} {t : Token}
    (ht : s.tokens[j]? = some t) (hkeep : keep t = true) : s.afterWhere? keep a = some t := by
  obtain ⟨l, u, hjl, hlj, hu, -, hscan⟩ := exists_scanUp (Nat.le_refl j) ht hkeep
  obtain rfl : l = j := Nat.le_antisymm hlj hjl
  obtain rfl := Option.mem_unique ht hu
  exact (h.afterWhere?_eq keep).trans hscan

theorem before?_eq (h : s.Ends a i j) :
    s.before? a = if i = 0 then none else s.tokens[i - 1]? := by
  rw [before?, h.beforeWhere?_eq, scanDown_isAny]
  exact Nat.le_trans (Nat.le_of_lt h.lt) h.le_size

theorem after?_eq (h : s.Ends a i j) : s.after? a = s.tokens[j]? := by
  rw [after?, h.afterWhere?_eq, scanUp_isAny]

/-- Between two anchors stand the tokens behind the end of the left one and
below the first place of the right one. -/
theorem betweenWhere_eq {a' : Anchor} {i' j' : Nat} (h : s.Ends a i j) (h' : s.Ends a' i' j')
    (keep : Token → Bool) :
    s.betweenWhere keep a a' = (s.tokens.extract j i').toList.filter keep := by
  obtain ⟨t, ht, hlast⟩ := h.exists_last?
  obtain ⟨u, hu, hfirst⟩ := h'.exists_first?
  have hj : j - 1 + 1 = j := by have := h.lt; omega
  simp only [betweenWhere, hlast, hfirst, index_of_getElem? ht, index_of_getElem? hu,
    Option.elim_some, Option.getD_some, hj]

theorem tokensOf_eq (h : s.Ends a i j) : s.tokensOf a = (s.tokens.extract i j).toList := by
  obtain ⟨t, ht, hfirst⟩ := h.exists_first?
  obtain ⟨u, hu, hlast⟩ := h.exists_last?
  have hj : j - 1 + 1 = j := by have := h.lt; omega
  simp only [tokensOf, hlast, hfirst, index_of_getElem? ht, index_of_getElem? hu,
    Option.elim_some, Option.getD_some, hj]

end Ends

theorem mem_extract {i j : Nat} {t : Token} (h : t ∈ (s.tokens.extract i j).toList) :
    ∃ k, i ≤ k ∧ k < j ∧ s.tokens[k]? = some t := by
  obtain ⟨k, hk⟩ := List.getElem?_of_mem h
  rw [Array.getElem?_toList, Array.getElem?_extract] at hk
  split at hk
  · exact ⟨i + k, by omega, by omega, hk⟩
  · simp at hk

/-- The first tokens of an anchor, up to a count, are tokens between its ends, if those start
before it stops and those behind do not. -/
theorem Ends.firsts_eq {a : Anchor} {i j : Nat} (h : s.Ends a i j)
    (hinside : ∀ {k : Nat} {t : Token}, i ≤ k → k < j → s.tokens[k]? = some t → t.start < stopOf a)
    (hbehind : ∀ {k : Nat} {t : Token}, j ≤ k → s.tokens[k]? = some t → stopOf a ≤ t.start)
    (count : Nat) :
    s.firsts a count = (s.tokens.extract i (min (i + count) j)).toList := by
  obtain ⟨t, ht, hfirst⟩ := h.exists_first?
  have hfront : ∀ u ∈ (s.tokens.extract i (min (i + count) j)).toList,
      decide (u.start < stopOf a) = true := by
    intro u hu
    obtain ⟨k, hik, hk, hget⟩ := mem_extract hu
    exact decide_eq_true (hinside hik (by omega) hget)
  have hback : (s.tokens.extract (min (i + count) j) (i + count)).toList.takeWhile
      (fun u => decide (u.start < stopOf a)) = [] := by
    cases hrest : (s.tokens.extract (min (i + count) j) (i + count)).toList with
    | nil => rfl
    | cons u rest =>
      obtain ⟨k, hk, hkc, hget⟩ := mem_extract (hrest ▸ List.mem_cons_self)
      have := hbehind (by omega) hget
      exact List.takeWhile_cons_of_neg fun hlt => Int.not_lt.2 this (of_decide_eq_true hlt)
  have hsplit : s.tokens.extract i (i + count) =
      s.tokens.extract i (min (i + count) j) ++
        s.tokens.extract (min (i + count) j) (i + count) := by
    have hij := h.lt
    rw [Array.extract_append_extract, Nat.min_eq_left (by omega), Nat.max_eq_right (by omega)]
  simp only [firsts, hfirst, index_of_getElem? ht, Option.getD_some, hsplit,
    Array.toList_append]
  rw [List.takeWhile_append_of_pos hfront, hback, List.append_nil]

/-- The first tokens of a node, up to a count, are tokens that it covers. -/
theorem Covers.firsts_eq {n : Node} {i j : Nat} (h : s.Covers n i j) (ho : s.Ordered)
    (count : Nat) :
    s.firsts n count = (s.tokens.extract i (min (i + count) j)).toList :=
  (h.ends ho).firsts_eq (fun hik hkj ht => (h.overlap hik hkj ht).1) h.above count

end Source

end ScriptIndent
