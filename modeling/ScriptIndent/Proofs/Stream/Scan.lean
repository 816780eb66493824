import ScriptIndent.Proofs.Stream.Query

/-!
# ScriptIndent.Proofs.Stream.Scan

The questions about tokens as scans over the whole stream.

```
tokens    a  =  (  b  ,  `c${  d  }`  )  ;
anchor             [-------)
          precedes overlaps    follows
```

The searches halve the stream and stop early.  What they answer is what a scan of all
tokens finds (`Source.queries_eq_scans`): the tokens that overlap the range of an anchor,
its ends inside tokens or between them, the nearest ones in front of these and behind
them, and the ones between two anchors.  Nothing is found exactly when no token passes.
-/

namespace ScriptIndent

/-! ## lists -/

/-- A test that only members of a stretch can pass keeps what another keeps of the stretch. -/
theorem filter_eq_filter_extract {α : Type} {p q : α → Bool} {xs : List α} {i j : Nat}
    (h : ∀ {k : Nat} {x : α}, xs[k]? = some x → (p x = true ↔ (i ≤ k ∧ k < j) ∧ q x = true)) :
    xs.filter p = (xs.extract i j).filter q := by
  induction xs generalizing i j with
  | nil => simp
  | cons x xs ih =>
    have hx : p x = true ↔ (i ≤ 0 ∧ 0 < j) ∧ q x = true := h List.getElem?_cons_zero
    have hrest := ih (i := i - 1) (j := j - 1) fun {k y} hy => by
      rw [h (k := k + 1) (List.getElem?_cons_succ.trans hy)]
      exact and_congr_left' (by omega)
    rw [List.filter_cons, hrest]
    cases i with
    | zero =>
      cases j with
      | zero => simp [hx]
      | succ j => cases hq : q x <;> simp [hx, hq]
    | succ i => simp [hx, Nat.sub_sub, Nat.add_comm]

/-! ## tests -/

/-- The offset at which an anchor starts. -/
def Anchor.start : Anchor → Offset
  | .node n => n.start
  | .token t => t.start

/-- A token overlaps the range of an anchor. -/
def Anchor.overlaps (a : Anchor) (t : Token) : Bool :=
  t.start < Source.stopOf a && a.start < t.stop

/-- A code token stands at an earlier place of the stream than another. -/
def Token.isBefore (t u : Token) : Bool := t.index.any fun i => u.index.any fun j => i < j

namespace Source

/-- The code tokens that pass a test, by a scan over all of them. -/
def scan (s : Source) (p : Token → Bool) : List Token := s.tokens.toList.filter p

/-- A token stands in front of the first one that overlaps an anchor. -/
def precedes (s : Source) (a : Anchor) (t : Token) : Bool :=
  (s.scan a.overlaps).head?.any t.isBefore

/-- A token stands behind the last one that overlaps an anchor. -/
def follows (s : Source) (a : Anchor) (t : Token) : Bool :=
  (s.scan a.overlaps).getLast?.any (·.isBefore t)

variable {s : Source} {a : Anchor} {i j : Nat}

theorem scan_eq_nil_iff {p : Token → Bool} : s.scan p = [] ↔ ∀ t ∈ s.tokens, p t = false := by
  simp [scan, List.filter_eq_nil_iff]

theorem filter_isAny (ts : List Token) : ts.filter Token.isAny = ts :=
  List.filter_eq_self.2 fun _ _ => rfl

theorem isBefore_iff {k l : Nat} {t u : Token} (ht : s.tokens[k]? = some t)
    (hu : s.tokens[l]? = some u) : t.isBefore u = true ↔ k < l := by
  simp [Token.isBefore, index_of_getElem? ht, index_of_getElem? hu]

/-- A test that only tokens at some places can pass. -/
theorem scan_eq {p q : Token → Bool}
    (h : ∀ k t, s.tokens[k]? = some t → (p t = true ↔ (i ≤ k ∧ k < j) ∧ q t = true)) :
    s.scan p = (s.tokens.extract i j).toList.filter q := by
  rw [scan, Array.toList_extract]
  exact filter_eq_filter_extract fun {k t} ht => h k t (Array.getElem?_toList.symm.trans ht)

theorem Ascending.of_pairwise (hrange : ∀ t ∈ s.tokens, t.start ≤ t.stop)
    (hstarts : s.tokens.toList.Pairwise (·.start < ·.start))
    (hdisjoint : s.tokens.toList.Pairwise fun t u => ¬(t.start < u.stop ∧ u.start < t.stop)) :
    s.Ascending := by
  have hat {p : Token → Token → Prop} (h : s.tokens.toList.Pairwise p) {i j : Nat} {t u : Token}
      (hij : i < j) (ht : s.tokens[i]? = some t) (hu : s.tokens[j]? = some u) : p t u := by
    obtain ⟨hi, rfl⟩ := Array.getElem?_eq_some_iff.1 ht
    obtain ⟨hj, rfl⟩ := Array.getElem?_eq_some_iff.1 hu
    exact List.pairwise_iff_getElem.1 h _ _ hi hj hij
  refine ⟨fun ht => hrange _ (Array.mem_of_getElem? ht), hat hstarts, fun hij ht hu => ?_⟩
  have := hrange _ (Array.mem_of_getElem? hu)
  have := hat hstarts hij ht hu
  have := hat hdisjoint hij ht hu
  lia

/-! ## scanning in one direction -/

theorem toList_extract_concat {tokens : Array Token} (hij : i ≤ j) (hj : j < tokens.size) :
    (tokens.extract i (j + 1)).toList = (tokens.extract i j).toList ++ [tokens[j]] := by
  rw [Array.extract_succ_right (Nat.lt_succ_of_le hij) hj, Array.toList_push]

private theorem scanUp_eq (tokens : Array Token) (keep : Token → Bool) (i : Nat) :
    scanUp tokens keep i = ((tokens.extract i tokens.size).toList.filter keep).head? := by
  rw [Array.toList_extract, List.extract, List.take_of_length_le (by simp)]
  fun_induction scanUp tokens keep i with
  | case1 i hi hkeep => simp [List.drop_eq_getElem_cons (l := tokens.toList) hi, hkeep]
  | case2 i hi hkeep ih => simp [List.drop_eq_getElem_cons (l := tokens.toList) hi, hkeep, ih]
  | case3 i hi => simp [List.drop_of_length_le (l := tokens.toList) (Nat.le_of_not_lt hi)]

private theorem scanDown_eq {tokens : Array Token} (keep : Token → Bool) {i : Nat} (hi : i ≤ tokens.size) :
    scanDown tokens keep i = ((tokens.extract 0 i).toList.filter keep).getLast? := by
  induction i with
  | zero => simp [scanDown]
  | succ i ih =>
    rw [scanDown, toList_extract_concat (Nat.zero_le i) hi, ih (by omega),
      Array.getElem?_eq_getElem hi]
    by_cases hkeep : keep tokens[i] = true <;> simp [Option.filter, hkeep]

private theorem scanCovered_eq {tokens : Array Token} {start : Offset} (keep : Token → Bool)
    (hij : i ≤ j) (hj : j ≤ tokens.size)
    (hinside : ∀ {k : Nat} {t : Token}, i ≤ k → k < j → tokens[k]? = some t → start < t.stop)
    (hbelow : ∀ {k : Nat} {t : Token}, k < i → tokens[k]? = some t → t.stop ≤ start) :
    scanCovered tokens start keep j = ((tokens.extract i j).toList.filter keep).getLast? := by
  induction hij with
  | refl =>
    cases i with
    | zero => simp [scanCovered]
    | succ i =>
      have ht : tokens[i]? = some tokens[i] := Array.getElem?_eq_getElem hj
      have := Int.not_lt.2 (hbelow (Nat.lt_succ_self i) ht)
      simp [scanCovered, ht, this]
  | @step j hij ih =>
    have ht : tokens[j]? = some tokens[j] := Array.getElem?_eq_getElem hj
    have hstart := hinside hij (Nat.lt_succ_self j) ht
    rw [scanCovered, ht, toList_extract_concat hij hj,
      ih (by omega) fun hik hkj => hinside hik (by omega)]
    by_cases hkeep : keep tokens[j] = true <;> simp [hstart, hkeep]

/-! ## what an anchor meets -/

/-- The anchor is not empty, and if it is a token, it is one of the stream. -/
def IsAnchor (s : Source) (a : Anchor) : Prop := a.start < stopOf a ∧ ∀ t, a = .token t → t ∈ s.tokens

/-- The tokens that overlap an anchor are those from place `i` to place `j` (excluded), and there
the searches find its ends. -/
structure Meets (s : Source) (a : Anchor) (i j : Nat) : Prop where
  lt : i < j
  le_size : j ≤ s.tokens.size
  overlaps_iff {k : Nat} {t : Token} :
    s.tokens[k]? = some t → (a.overlaps t = true ↔ i ≤ k ∧ k < j)
  first?_eq : s.first? a = s.tokens[i]?
  lastWhere?_eq (keep : Token → Bool) :
    s.lastWhere? keep a = ((s.tokens.extract i j).toList.filter keep).getLast?

theorem overlaps_iff {t : Token} : a.overlaps t = true ↔ t.start < stopOf a ∧ a.start < t.stop := by
  simp [Anchor.overlaps]

/-- A node meets the tokens that it covers. -/
theorem Ascending.meets_node (h : s.Ascending) {n : Node} (hn : s.Covers n i j) : s.Meets n i j where
  lt := hn.lt
  le_size := hn.le_size
  overlaps_iff {k t} ht := by
    rw [overlaps_iff]
    refine ⟨fun ⟨hstop, hstart⟩ => ⟨Nat.le_of_not_lt fun hki => ?_, Nat.lt_of_not_le fun hjk => ?_⟩,
      fun ⟨hik, hkj⟩ => hn.overlap hik hkj ht⟩
    · exact Int.not_lt.2 (hn.below hki ht) hstart
    · exact Int.not_lt.2 (hn.above hjk ht) hstop
  first?_eq := h.firstOfNode?_eq hn
  lastWhere?_eq keep := by
    rw [lastWhere?, lastOfNode?, h.startsBefore_eq hn]
    exact scanCovered_eq keep (Nat.le_of_lt hn.lt) hn.le_size
      (fun hik hkj ht => (hn.overlap hik hkj ht).2) hn.below

/-- A token of the stream meets itself alone. -/
theorem Ascending.meets_token (h : s.Ascending) {t : Token} (ht : s.tokens[i]? = some t)
    (hlt : t.start < t.stop) : s.Meets t i (i + 1) where
  lt := Nat.lt_succ_self i
  le_size := (Array.getElem?_eq_some_iff.1 ht).1
  overlaps_iff {k u} hu := by
    rw [overlaps_iff]
    change u.start < t.stop ∧ t.start < u.stop ↔ _
    rcases Nat.lt_trichotomy k i with hki | rfl | hik
    · have := h.disjoint hki hu ht
      constructor <;> intro <;> lia
    · obtain rfl := Option.mem_unique hu ht
      exact ⟨fun _ => by omega, fun _ => ⟨hlt, hlt⟩⟩
    · have := h.disjoint hik ht hu
      constructor <;> intro <;> lia
  first?_eq := ht.symm
  lastWhere?_eq keep := by
    obtain ⟨hi, rfl⟩ := Array.getElem?_eq_some_iff.1 ht
    rw [toList_extract_concat (Nat.le_refl i) hi, lastWhere?]
    by_cases hkeep : keep s.tokens[i] = true <;> simp [hkeep]

/-- The first token of a node overlaps it. -/
theorem Ascending.overlaps_of_first (h : s.Ascending) {n : Node} (hlt : n.start < n.stop) {t : Token}
    (hfirst : s.firstOfNode? n = some t) : t ∈ s.tokens ∧ Anchor.overlaps n t = true := by
  rw [firstOfNode?] at hfirst
  rw [overlaps_iff]
  change _ ∧ t.start < n.stop ∧ n.start < t.stop
  split at hfirst
  · next u hu =>
    obtain rfl := Option.some.inj hfirst
    rw [Option.filter_eq_some_iff, decide_eq_true_eq] at hu
    obtain ⟨hu, hstart⟩ := hu
    split at hu
    · cases hu
    have := (h.lt_startsUpTo_iff hu n.start).1 (by omega)
    exact ⟨Array.mem_of_getElem? hu, by lia, hstart⟩
  · rw [Option.filter_eq_some_iff, decide_eq_true_eq] at hfirst
    obtain ⟨ht, hstop⟩ := hfirst
    have := mt (h.lt_startsUpTo_iff ht n.start).2 (Nat.lt_irrefl _)
    have := h.range ht
    exact ⟨Array.mem_of_getElem? ht, hstop, by lia⟩

/-- The last token of a node that passes a test overlaps it. -/
theorem Ascending.overlaps_of_last (h : s.Ascending) {n : Node} {keep : Token → Bool} {t : Token}
    (hlast : s.lastOfNode? n keep = some t) : t ∈ s.tokens ∧ Anchor.overlaps n t = true := by
  obtain ⟨k, hk, ht, -, hstart⟩ := scanCovered_eq_some hlast
  exact ⟨Array.mem_of_getElem? ht,
    overlaps_iff.2 ⟨(h.lt_startsBefore_iff ht n.stop).1 hk, hstart⟩⟩

/-- An anchor meets some tokens, or no token overlaps it and the searches for its ends find
nothing. -/
theorem Ascending.meets_or (h : s.Ascending) (ha : s.IsAnchor a) :
    (∃ i j, s.Meets a i j) ∨
      s.scan a.overlaps = [] ∧ s.first? a = none ∧ ∀ keep, s.lastWhere? keep a = none := by
  cases a with
  | token t =>
    obtain ⟨i, ht⟩ := Array.getElem?_of_mem (ha.2 t rfl)
    exact .inl ⟨i, i + 1, h.meets_token ht ha.1⟩
  | node n =>
    by_cases hsome : ∃ t ∈ s.tokens, t.start < n.stop ∧ n.start < t.stop
    · obtain ⟨i, j, hn⟩ := h.exists_covers hsome
      exact .inl ⟨i, j, h.meets_node hn⟩
    · have hnone : s.scan (Anchor.overlaps n) = [] := by
        refine scan_eq_nil_iff.2 fun t ht => ?_
        rw [← Bool.not_eq_true, overlaps_iff]
        exact fun hover => hsome ⟨t, ht, hover⟩
      have hno := scan_eq_nil_iff.1 hnone
      refine .inr ⟨hnone, Option.eq_none_iff_forall_ne_some.2 fun t ht => ?_, fun keep =>
        Option.eq_none_iff_forall_ne_some.2 fun t ht => ?_⟩
      · obtain ⟨hmem, hover⟩ := h.overlaps_of_first ha.1 ht
        simp [hno t hmem] at hover
      · obtain ⟨hmem, hover⟩ := h.overlaps_of_last ht
        simp [hno t hmem] at hover

namespace Meets

variable {k : Nat} {t : Token}

theorem ends (h : s.Meets a i j) : s.Ends a i j where
  lt := h.lt
  le_size := h.le_size
  first?_eq := h.first?_eq
  last?_eq := by
    obtain ⟨m, rfl⟩ : ∃ m, j = m + 1 := ⟨j - 1, by have := h.lt; omega⟩
    have hm : m < s.tokens.size := h.le_size
    rw [last?, h.lastWhere?_eq, filter_isAny, toList_extract_concat (Nat.le_of_lt_succ h.lt) hm]
    simp [hm]

theorem scan_overlaps (h : s.Meets a i j) : s.scan a.overlaps = (s.tokens.extract i j).toList := by
  rw [scan_eq (q := Token.isAny) fun _ _ ht => by rw [h.overlaps_iff ht, Token.isAny, eq_self, and_true],
    filter_isAny]

theorem head?_scan (h : s.Meets a i j) : (s.scan a.overlaps).head? = s.tokens[i]? := by
  have hlt := h.lt
  rw [h.scan_overlaps, List.head?_eq_getElem?, Array.getElem?_toList, Array.getElem?_extract]
  simp
  omega

private theorem getLast?_scan (h : s.Meets a i j) : (s.scan a.overlaps).getLast? = s.tokens[j - 1]? := by
  rw [← h.ends.last?_eq, last?, h.lastWhere?_eq, filter_isAny, h.scan_overlaps]

theorem precedes_iff (h : s.Meets a i j) (ht : s.tokens[k]? = some t) :
    s.precedes a t = true ↔ k < i := by
  obtain ⟨u, hu, -⟩ := h.ends.exists_first?
  rw [precedes, h.head?_scan, hu, Option.any_some, isBefore_iff ht hu]

theorem follows_iff (h : s.Meets a i j) (ht : s.tokens[k]? = some t) :
    s.follows a t = true ↔ j ≤ k := by
  obtain ⟨u, hu, -⟩ := h.ends.exists_last?
  have hlt := h.lt
  rw [follows, h.getLast?_scan, hu, Option.any_some, isBefore_iff hu ht]
  omega

end Meets

/-! ## the questions -/

namespace Ascending

variable (keep : Token → Bool)

theorem first?_eq_scan (h : s.Ascending) (ha : s.IsAnchor a) :
    s.first? a = (s.scan a.overlaps).head? := by
  rcases h.meets_or ha with ⟨i, j, hm⟩ | ⟨hnone, hfirst, -⟩
  · rw [hm.first?_eq, hm.head?_scan]
  · rw [hfirst, hnone, List.head?_nil]

theorem lastWhere?_eq_scan (h : s.Ascending) (ha : s.IsAnchor a) :
    s.lastWhere? keep a = (s.scan fun t => a.overlaps t && keep t).getLast? := by
  rcases h.meets_or ha with ⟨i, j, hm⟩ | ⟨hnone, -, hlast⟩
  · rw [hm.lastWhere?_eq, scan_eq (q := keep) fun _ _ ht => ?_]
    rw [Bool.and_eq_true, hm.overlaps_iff ht]
  · rw [hlast, scan_eq_nil_iff.2, List.getLast?_nil]
    exact fun t ht => by rw [scan_eq_nil_iff.1 hnone t ht, Bool.false_and]

theorem tokensOf_eq_scan (h : s.Ascending) (ha : s.IsAnchor a) :
    s.tokensOf a = s.scan a.overlaps := by
  rcases h.meets_or ha with ⟨i, j, hm⟩ | ⟨hnone, hfirst, -⟩
  · rw [hm.ends.tokensOf_eq, hm.scan_overlaps]
  · rw [tokensOf, hfirst, hnone]

theorem firsts_eq_scan (h : s.Ascending) (ha : s.IsAnchor a) (count : Nat) :
    s.firsts a count = (s.scan a.overlaps).take count := by
  rcases h.meets_or ha with ⟨i, j, hm⟩ | ⟨hnone, hfirst, -⟩
  · obtain ⟨u, hu, -⟩ := hm.ends.exists_first?
    have hlt := hm.lt
    have hustart := (overlaps_iff.1 ((hm.overlaps_iff hu).2 ⟨Nat.le_refl i, hlt⟩)).2
    rw [hm.scan_overlaps, hm.ends.firsts_eq
      (fun hik hkj ht => (overlaps_iff.1 ((hm.overlaps_iff ht).2 ⟨hik, hkj⟩)).1)]
    · rw [Array.toList_extract, Array.toList_extract, List.extract, List.extract, List.take_take]
      congr 1
      omega
    · -- behind the last token that overlaps, none starts before the anchor stops
      intro k t hjk ht
      refine Int.not_lt.1 fun hstop => ?_
      have := h.disjoint (show i < k by omega) hu ht
      have := h.range ht
      have := (hm.overlaps_iff ht).1 (overlaps_iff.2 ⟨hstop, by lia⟩)
      omega
  · rw [firsts, hfirst, hnone, List.take_nil]

theorem beforeWhere?_eq_scan (h : s.Ascending) (ha : s.IsAnchor a) :
    s.beforeWhere? keep a = (s.scan fun t => s.precedes a t && keep t).getLast? := by
  rcases h.meets_or ha with ⟨i, j, hm⟩ | ⟨hnone, hfirst, -⟩
  · have hi : i ≤ s.tokens.size := Nat.le_trans (Nat.le_of_lt hm.lt) hm.le_size
    rw [hm.ends.beforeWhere?_eq, scanDown_eq keep hi, scan_eq fun _ _ ht => ?_]
    rw [Bool.and_eq_true, hm.precedes_iff ht, and_iff_right (Nat.zero_le _)]
  · rw [beforeWhere?, hfirst, scan_eq_nil_iff.2, List.getLast?_nil, Option.bind_none]
    exact fun t ht => by rw [precedes, hnone, List.head?_nil, Option.any_none, Bool.false_and]

theorem afterWhere?_eq_scan (h : s.Ascending) (ha : s.IsAnchor a) :
    s.afterWhere? keep a = (s.scan fun t => s.follows a t && keep t).head? := by
  rcases h.meets_or ha with ⟨i, j, hm⟩ | ⟨hnone, -, hlast⟩
  · rw [hm.ends.afterWhere?_eq, scanUp_eq, scan_eq fun k _ ht => ?_]
    have hk := (Array.getElem?_eq_some_iff.1 ht).1
    rw [Bool.and_eq_true, hm.follows_iff ht, and_iff_left hk]
  · rw [afterWhere?, last?, hlast, scan_eq_nil_iff.2, List.head?_nil, Option.bind_none]
    exact fun t ht => by rw [follows, hnone, List.getLast?_nil, Option.any_none, Bool.false_and]

theorem betweenWhere_eq_scan (h : s.Ascending) {b : Anchor} (ha : s.IsAnchor a)
    (hb : s.IsAnchor b) :
    s.betweenWhere keep a b = s.scan fun t => s.follows a t && s.precedes b t && keep t := by
  rcases h.meets_or ha with ⟨i, j, hm⟩ | ⟨hnone, -, hlast⟩
  · rcases h.meets_or hb with ⟨i', j', hm'⟩ | ⟨hnone', hfirst', -⟩
    · rw [hm.ends.betweenWhere_eq hm'.ends, scan_eq fun _ _ ht => ?_]
      rw [Bool.and_eq_true, Bool.and_eq_true, hm.follows_iff ht, hm'.precedes_iff ht]
    · rw [betweenWhere, hfirst', eq_comm]
      split
      · next hnil => cases hnil
      · refine scan_eq_nil_iff.2 fun t ht => ?_
        rw [precedes, hnone', List.head?_nil, Option.any_none, Bool.and_false, Bool.false_and]
  · rw [betweenWhere, last?, hlast, eq_comm]
    refine scan_eq_nil_iff.2 fun t ht => ?_
    rw [follows, hnone, List.getLast?_nil, Option.any_none, Bool.false_and, Bool.false_and]

end Ascending

/-- In a stream of ranges in ascending order, none of which overlaps another, the searches find what
scans of all tokens find, and nothing exactly when no token passes: the first of the tokens that
overlap an anchor, the last of them that passes a test, all of them and the first few; the nearest
token in front of them and behind them that passes a test; and those between two anchors. -/
theorem queries_eq_scans (hrange : ∀ t ∈ s.tokens, t.start ≤ t.stop)
    (hstarts : s.tokens.toList.Pairwise (·.start < ·.start))
    (hdisjoint : s.tokens.toList.Pairwise fun t u => ¬(t.start < u.stop ∧ u.start < t.stop))
    {b : Anchor} (ha : s.IsAnchor a) (hb : s.IsAnchor b) (keep : Token → Bool) (count : Nat) :
    (s.first? a = (s.scan a.overlaps).head? ∧
      (s.first? a = none ↔ ∀ t ∈ s.tokens, a.overlaps t = false)) ∧
    (s.lastWhere? keep a = (s.scan fun t => a.overlaps t && keep t).getLast? ∧
      (s.lastWhere? keep a = none ↔ ∀ t ∈ s.tokens, (a.overlaps t && keep t) = false)) ∧
    (s.tokensOf a = s.scan a.overlaps ∧
      (s.tokensOf a = [] ↔ ∀ t ∈ s.tokens, a.overlaps t = false)) ∧
    (s.firsts a count = (s.scan a.overlaps).take count ∧
      (s.firsts a count = [] ↔ count = 0 ∨ ∀ t ∈ s.tokens, a.overlaps t = false)) ∧
    (s.beforeWhere? keep a = (s.scan fun t => s.precedes a t && keep t).getLast? ∧
      (s.beforeWhere? keep a = none ↔ ∀ t ∈ s.tokens, (s.precedes a t && keep t) = false)) ∧
    (s.afterWhere? keep a = (s.scan fun t => s.follows a t && keep t).head? ∧
      (s.afterWhere? keep a = none ↔ ∀ t ∈ s.tokens, (s.follows a t && keep t) = false)) ∧
    (s.betweenWhere keep a b = (s.scan fun t => s.follows a t && s.precedes b t && keep t) ∧
      (s.betweenWhere keep a b = [] ↔
        ∀ t ∈ s.tokens, (s.follows a t && s.precedes b t && keep t) = false)) := by
  have h : s.Ascending := .of_pairwise hrange hstarts hdisjoint
  refine ⟨⟨h.first?_eq_scan ha, ?_⟩, ⟨h.lastWhere?_eq_scan keep ha, ?_⟩, ⟨h.tokensOf_eq_scan ha, ?_⟩,
    ⟨h.firsts_eq_scan ha count, ?_⟩, ⟨h.beforeWhere?_eq_scan keep ha, ?_⟩,
    ⟨h.afterWhere?_eq_scan keep ha, ?_⟩, ⟨h.betweenWhere_eq_scan keep ha hb, ?_⟩⟩
  · rw [h.first?_eq_scan ha, List.head?_eq_none_iff, scan_eq_nil_iff]
  · rw [h.lastWhere?_eq_scan keep ha, List.getLast?_eq_none_iff, scan_eq_nil_iff]
  · rw [h.tokensOf_eq_scan ha, scan_eq_nil_iff]
  · rw [h.firsts_eq_scan ha, List.take_eq_nil_iff, scan_eq_nil_iff]
  · rw [h.beforeWhere?_eq_scan keep ha, List.getLast?_eq_none_iff, scan_eq_nil_iff]
  · rw [h.afterWhere?_eq_scan keep ha, List.head?_eq_none_iff, scan_eq_nil_iff]
  · rw [h.betweenWhere_eq_scan keep ha hb, scan_eq_nil_iff]

/-! ## a template in a call -/

def insertedName : Node :=
  ⟨"template_substitution", true, false, false, [], 4, 8,
    [⟨"$\x7b", false, false, false, [], 4, 6, []⟩,
      ⟨"identifier", true, false, false, [], 6, 7, []⟩,
      ⟨"\x7d", false, false, false, [], 7, 8, []⟩]⟩

/-- A call with a template for its argument.  The substitution in the template starts and stops
inside tokens. -/
def insertedSource : Source :=
  .ofTree "f(`a$\x7bb\x7dc`);".toUTF8.data
    ⟨"program", true, false, false, [], 0, 12,
      [⟨"expression_statement", true, false, false, [], 0, 12,
        [⟨"call_expression", true, false, false, [], 0, 11,
          [⟨"identifier", true, false, false, ["function"], 0, 1, []⟩,
            ⟨"arguments", true, false, false, ["arguments"], 1, 11,
              [⟨"(", false, false, false, [], 1, 2, []⟩,
                ⟨"template_string", true, false, false, [], 2, 10, [insertedName]⟩,
                ⟨")", false, false, false, [], 10, 11, []⟩]⟩]⟩,
          ⟨";", false, false, false, [], 11, 12, []⟩]⟩]⟩ none []

/-- What stands around the substitution: the texts of the template on both sides belong to it. -/
theorem queries_insertedSource :
    (insertedSource.tokensOf insertedName).map (·.value) = ["`a$\x7b", "b", "\x7dc`"] ∧
    (insertedSource.firsts insertedName 2).map (·.value) = ["`a$\x7b", "b"] ∧
    (insertedSource.beforeWhere? Token.isAny insertedName).map (·.value) = some "(" ∧
    (insertedSource.afterWhere? Token.isSemicolon insertedName).map (·.value) = some ";" ∧
    insertedSource.lastWhere? Token.isSemicolon insertedName = none := by
  have ha : insertedSource.IsAnchor insertedName := ⟨by decide, fun t h => by cases h⟩
  have hall := fun keep => queries_eq_scans (s := insertedSource) (by decide +kernel)
    (by decide +kernel) (by decide +kernel) ha ha keep 2
  obtain ⟨-, -, htokens, hfirsts, hbefore, -⟩ := hall Token.isAny
  obtain ⟨-, hlast, -, -, -, hafter, -⟩ := hall Token.isSemicolon
  rw [htokens.1, hfirsts.1, hbefore.1, hafter.1, hlast.2]
  decide +kernel

end Source

end ScriptIndent
