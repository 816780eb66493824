import ScriptIndent.Proofs.Rule.Standing

/-!
# ScriptIndent.Proofs.Rule.Judged

What is judged has been visited.

```
<b            an element has no rule: it is not looked into, and from its first
  c={() => {  token to its last nothing is judged
    d;
  }}
/>
```

A construct in a grammatical tree is visited, or stands within a visited node without a rule
(`Node.CodeWithin.visited_or`).  The tokens that overlap that node, and with them the tokens in it,
are not judged, and no others are (`Source.isIgnored_iff`).
-/

namespace ScriptIndent

/-! ## constructs in constructs -/

namespace Node

/-- A node is another, or is a construct of a construct … of it, without comments. -/
inductive CodeWithin : Node → Node → Prop
  | refl (n : Node) : CodeWithin n n
  | child {m c n : Node} (mem : c ∈ n.codeChildren) (within : CodeWithin m c) : CodeWithin m n

theorem CodeWithin.within {m n : Node} (h : m.CodeWithin n) : m.Within n := by
  induction h with
  | refl => exact .refl m
  | child mem _ ih => exact .child (mem_children_of_mem_codeChildren mem) ih

theorem Below.below_within {k m n : Node} (h : k.Below m) (hm : m.Within n) : k.Below n := by
  obtain ⟨c, hc, hk⟩ := h
  exact hk.trans_below (hm.below_of_mem hc)

/-- What is in a tree is visited, or stands within a visited node without a rule. -/
theorem CodeWithin.visited_or {m n : Node} (h : m.CodeWithin n) (hcomment : n.isComment = false)
    (ancestors : List Node) :
    (∃ above, ⟨m, above⟩ ∈ n.visited ancestors) ∨
      ∃ place ∈ n.visited ancestors, Construct.ofKind? place.node.kind = none ∧
        m.Within place.node := by
  induction h generalizing ancestors with
  | refl => exact .inl ⟨ancestors, self_mem_visited hcomment ancestors⟩
  | @child c n mem within ih =>
    obtain ⟨hnamed, hcode⟩ := List.mem_filter.1 mem
    cases hrule : Construct.ofKind? n.kind with
    | none =>
      exact .inr ⟨_, self_mem_visited hcomment ancestors, hrule, (CodeWithin.child mem within).within⟩
    | some construct =>
      have hsubset := visited_subset_of_mem hrule ancestors hnamed
      rcases ih (by simpa using hcode) (n :: ancestors) with ⟨above, hvisited⟩ | ⟨p, hp, hnone, hm⟩
      · exact .inl ⟨above, hsubset hvisited⟩
      · exact .inr ⟨p, hsubset hp, hnone, hm⟩

end Node

/-! ## ranges that are not judged -/

namespace Analysis

variable {s : Source} {caseLevels : Int} {a : Analysis} {place : Node.Placed}
  {places : List Node.Placed} {range : Offset × Offset}

/-- If the walk goes through, every place is visited. -/
theorem visitAll_eq_foldl (h : (a.visitAll s caseLevels places).fault = none) :
    a.visitAll s caseLevels places = places.foldl (visit s caseLevels) a := by
  induction places generalizing a with
  | nil => rfl
  | cons place rest ih =>
    rw [visitAll] at h ⊢
    split
    · next hfault =>
      rw [if_pos hfault] at h
      simp [h] at hfault
    · next hfault =>
      rw [if_neg hfault] at h
      exact ih h

/-- A visit leaves a range unjudged if the node has no rule, from its first token to its last. -/
theorem mem_ignored_visit : range ∈ (a.visit s caseLevels place).registry.ignored ↔
    range ∈ a.registry.ignored ∨ Construct.ofKind? place.node.kind = none ∧
      ∃ first last, s.first? place.node = some first ∧ s.last? place.node = some last ∧
        (first.start, last.stop) = range := by
  rw [visit, Rule.visit?]
  cases hrule : Construct.ofKind? place.node.kind with
  | some construct => simp [Registry.ignored_record]
  | none =>
    cases s.first? place.node <;> cases s.last? place.node <;>
      simp [Registry.ignore, eq_comm (a := range)]

/-- What is not judged after visits are the ranges of the places without a rule. -/
theorem mem_ignored_foldl : range ∈ (places.foldl (visit s caseLevels) a).registry.ignored ↔
    range ∈ a.registry.ignored ∨ ∃ place ∈ places, Construct.ofKind? place.node.kind = none ∧
      ∃ first last, s.first? place.node = some first ∧ s.last? place.node = some last ∧
        (first.start, last.stop) = range := by
  induction places generalizing a with
  | nil => simp
  | cons place rest ih =>
    rw [List.foldl_cons, ih, mem_ignored_visit, or_assoc, List.exists_mem_cons_iff]

end Analysis

namespace Source

variable {s : Source} {n : Node} {caseLevels : Int} {k : Nat} {t : Token}

theorem Ordered.le_of_le (h : s.Ordered) {i j : Nat} {u v : Token} (hij : i ≤ j) (hu : s.At i u)
    (hv : s.At j v) : u.start ≤ v.start ∧ u.stop ≤ v.stop := by
  rcases Nat.lt_or_eq_of_le hij with hlt | rfl
  · have := h.disjoint hlt hu hv
    have := h.proper hu
    have := h.proper hv
    lia
  · obtain rfl := Option.mem_unique hu hv
    exact ⟨Int.le_refl _, Int.le_refl _⟩

/-- A node begins no later than a token that it overlaps. -/
theorem Ordered.exists_first_le (h : s.Ordered) (ht : s.At k t) (hstart : n.start < t.stop)
    (hstop : t.start < n.stop) : ∃ first, s.first? n = some first ∧ first.start ≤ t.start := by
  change ∃ first, s.firstOfNode? n = some first ∧ _
  rw [firstOfNode?]
  split
  · next u hu =>
    rw [Option.filter_eq_some_iff, decide_eq_true_eq] at hu
    obtain ⟨hu, hlt⟩ := hu
    split at hu
    · cases hu
    refine ⟨u, rfl, (h.le_of_le (Nat.le_of_not_lt fun hk => ?_) hu ht).1⟩
    have := h.disjoint hk ht hu
    have := (h.lt_startsUpTo_iff hu n.start).1 (by omega)
    lia
  · next hnone =>
    have hge : s.startsUpTo n.start ≤ k := by
      refine Nat.le_of_not_lt fun hk => ?_
      have hsize : s.startsUpTo n.start ≤ s.tokens.size := partitionPoint_le _ _
      have hu := Array.getElem?_eq_getElem (show s.startsUpTo n.start - 1 < s.tokens.size by omega)
      have := (h.le_of_le (by omega) ht hu).2
      rw [if_neg (by omega), hu, Option.filter_some, if_pos (by simp; lia)] at hnone
      cases hnone
    obtain ⟨u, hu⟩ : ∃ u, s.At (s.startsUpTo n.start) u :=
      ⟨_, Array.getElem?_eq_getElem (Nat.lt_of_le_of_lt hge (Array.getElem?_eq_some_iff.1 ht).1)⟩
    have hle := (h.le_of_le hge hu ht).1
    exact ⟨u, by rw [hu, Option.filter_some, if_pos (by simp; lia)], hle⟩

/-- A node ends no sooner than a token that it overlaps. -/
theorem Ordered.exists_last_ge (h : s.Ordered) (ht : s.At k t) (hstart : n.start < t.stop)
    (hstop : t.start < n.stop) : ∃ last, s.last? n = some last ∧ t.stop ≤ last.stop := by
  have hk : k < s.startsBefore n.stop := (h.lt_startsBefore_iff ht _).2 hstop
  have hsize : s.startsBefore n.stop ≤ s.tokens.size := partitionPoint_le _ _
  have hcovered (l : Nat) (hkl : k ≤ l) (hl : l < s.startsBefore n.stop) :
      ∃ u, s.tokens[l]? = some u ∧ n.start < u.stop := by
    have hl := Array.getElem?_eq_getElem (show l < s.tokens.size by omega)
    have := (h.le_of_le hkl ht hl).2
    exact ⟨_, hl, by lia⟩
  obtain ⟨l, u, hkl, -, hu, -, hlast⟩ :=
    exists_scanCovered hk ht (show Token.isAny t = true from rfl) hcovered
  exact ⟨u, hlast, (h.le_of_le hkl ht hu).2⟩

/-- The first token of a node covers its start, or else starts inside it. -/
theorem Ordered.exists_at_first (h : s.Ordered) (hfirst : s.firstOfNode? n = some t) :
    ∃ k, s.At k t ∧ n.start < t.stop ∧ (t.start ≤ n.start ∨ t.start < n.stop) := by
  rw [firstOfNode?] at hfirst
  split at hfirst
  · next u hu =>
    obtain rfl := Option.some.inj hfirst
    rw [Option.filter_eq_some_iff, decide_eq_true_eq] at hu
    obtain ⟨hu, hstop⟩ := hu
    split at hu
    · cases hu
    exact ⟨_, hu, hstop, .inl ((h.lt_startsUpTo_iff hu n.start).1 (by omega))⟩
  · rw [Option.filter_eq_some_iff, decide_eq_true_eq] at hfirst
    obtain ⟨ht, hstop⟩ := hfirst
    have := mt (h.lt_startsUpTo_iff ht n.start).2 (Nat.lt_irrefl _)
    have := h.proper ht
    exact ⟨_, ht, by lia, .inr hstop⟩

/-- A node that is not empty overlaps its first token. -/
theorem Ordered.overlaps_first (h : s.Ordered) (hlt : n.start < n.stop)
    (hfirst : s.firstOfNode? n = some t) :
    ∃ k, s.At k t ∧ n.start < t.stop ∧ t.start < n.stop := by
  obtain ⟨k, ht, hstart, hstop⟩ := h.exists_at_first hfirst
  exact ⟨k, ht, hstart, by lia⟩

/-- A token stands between the first token of a node and the last if and only if the two ranges
overlap. -/
theorem Ordered.between_iff (h : s.Ordered) (ht : s.At k t) :
    (∃ first last, s.first? n = some first ∧ s.last? n = some last ∧ first.start ≤ t.start ∧
      t.start < last.stop) ↔ n.start < t.stop ∧ t.start < n.stop := by
  constructor
  · rintro ⟨first, last, hfirst, hlast, hle, hlt⟩
    obtain ⟨l, hl, hu, -, -⟩ := scanCovered_eq_some hlast
    obtain ⟨j, hj, hstart, -⟩ := h.exists_at_first hfirst
    have hjk : j ≤ k := Nat.le_of_not_lt fun hkj => by
      have := h.disjoint hkj ht hj
      have := h.proper ht
      lia
    have hkl : k ≤ l := Nat.le_of_not_lt fun hlk => by
      have := h.disjoint hlk hu ht
      lia
    have := (h.le_of_le hjk hj ht).2
    have := (h.le_of_le hkl ht hu).1
    have := (h.lt_startsBefore_iff hu n.stop).1 hl
    exact ⟨by lia, by lia⟩
  · rintro ⟨hstart, hstop⟩
    obtain ⟨first, hfirst, hle⟩ := h.exists_first_le ht hstart hstop
    obtain ⟨last, hlast, hge⟩ := h.exists_last_ge ht hstart hstop
    have := h.proper ht
    exact ⟨first, last, hfirst, hlast, hle, by lia⟩

/-- Not judged are the tokens that overlap a visited node without a rule. -/
theorem isIgnored_iff (h : s.Ordered) (hfault : (s.analyze caseLevels).fault = none)
    (ht : s.At k t) : (s.analyze caseLevels).registry.isIgnored t = true ↔
      ∃ place ∈ s.root.visited [], Construct.ofKind? place.node.kind = none ∧
        place.node.start < t.stop ∧ t.start < place.node.stop := by
  rw [analyze] at hfault
  rw [analyze, Analysis.visitAll_eq_foldl hfault, Registry.isIgnored, List.any_eq_true]
  simp only [Analysis.mem_ignored_foldl, List.not_mem_nil, false_or, ← h.between_iff ht, Bool.and_eq_true,
    decide_eq_true_eq]
  constructor
  · rintro ⟨-, ⟨place, hplace, hrule, first, last, hfirst, hlast, rfl⟩, hbetween⟩
    exact ⟨place, hplace, hrule, first, last, hfirst, hlast, hbetween⟩
  · rintro ⟨place, hplace, hrule, first, last, hfirst, hlast, hbetween⟩
    exact ⟨_, ⟨place, hplace, hrule, first, last, hfirst, hlast, rfl⟩, hbetween⟩

/-- A construct with a token that is judged is visited. -/
theorem exists_visited_of_judged (g : s.root.Grammatical s.buffer)
    (hn : n.CodeWithin s.root) (ht : s.At k t) (hstart : n.start < t.stop) (hstop : t.start < n.stop)
    (hjudged : (s.analyze caseLevels).registry.isIgnored t = false) :
    ∃ ancestors, ⟨n, ancestors⟩ ∈ s.root.visited [] := by
  have hroot : s.root.isComment = false := by
    -- a comment makes no tokens
    by_contra hcomment
    have hsize := (spans_root g.nested g.bracketed).stop_eq
    rw [codeCount_of_isComment (by simpa using hcomment)] at hsize
    have := (Array.getElem?_eq_some_iff.1 ht).1
    omega
  rcases hn.visited_or hroot [] with hvisited | ⟨place, hplace, hrule, hwithin⟩
  · exact hvisited
  · have hnested := g.nested.of_within (Node.within_of_mem_visited hplace)
    have hrange := hnested.range_within hwithin
    have hignored : (s.analyze caseLevels).registry.isIgnored t = true :=
      (isIgnored_iff (stands_root g).ordered (analyze_pointsBack g caseLevels).1 ht).2
        ⟨place, hplace, hrule, by lia, by lia⟩
    simp [hignored] at hjudged

/-- A construct is visited if a construct in it begins with a token that is judged. -/
theorem exists_visited_of_first (g : s.root.Grammatical s.buffer) (hn : n.CodeWithin s.root)
    {c : Node} (hc : c.Below n) (hcode : c.IsCode) (hfirst : s.firstOfNode? c = some t)
    (hjudged : (s.analyze caseLevels).registry.isIgnored t = false) :
    ∃ ancestors, ⟨n, ancestors⟩ ∈ s.root.visited [] := by
  have htoken := g.hasToken c (hc.below_within hn.within) hcode
  have hnested := g.nested.of_within hn.within
  have hlt : c.start < c.stop := by
    refine Int.lt_iff_le_and_ne.2 ⟨(hnested.of_within hc.within).le, fun hempty => ?_⟩
    simp [Node.HasToken, Node.pieces_eq, hempty, Piece.codeCount] at htoken
  obtain ⟨k, ht, hstart, hstop⟩ := (stands_root g).ordered.overlaps_first hlt hfirst
  obtain ⟨h₁, -, h₂⟩ := hnested.range_within hc.within
  exact exists_visited_of_judged g hn ht (by lia) (by lia) hjudged

end Source

end ScriptIndent
