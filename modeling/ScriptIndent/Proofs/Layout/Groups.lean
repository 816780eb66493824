import ScriptIndent.Proofs.Layout.Restyle

/-!
# ScriptIndent.Proofs.Layout.Groups

The division of tokens and comments into lines.

```
`a
b` + c      goes on with what follows the literal on its last line
d           opens a group: all that comes before ends on an earlier line
```

All tokens and comments are listed once, by their starts (`Source.merged_isStableSort`), and the
list is cut where a token starts behind every line that those before it reach
(`Source.opensGroup_lines_iff`).  Nothing is asked of the tree: where tokens overlap, the lines that
they reach still only grow.  So no line is reached from two groups (`Source.lines_apart`).
-/

namespace ScriptIndent

namespace Source

/-! ## sorting -/

/-- Tokens sorted by their starts; those that start together keep their order. -/
structure IsStableSort (ts sorted : List Token) : Prop where
  perm : sorted.Perm ts
  ordered : sorted.Pairwise (·.start ≤ ·.start)
  stable (o : Offset) : sorted.filter (·.start = o) = ts.filter (·.start = o)

theorem merged_isStableSort (s : Source) :
    IsStableSort (s.tokens.toList ++ s.comments) s.merged where
  perm := List.mergeSort_perm _ _
  ordered := s.pairwise_merged
  stable o := by
    have hperm : s.merged.Perm (s.tokens.toList ++ s.comments) := List.mergeSort_perm _ _
    have hsub : ((s.tokens.toList ++ s.comments).filter (·.start = o)).Sublist s.merged := by
      refine List.sublist_mergeSort (fun a b c hab hbc => ?_) (fun a b => ?_)
        (List.pairwise_of_forall_mem_list fun a ha b hb => ?_) List.filter_sublist
      · rw [decide_eq_true_eq] at hab hbc ⊢
        exact Int.le_trans hab hbc
      · rw [Bool.or_eq_true, decide_eq_true_eq, decide_eq_true_eq]
        exact Int.le_total _ _
      · have ha := (List.mem_filter.1 ha).2
        have hb := (List.mem_filter.1 hb).2
        rw [decide_eq_true_eq] at ha hb ⊢
        exact Int.le_of_eq (ha.trans hb.symm)
    have hfilter := hsub.filter (·.start = o)
    rw [List.filter_filter] at hfilter
    simp only [Bool.and_self] at hfilter
    exact (hfilter.eq_of_length (hperm.filter _).length_eq.symm).symm

/-! ## cutting -/

/-- A token opens a group, and `before` are the tokens of the groups above. -/
def OpensGroup (groups : List (List Token)) (before : List Token) (t : Token) : Prop :=
  ∃ above rest below, groups = above ++ (t :: rest) :: below ∧ above.flatten = before

/-- The group that is being read comes first. -/
theorem exists_groupsFrom_eq (reached : Nat) {current : List Token} (h : current ≠ [])
    (ts : List Token) :
    ∃ more below, groupsFrom reached current ts = (current.reverse ++ more) :: below := by
  induction ts generalizing reached current with
  | nil => exact ⟨[], [], by simp [groupsFrom, h]⟩
  | cons t rest ih =>
    rw [groupsFrom]
    split
    · exact ⟨[], _, by rw [List.append_nil]⟩
    · obtain ⟨more, below, heq⟩ := ih (max reached t.endLine) (List.cons_ne_nil t current)
      exact ⟨t :: more, below, by simp [heq]⟩

/-- The next group opens behind the group that is being read, or within the rest. -/
theorem opensGroup_cons_iff {group before : List Token} {groups : List (List Token)} {t : Token}
    (hgroup : group ≠ []) :
    OpensGroup (group :: groups) (group ++ before) t ↔ OpensGroup groups before t := by
  constructor
  · rintro ⟨above, rest, below, heq, hbefore⟩
    cases above with
    | nil => exact absurd hbefore.symm (by simp [hgroup])
    | cons first above =>
      obtain ⟨rfl, rfl⟩ := List.cons.inj heq
      exact ⟨above, rest, below, rfl, List.append_cancel_left hbefore⟩
  · rintro ⟨above, rest, below, rfl, rfl⟩
    exact ⟨group :: above, rest, below, rfl, rfl⟩

/-- While a group is being read, a token opens a new one if it starts behind the line that is
reached, and behind those that the tokens on the way reach. -/
theorem opensGroup_groupsFrom_iff {reached : Nat} {current before behind : List Token} {t : Token}
    (hcurrent : current ≠ []) :
    OpensGroup (groupsFrom reached current (before ++ t :: behind)) (current.reverse ++ before) t ↔
      reached < t.line ∧ ∀ u ∈ before, u.endLine < t.line := by
  have hreverse {ts : List Token} (h : ts ≠ []) : ts.reverse ≠ [] := by simpa using h
  have hempty : current.isEmpty = false := by simpa using hcurrent
  induction before generalizing reached current with
  | nil =>
    rw [List.nil_append, groupsFrom, hempty, Bool.not_false, Bool.true_and]
    by_cases hnew : reached < t.line
    · rw [if_pos (decide_eq_true hnew), opensGroup_cons_iff (hreverse hcurrent)]
      obtain ⟨more, below, heq⟩ :=
        exists_groupsFrom_eq (max reached t.endLine) (List.cons_ne_nil t []) behind
      exact iff_of_true ⟨[], more, below, heq, rfl⟩ ⟨hnew, by simp⟩
    · rw [if_neg (by simpa using hnew)]
      refine iff_of_false ?_ fun h => hnew h.1
      rintro ⟨above, rest, below, heq, hflatten⟩
      obtain ⟨more, others, hgroups⟩ :=
        exists_groupsFrom_eq (max reached t.endLine) (List.cons_ne_nil t current) behind
      rw [hgroups] at heq
      rw [List.append_nil] at hflatten
      cases above with
      | nil => exact hreverse hcurrent hflatten.symm
      | cons first above =>
        -- the first group holds the token and what is before it
        have hlength := congrArg List.length hflatten
        rw [← (List.cons.inj heq).1] at hlength
        simp at hlength
  | cons u before ih =>
    rw [List.cons_append, groupsFrom, hempty, Bool.not_false, Bool.true_and]
    simp only [List.forall_mem_cons]
    have hmax : max reached u.endLine < t.line ↔ reached < t.line ∧ u.endLine < t.line :=
      Nat.max_lt
    by_cases hnew : reached < u.line
    · rw [if_pos (decide_eq_true hnew), opensGroup_cons_iff (hreverse hcurrent),
        ← and_assoc, ← hmax]
      exact ih (List.cons_ne_nil u []) rfl
    · rw [if_neg (by simpa using hnew), ← and_assoc, ← hmax,
        List.append_cons current.reverse, ← List.reverse_cons]
      exact ih (List.cons_ne_nil u current) rfl

/-- No group is empty. -/
theorem nil_notMem_groupsFrom (reached : Nat) (current ts : List Token) :
    [] ∉ groupsFrom reached current ts := by
  induction ts generalizing reached current with
  | nil =>
    rw [groupsFrom]
    cases current <;> simp
  | cons t rest ih =>
    rw [groupsFrom]
    split
    · next hnew =>
      have hcurrent : current ≠ [] := by
        rintro rfl
        simp at hnew
      simp [Ne.symm (mt List.reverse_eq_nil_iff.1 hcurrent), ih]
    · exact ih _ _

variable {s : Source}

theorem nil_notMem_lines (s : Source) : [] ∉ s.lines := nil_notMem_groupsFrom 0 [] s.merged

theorem opensGroup_lines_iff {before behind : List Token} {t : Token}
    (h : s.merged = before ++ t :: behind) :
    OpensGroup s.lines before t ↔ ∀ u ∈ before, u.endLine < t.line := by
  rw [lines, h]
  cases before with
  | nil =>
    rw [List.nil_append, groupsFrom, if_neg (by simp)]
    obtain ⟨more, below, heq⟩ :=
      exists_groupsFrom_eq (max 0 t.endLine) (List.cons_ne_nil t []) behind
    exact iff_of_true ⟨[], more, below, heq, rfl⟩ (by simp)
  | cons u before =>
    rw [List.cons_append, groupsFrom, if_neg (by simp), Nat.zero_max, List.forall_mem_cons]
    exact opensGroup_groupsFrom_iff (List.cons_ne_nil u [])

/-- What stands in a group ends on an earlier line than anything in a later group starts. -/
theorem lines_apart (s : Source) :
    s.lines.Pairwise fun group later => ∀ t ∈ group, ∀ u ∈ later, t.endLine < u.line := by
  refine List.pairwise_iff_getElem.2 fun i j hi hj hij t ht u hu => ?_
  obtain ⟨leader, rest, hgroup⟩ : ∃ leader rest, s.lines[j] = leader :: rest :=
    List.exists_cons_of_ne_nil (List.ne_nil_of_mem hu)
  have hlines : s.lines = s.lines.take j ++ (leader :: rest) :: s.lines.drop (j + 1) := by
    rw [← hgroup, List.cons_getElem_drop_succ, List.take_append_drop]
  have hmerged : s.merged = (s.lines.take j).flatten ++
      leader :: (rest ++ (s.lines.drop (j + 1)).flatten) := by
    conv_lhs => rw [← flatten_lines, hlines]
    simp
  have hbefore := (opensGroup_lines_iff hmerged).1 ⟨_, rest, _, hlines, rfl⟩
  have hmem : s.lines[i] ∈ s.lines.take j :=
    List.mem_take_iff_getElem.2 ⟨i, by omega, rfl⟩
  have hlt := hbefore t (List.mem_flatten.2 ⟨_, hmem, ht⟩)
  -- the line of the group is that of its leader, or a later one
  have hstart : leader.start ≤ u.start := by
    rw [hgroup] at hu
    rcases List.mem_cons.1 hu with rfl | hu
    · exact Int.le_refl _
    · have hsorted := s.pairwise_merged
      rw [hmerged] at hsorted
      exact List.rel_of_pairwise_cons (List.pairwise_append.1 hsorted).2.1
        (List.mem_append_left _ hu)
  have hmemLeader : leader ∈ s.merged := by simp [hmerged]
  have hmemLater : u ∈ s.merged := by
    rw [← flatten_lines]
    exact List.mem_flatten.2 ⟨_, List.getElem_mem hj, hu⟩
  have hline : leader.line ≤ u.line := by
    rw [line_of_mem_merged hmemLeader, line_of_mem_merged hmemLater]
    exact s.buffer.lineOf_mono hstart
  exact Nat.lt_of_lt_of_le hlt hline

/-- The lines of a source, whatever its tree, are its tokens and comments by their starts, cut where
a token starts behind all lines that those before it reach.  Their leaders stand further and further
down, no line is reached from two groups, and whatever a registry holds and a resolver knows, each
line is given a level at most once. -/
theorem lines_partition (s : Source) :
    IsStableSort (s.tokens.toList ++ s.comments) s.lines.flatten ∧ [] ∉ s.lines ∧
      (∀ before t behind, s.lines.flatten = before ++ t :: behind →
        (OpensGroup s.lines before t ↔ ∀ u ∈ before, u.endLine < t.line)) ∧
      (leaders s.lines).Pairwise (·.line < ·.line) ∧
      s.lines.Pairwise (fun group later => ∀ t ∈ group, ∀ u ∈ later, t.endLine < u.line) ∧
      ∀ (r : Registry) (v : Resolver) levels, v.settled = none →
        (v.lineLevels s r).1 = .ok levels → levels.Pairwise (·.1 < ·.1) := by
  rw [flatten_lines]
  refine ⟨s.merged_isStableSort, s.nil_notMem_lines, fun before t behind h => opensGroup_lines_iff h,
    pairwise_leaders fun _ => line_le_endLine, s.lines_apart, fun r v levels hfresh hlevels => ?_⟩
  have hsettle : (r.settle v.known s.lines).result = .ok levels := by
    simpa only [Resolver.lineLevels, hfresh] using hlevels
  exact pairwise_levels hsettle

end Source

end ScriptIndent
