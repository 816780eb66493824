import ScriptIndent.Source.Basic

/-!
# ScriptIndent.Proofs.Stream.Leaders

The tokens and comments that lead the lines of a source.

Each line has a leader, its first token or comment.  Nothing that comes before a
leader ends on its line or behind (`Source.exists_pre_of_leader`), so the leaders
stand on different lines, further and further down (`Source.pairwise_leaders`).
-/

namespace ScriptIndent.Source

/-- The first tokens of some lines. -/
def leaders (lines : List (List Token)) : List Token := lines.filterMap List.head?

/-- A token leads a line among some tokens: those before it end on earlier lines. -/
def Leads (reached : Nat) (ts : List Token) (t : Token) : Prop :=
  reached < t.line ∧ ∃ pre post, ts = pre ++ t :: post ∧ ∀ u ∈ pre, u.endLine < t.line

theorem Leads.cons {reached : Nat} {u t : Token} {ts : List Token}
    (h : Leads (max reached u.endLine) ts t) : Leads reached (u :: ts) t := by
  obtain ⟨hlt, pre, post, rfl, hpre⟩ := h
  refine ⟨by omega, u :: pre, post, rfl, fun v hv => ?_⟩
  rcases List.mem_cons.1 hv with rfl | hv
  · omega
  · exact hpre v hv

/-- Behind the leader of the line that is being read come leaders of later lines. -/
theorem leaders_groupsFrom {ts : List Token} (h : ∀ t ∈ ts, t.line ≤ t.endLine) (reached : Nat)
    {current : List Token} {t : Token} (hcurrent : current.getLast? = some t) :
    ∃ rest, leaders (groupsFrom reached current ts) = t :: rest ∧
      rest.Pairwise (·.line < ·.line) ∧ ∀ u ∈ rest, Leads reached ts u := by
  have hhead : current.reverse.head? = some t := by rw [List.head?_reverse, hcurrent]
  have hempty : current.isEmpty = false := by
    cases current with
    | nil => cases hcurrent
    | cons => rfl
  induction ts generalizing reached current t with
  | nil =>
    rw [groupsFrom, hempty]
    refine ⟨[], ?_, .nil, by simp⟩
    simp [leaders, hhead]
  | cons u rest ih =>
    have hrest := fun v hv => h v (List.mem_cons_of_mem u hv)
    rw [groupsFrom, hempty, Bool.not_false, Bool.true_and]
    by_cases hnew : reached < u.line
    · rw [if_pos (decide_eq_true hnew)]
      have hlast : [u].getLast? = some u := rfl
      obtain ⟨more, hleaders, hpairwise, hmore⟩ := ih hrest (max reached u.endLine) hlast rfl rfl
      refine ⟨u :: more, ?_, .cons (fun v hv => ?_) hpairwise, fun v hv => ?_⟩
      · rw [leaders, List.filterMap_cons, hhead]
        exact congrArg (t :: ·) hleaders
      · have := (hmore v hv).1
        have := h u List.mem_cons_self
        omega
      · rcases List.mem_cons.1 hv with rfl | hv
        · exact ⟨hnew, [], rest, rfl, by simp⟩
        · exact (hmore v hv).cons
    · rw [if_neg (by simpa using hnew)]
      have hlast : (u :: current).getLast? = some t := by
        rw [List.getLast?_cons, hcurrent]
        rfl
      obtain ⟨more, hleaders, hpairwise, hmore⟩ := ih hrest (max reached u.endLine) hlast
        (by rw [List.head?_reverse, hlast]) rfl
      exact ⟨more, hleaders, hpairwise, fun v hv => (hmore v hv).cons⟩

/-- The first token leads a line, and after it come leaders of later lines. -/
theorem leaders_groupsFrom_cons {t : Token} {ts : List Token}
    (h : ∀ u ∈ t :: ts, u.line ≤ u.endLine) :
    ∃ rest, leaders (groupsFrom 0 [] (t :: ts)) = t :: rest ∧
      rest.Pairwise (·.line < ·.line) ∧ ∀ u ∈ rest, Leads t.endLine ts u := by
  rw [groupsFrom, if_neg (by simp), Nat.zero_max]
  exact leaders_groupsFrom (fun u hu => h u (List.mem_cons_of_mem t hu)) t.endLine rfl

variable {s : Source}

/-- Leaders stand on different lines. -/
theorem pairwise_leaders (h : ∀ t ∈ s.merged, t.line ≤ t.endLine) :
    (leaders s.lines).Pairwise (·.line < ·.line) := by
  rw [lines]
  cases hmerged : s.merged with
  | nil => exact .nil
  | cons t ts =>
    rw [hmerged] at h
    obtain ⟨rest, hleaders, hpairwise, hrest⟩ := leaders_groupsFrom_cons h
    rw [hleaders]
    refine .cons (fun u hu => ?_) hpairwise
    have := (hrest u hu).1
    have := h t List.mem_cons_self
    omega

/-- There is one leader to a line. -/
theorem eq_of_leaders (h : ∀ t ∈ s.merged, t.line ≤ t.endLine) {t u : Token}
    (ht : t ∈ leaders s.lines) (hu : u ∈ leaders s.lines) (hline : t.line = u.line) : t = u := by
  have hpairwise := List.pairwise_iff_getElem.1 (pairwise_leaders h)
  obtain ⟨i, hi, rfl⟩ := List.getElem_of_mem ht
  obtain ⟨j, hj, rfl⟩ := List.getElem_of_mem hu
  rcases Nat.lt_trichotomy i j with hij | rfl | hij
  · exact absurd hline (Nat.ne_of_lt (hpairwise i j hi hj hij))
  · rfl
  · exact absurd hline.symm (Nat.ne_of_lt (hpairwise j i hj hi hij))

/-- What comes before a leader ends on an earlier line. -/
theorem exists_pre_of_leader (h : ∀ t ∈ s.merged, t.line ≤ t.endLine) {t : Token}
    (ht : t ∈ leaders s.lines) :
    ∃ pre post, s.merged = pre ++ t :: post ∧ ∀ u ∈ pre, u.endLine < t.line := by
  rw [lines] at ht
  cases hmerged : s.merged with
  | nil =>
    rw [hmerged] at ht
    simp [groupsFrom, leaders] at ht
  | cons u ts =>
    rw [hmerged] at h ht
    obtain ⟨rest, hleaders, -, hrest⟩ := leaders_groupsFrom_cons h
    rw [hleaders] at ht
    rcases List.mem_cons.1 ht with rfl | ht
    · exact ⟨[], ts, rfl, by simp⟩
    · obtain ⟨hlt, pre, post, rfl, hpre⟩ := hrest t ht
      refine ⟨u :: pre, post, rfl, fun v hv => ?_⟩
      rcases List.mem_cons.1 hv with rfl | hv
      · exact hlt
      · exact hpre v hv

end ScriptIndent.Source
