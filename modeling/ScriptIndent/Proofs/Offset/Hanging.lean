import ScriptIndent.Proofs.Offset.Chain

/-!
# ScriptIndent.Proofs.Offset.Hanging

Lines that hang on tokens of the lines above them.

```
if (x) {     0              the tokens above a line, with the levels of their lines
  a;         ⟨a, {, 1⟩      a line hangs if the entry of its first token gives an
}            ⟨}, {, 0⟩      absolute level or counts from a token above
```

Each line is placed by one entry, and a chain of bases ends after one step.  So the levels
are those that the entries say, line by line (`Registry.Hanging.result_settle`).
-/

namespace ScriptIndent

namespace Registry

variable {r : Registry} {above more : List (Token × Int)} {t : Token} {level : Int}

/-- The entry of a token gives it a level, at once or from a token above. -/
def Hangs (r : Registry) (above : List (Token × Int)) (t : Token) (level : Int) : Prop :=
  ∃ e, r.get? t = some e ∧
    (e.base = none ∧ e.levels = level ∨
      ∃ base from', e.base = some base ∧ (base, from') ∈ above ∧ level = from' + e.levels)

/-- Lines that hang on the tokens above them. -/
inductive Hanging (r : Registry) : List (Token × Int) → List (List Token) → List Int → Prop
  | nil {above : List (Token × Int)} : Hanging r above [] []
  | cons {above : List (Token × Int)} {t : Token} {code : List Token} {level : Int}
      {lines : List (List Token)} {levels : List Int} (hangs : r.Hangs above t level)
      (rest : Hanging r (above ++ (t :: code).map (·, level)) lines levels) :
      Hanging r above ((t :: code) :: lines) (level :: levels)

theorem Hangs.start {e : Entry} (h : r.get? t = some e) (hbase : e.base = none) :
    r.Hangs above t e.levels := ⟨e, h, .inl ⟨hbase, rfl⟩⟩

theorem Hangs.base {base : Token} {from' levels : Int} (h : r.get? t = some ⟨t, some base, levels⟩)
    (hbase : (base, from') ∈ above) : r.Hangs above t (from' + levels) :=
  ⟨_, h, .inr ⟨base, from', rfl, hbase, rfl⟩⟩

theorem Hangs.mono (h : r.Hangs above t level) (hsub : above ⊆ more) : r.Hangs more t level := by
  obtain ⟨e, hentry, hcase⟩ := h
  refine ⟨e, hentry, hcase.imp_right ?_⟩
  rintro ⟨base, from', hbase, hmem, hlevel⟩
  exact ⟨base, from', hbase, hsub hmem, hlevel⟩

theorem Hanging.mono {lines : List (List Token)} {levels : List Int}
    (h : r.Hanging above lines levels) (hsub : above ⊆ more) : r.Hanging more lines levels := by
  induction h generalizing more with
  | nil => exact .nil
  | cons hangs _ ih =>
    exact .cons (hangs.mono hsub)
      (ih (List.append_subset.2 ⟨List.Subset.trans hsub (List.subset_append_left _ _),
        List.subset_append_right _ _⟩))

/-- Lines hang piecewise. -/
theorem Hanging.append {lines lines' : List (List Token)} {levels levels' : List Int}
    (h : r.Hanging above lines levels) (h' : r.Hanging above lines' levels') :
    r.Hanging above (lines ++ lines') (levels ++ levels') := by
  induction h with
  | nil => exact h'
  | cons hangs _ ih => exact .cons hangs (ih (h'.mono (List.subset_append_left _ _)))

/-- The level of a token that hangs, if the levels above it are known. -/
theorem Hangs.resolve {k : KnownLevels} (h : r.Hangs above t level) (hnew : k.get? t = none)
    (hknown : ∀ p ∈ above, k.get? p.1 = some p.2) : r.resolve k t = .ok level := by
  obtain ⟨e, hentry, ⟨hbase, rfl⟩ | ⟨base, from', hbase, hmem, rfl⟩⟩ := h
  · rw [Registry.resolve, resolveFrom_of_start hnew (by simp) hentry hbase, Int.zero_add]
  · rw [Registry.resolve, resolveFrom_of_base hnew (by simp) hentry hbase,
      resolveFrom_of_known (hknown _ hmem), Int.zero_add, Int.add_comm]

/-- Every token is judged if no range is left out. -/
theorem isIgnored_eq_false (h : r.ignored = []) (t : Token) : r.isIgnored t = false := by
  rw [isIgnored, h]
  rfl

/-- Each line with its level. -/
def leveled (lines : List (List Token)) (levels : List Int) : LineLevels :=
  (lines.zip levels).filterMap fun p => p.1.head?.map fun t => (t.line, p.2)

/-- The levels of lines that hang are those that their entries say. -/
theorem Hanging.result_settle {lines : List (List Token)} {levels : List Int}
    (h : r.Hanging above lines levels) (hignored : r.ignored = []) {k : KnownLevels}
    (hcode : ∀ t ∈ lines.flatten, t.isComment = false) (hnodup : lines.flatten.Nodup)
    (hnew : ∀ t ∈ lines.flatten, k.get? t = none)
    (hknown : ∀ p ∈ above, k.get? p.1 = some p.2) :
    (r.settle k lines).result = .ok (leveled lines levels) := by
  induction h generalizing k with
  | nil =>
    rw [settle]
    rfl
  | @cons above t code level lines levels hangs _ ih =>
    rw [List.flatten_cons] at hcode hnodup hnew
    obtain ⟨-, hrest, hapart⟩ := List.nodup_append.1 hnodup
    have hline : (t :: code).filter (!·.isComment) = t :: code :=
      List.filter_eq_self.2 fun u hu => by simp [hcode u (List.mem_append_left _ hu)]
    have hresolve := hangs.resolve (hnew t (by simp)) hknown
    have hjudged : (t.isComment || r.isIgnored t) = false := by
      simp [hcode t (by simp), isIgnored_eq_false hignored]
    have hfresh : ∀ u ∈ lines.flatten, (k.noteAll (t :: code) level).get? u = none := by
      intro u hu
      have hnot : u ∉ t :: code := fun hmem => hapart u hmem u hu rfl
      rw [KnownLevels.get?_noteAll_of_not_mem hnot]
      exact hnew u (List.mem_append_right _ hu)
    have hsettled : ∀ p ∈ above ++ (t :: code).map (·, level),
        (k.noteAll (t :: code) level).get? p.1 = some p.2 := by
      intro p hp
      rcases List.mem_append.1 hp with hp | hp
      · exact KnownLevels.get?_noteAll_of_some (hknown p hp) _ _
      · obtain ⟨u, hu, rfl⟩ := List.mem_map.1 hp
        exact KnownLevels.get?_noteAll_of_mem (hnew u (List.mem_append_left _ hu)) hu level
    have hlevels := ih (fun u hu => hcode u (List.mem_append_right _ hu)) hrest hfresh hsettled
    rw [settle_cons_of_ok hline hresolve, hjudged]
    simp only [Bool.false_eq_true, if_false, hlevels]
    rfl

end Registry

end ScriptIndent
