import ScriptIndent.Check.Analysis
import ScriptIndent.Proofs.Offset.Chain
import ScriptIndent.Proofs.Rule.Depth
import ScriptIndent.Proofs.Stream.Leaders

/-!
# ScriptIndent.Proofs.Offset.Levels

The levels of lines.

1. The lines that get a level are lines with a leader, from top to bottom
   (`Registry.settle_lines`).
2. If no entry places a token less deep than its base, no line has a negative level
   (`Registry.settle_nonneg`); this is so after every analysis of a source in which no
   block of script begins at a negative level (`Source.analyze_rises`).
-/

namespace ScriptIndent

namespace Registry

variable {r : Registry} {k : KnownLevels}

/-! ## lines -/

/-- The lines that get a level are the lines of some leaders. -/
theorem settle_lines {lines : List (List Token)} {levels : LineLevels}
    (h : (r.settle k lines).result = .ok levels) :
    (levels.map Prod.fst).Sublist ((Source.leaders lines).map (·.line)) := by
  induction lines generalizing k levels with
  | nil =>
    rw [settle] at h
    obtain rfl := Except.ok.inj h
    exact .slnil
  | cons line rest ih =>
    cases line with
    | nil =>
      rw [settle_cons_of_nil rfl] at h
      exact ih h
    | cons leader line =>
      rw [Source.leaders, List.filterMap_cons, List.head?_cons, List.map_cons]
      cases hcode : (leader :: line).filter (!·.isComment) with
      | nil =>
        rw [settle_cons_of_nil hcode] at h
        exact (ih h).cons _
      | cons t code =>
        cases hresolve : r.resolve k t with
        | error cycle =>
          rw [settle_cons_of_error hcode hresolve] at h
          cases h
        | ok level =>
          rw [settle_cons_of_ok hcode hresolve] at h
          split at h
          · exact (ih h).cons _
          · dsimp only at h
            cases hrest : (r.settle (k.noteAll (t :: code) level) rest).result with
            | error cycle =>
              rw [hrest] at h
              cases h
            | ok more =>
              rw [hrest] at h
              obtain rfl := Except.ok.inj h
              exact (ih hrest).cons_cons _

/-! ## levels that are not negative -/

/-- No entry places a token less deep than its base. -/
def Rises (r : Registry) : Prop := ∀ e ∈ r.records, 0 ≤ e.levels

/-- No level that is known is negative. -/
def KnowsNonneg (k : KnownLevels) : Prop := ∀ t level, k.get? t = some level → 0 ≤ level

theorem KnowsNonneg.note (h : KnowsNonneg k) (t : Token) {level : Int} (hlevel : 0 ≤ level) :
    KnowsNonneg (k.note t level) := by
  intro u l hl
  by_cases heq : u = t
  · rw [heq, KnownLevels.get?_note_self] at hl
    cases hk : k.get? t with
    | none =>
      rw [hk] at hl
      exact Option.some.inj hl ▸ hlevel
    | some l' =>
      rw [hk] at hl
      exact Option.some.inj hl ▸ h t l' hk
  · rw [KnownLevels.get?_note_of_ne heq] at hl
    exact h u l hl

theorem KnowsNonneg.noteAll (h : KnowsNonneg k) (ts : List Token) {level : Int}
    (hlevel : 0 ≤ level) : KnowsNonneg (k.noteAll ts level) := by
  induction ts generalizing k with
  | nil => exact h
  | cons t rest ih => exact ih (h.note t hlevel)

private theorem resolveFrom_nonneg (hr : r.Rises) (hk : KnowsNonneg k) {seen : List Token} {total : Int}
    (htotal : 0 ≤ total) {t : Token} {level : Int}
    (h : r.resolveFrom k seen total t = .ok level) : 0 ≤ level := by
  fun_induction r.resolveFrom k seen total t with
  | case1 seen total t known hknown =>
    obtain rfl := Except.ok.inj h
    have := hk t known hknown
    lia
  | case2 => cases h
  | case3 =>
    obtain rfl := Except.ok.inj h
    exact htotal
  | case4 seen total t hknown hmem e hentry hbase =>
    obtain rfl := Except.ok.inj h
    have := hr e (mem_of_get? hentry).1
    lia
  | case5 seen total t hknown hmem e hentry base hbase ih =>
    have := hr e (mem_of_get? hentry).1
    exact ih (by lia) h

/-- No line has a negative level. -/
theorem settle_nonneg (hr : r.Rises) (hk : KnowsNonneg k) {lines : List (List Token)}
    {levels : LineLevels} (h : (r.settle k lines).result = .ok levels) :
    ∀ p ∈ levels, 0 ≤ p.2 := by
  induction lines generalizing k levels with
  | nil =>
    rw [settle] at h
    obtain rfl := Except.ok.inj h
    simp
  | cons line rest ih =>
    cases line with
    | nil =>
      rw [settle_cons_of_nil rfl] at h
      exact ih hk h
    | cons leader line =>
      cases hcode : (leader :: line).filter (!·.isComment) with
      | nil =>
        rw [settle_cons_of_nil hcode] at h
        exact ih hk h
      | cons t code =>
        cases hresolve : r.resolve k t with
        | error cycle =>
          rw [settle_cons_of_error hcode hresolve] at h
          cases h
        | ok level =>
          have hlevel : 0 ≤ level := resolveFrom_nonneg hr hk (Int.le_refl 0) hresolve
          have hknown := hk.noteAll (t :: code) hlevel
          rw [settle_cons_of_ok hcode hresolve] at h
          split at h
          · exact ih hknown h
          · dsimp only at h
            cases hrest : (r.settle (k.noteAll (t :: code) level) rest).result with
            | error cycle =>
              rw [hrest] at h
              cases h
            | ok more =>
              rw [hrest] at h
              obtain rfl := Except.ok.inj h
              intro p hp
              rcases List.mem_cons.1 hp with rfl | hp
              · exact hlevel
              · exact ih hknown hrest p hp

theorem Rises.record (hr : r.Rises) {es : List Entry} (h : ∀ e ∈ es, 0 ≤ e.levels) :
    (r.record es).Rises :=
  fun e he => (mem_record he).elim (hr e) (h e)

theorem Rises.ignore (hr : r.Rises) (first last : Option Token) : (r.ignore first last).Rises := by
  cases first with
  | none => exact hr
  | some t =>
    cases last with
    | none => exact hr
    | some u => exact hr

end Registry

/-! ## analyses -/

variable {s : Source} {caseLevels : Int}

theorem Analysis.visit_rises (hblocks : ∀ b ∈ s.blocks, 0 ≤ b.baseLevel)
    (hcase : 0 ≤ caseLevels) {a : Analysis} (h : a.registry.Rises) (place : Node.Placed) :
    (a.visit s caseLevels place).registry.Rises := by
  rw [visit]
  split
  · next draft hdraft => exact h.record (Rule.visit?_deepens s hblocks hcase hdraft)
  · exact h.ignore _ _

theorem Analysis.visitAll_rises (hblocks : ∀ b ∈ s.blocks, 0 ≤ b.baseLevel)
    (hcase : 0 ≤ caseLevels) {a : Analysis} (h : a.registry.Rises) (places : List Node.Placed) :
    (a.visitAll s caseLevels places).registry.Rises := by
  induction places generalizing a with
  | nil => exact h
  | cons place rest ih =>
    have hvisit := visit_rises hblocks hcase h place
    rw [visitAll]
    split
    · exact hvisit
    · exact ih hvisit

/-- No entry of an analysis places a token less deep than its base. -/
theorem Source.analyze_rises (hblocks : ∀ b ∈ s.blocks, 0 ≤ b.baseLevel)
    (hcase : 0 ≤ caseLevels) : (s.analyze caseLevels).registry.Rises :=
  Analysis.visitAll_rises hblocks hcase (fun e he => by simp at he) _

end ScriptIndent
