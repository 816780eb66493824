import ScriptIndent.Offset.Resolver

/-!
# ScriptIndent.Proofs.Offset.Chain

Chains of bases, one step at a time, and what is known of levels.

1. The first level noted for a token stands (`KnownLevels.get?_note_self`), and
   nothing else changes (`KnownLevels.get?_note_of_ne`).
2. A search ends at a known level, at a token met before, at a token without an
   entry or at an absolute entry, and goes on at the base of any other entry
   (`Registry.resolveFrom_of_base`).
3. A line has the level of its first code token (`Registry.settle_cons_of_ok`).
-/

namespace ScriptIndent

/-! ## known levels -/

namespace KnownLevels

variable {k : KnownLevels}

theorem get?_note_of_ne {t u : Token} (h : u ≠ t) (level : Int) :
    (k.note t level).get? u = k.get? u := by
  rw [note]
  split
  · rfl
  · rw [get?, List.lookup_cons, beq_eq_false_iff_ne.2 h]
    rfl

theorem get?_note_self (k : KnownLevels) (t : Token) (level : Int) :
    (k.note t level).get? t = some ((k.get? t).getD level) := by
  rw [note]
  cases h : k.get? t with
  | some l => simp [h]
  | none => simp [get?]

/-- A level that is known stays. -/
theorem get?_note_of_some {u : Token} {l : Int} (h : k.get? u = some l) (t : Token)
    (level : Int) : (k.note t level).get? u = some l := by
  by_cases heq : u = t
  · rw [heq] at h ⊢
    rw [get?_note_self, h, Option.getD_some]
  · rw [get?_note_of_ne heq, h]

theorem get?_noteAll_of_some {u : Token} {l : Int} (h : k.get? u = some l) (ts : List Token)
    (level : Int) : (k.noteAll ts level).get? u = some l := by
  induction ts generalizing k with
  | nil => exact h
  | cons t rest ih => exact ih (get?_note_of_some h t level)

/-- Nothing is noted for other tokens. -/
theorem get?_noteAll_of_not_mem {u : Token} {ts : List Token} (h : u ∉ ts) (level : Int) :
    (k.noteAll ts level).get? u = k.get? u := by
  induction ts generalizing k with
  | nil => rfl
  | cons t rest ih =>
    rw [List.mem_cons, not_or] at h
    calc (k.noteAll (t :: rest) level).get? u = (k.note t level).get? u := ih h.2
      _ = k.get? u := get?_note_of_ne h.1 level

/-- A token of which nothing was known gets the level. -/
theorem get?_noteAll_of_mem {u : Token} (hknown : k.get? u = none) {ts : List Token}
    (h : u ∈ ts) (level : Int) : (k.noteAll ts level).get? u = some level := by
  induction ts generalizing k with
  | nil => simp at h
  | cons t rest ih =>
    by_cases heq : u = t
    · refine get?_noteAll_of_some ?_ rest level
      rw [heq, get?_note_self, ← heq, hknown, Option.getD_none]
    · exact ih ((get?_note_of_ne heq level).trans hknown) (List.mem_of_ne_of_mem heq h)

end KnownLevels

namespace Registry

/-! ## what a registry holds -/

theorem mem_put {e d : Entry} {es : List Entry} (h : d ∈ put e es) : d = e ∨ d ∈ es := by
  induction es with
  | nil => simpa [put] using h
  | cons old rest ih =>
    rw [put] at h
    split at h
    · exact (List.mem_cons.1 h).imp_right (List.mem_cons_of_mem old)
    · rcases List.mem_cons.1 h with rfl | h
      · exact .inr List.mem_cons_self
      · exact (ih h).imp_right (List.mem_cons_of_mem old)

/-- A registry holds what it held before, and what was recorded. -/
theorem mem_record {r : Registry} {es : List Entry} {d : Entry} (h : d ∈ (r.record es).records) :
    d ∈ r.records ∨ d ∈ es := by
  induction es generalizing r with
  | nil => exact .inl h
  | cons e rest ih =>
    rcases ih (r := r.insert e) h with h | h
    · rcases mem_put h with rfl | h
      · exact .inr List.mem_cons_self
      · exact .inl h
    · exact .inr (List.mem_cons_of_mem e h)

variable {r : Registry} {k : KnownLevels} {seen : List Token} {total : Int} {t : Token}

/-! ## chains of bases -/

theorem resolveFrom_of_known {level : Int} (h : k.get? t = some level) :
    r.resolveFrom k seen total t = .ok (total + level) := by
  rw [resolveFrom, h]

theorem resolveFrom_of_seen (h : k.get? t = none) (hseen : t ∈ seen) :
    r.resolveFrom k seen total t = .error ⟨t⟩ := by
  rw [resolveFrom, h]
  simp [hseen]

theorem resolveFrom_of_absent (h : k.get? t = none) (hseen : t ∉ seen) (hentry : r.get? t = none) :
    r.resolveFrom k seen total t = .ok total := by
  rw [resolveFrom, h]
  dsimp only
  rw [dif_neg hseen]
  split
  · rfl
  · next e he => rw [hentry] at he; cases he

theorem resolveFrom_of_start (h : k.get? t = none) (hseen : t ∉ seen) {e : Entry}
    (hentry : r.get? t = some e) (hbase : e.base = none) :
    r.resolveFrom k seen total t = .ok (total + e.levels) := by
  rw [resolveFrom, h]
  dsimp only
  rw [dif_neg hseen]
  split
  · next he => rw [hentry] at he; cases he
  · next e' he =>
    obtain rfl := Option.mem_unique hentry he
    rw [hbase]

theorem resolveFrom_of_base (h : k.get? t = none) (hseen : t ∉ seen) {e : Entry}
    (hentry : r.get? t = some e) {base : Token} (hbase : e.base = some base) :
    r.resolveFrom k seen total t = r.resolveFrom k (t :: seen) (total + e.levels) base := by
  rw [resolveFrom, h]
  dsimp only
  rw [dif_neg hseen]
  split
  · next he => rw [hentry] at he; cases he
  · next e' he =>
    obtain rfl := Option.mem_unique hentry he
    rw [hbase]

/-! ## settling -/

/-- Lines without code are passed over. -/
theorem settle_cons_of_nil {line : List Token} {rest : List (List Token)}
    (h : line.filter (!·.isComment) = []) : r.settle k (line :: rest) = r.settle k rest := by
  rw [settle.eq_def]
  dsimp only
  rw [h]
  cases line with
  | nil => rfl
  | cons leader line => rfl

/-- A line whose level is a cycle's ends the settling. -/
theorem settle_cons_of_error {leader t : Token} {line code : List Token}
    {rest : List (List Token)} {cycle : Cycle}
    (h : (leader :: line).filter (!·.isComment) = t :: code)
    (hresolve : r.resolve k t = .error cycle) :
    r.settle k ((leader :: line) :: rest) = ⟨k, .error cycle⟩ := by
  rw [settle.eq_def]
  dsimp only
  rw [h]
  simp only [hresolve]

/-- A line has the level of its first code token. -/
theorem settle_cons_of_ok {leader t : Token} {line code : List Token} {rest : List (List Token)}
    {level : Int} (h : (leader :: line).filter (!·.isComment) = t :: code)
    (hresolve : r.resolve k t = .ok level) :
    r.settle k ((leader :: line) :: rest) =
      if leader.isComment || r.isIgnored leader then
        r.settle (k.noteAll (t :: code) level) rest
      else
        { r.settle (k.noteAll (t :: code) level) rest with
          result := (r.settle (k.noteAll (t :: code) level) rest).result.map
            ((leader.line, level) :: ·) } := by
  rw [settle.eq_def]
  dsimp only
  rw [h]
  simp only [hresolve]

end Registry

end ScriptIndent
