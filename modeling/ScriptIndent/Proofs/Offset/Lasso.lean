import Mathlib.Algebra.Ring.Int.Defs
import Mathlib.Data.List.Nodup
import ScriptIndent.Proofs.Offset.Chain

/-!
# ScriptIndent.Proofs.Offset.Lasso

What the search for a level finds.

```
t ── e₁ ──▸ · ── e₂ ──▸ u          u is known, has no entry, or has an absolute one

t ── e₁ ──▸ c ── e₂ ──▸ · ── e₃ ──▸ c
```

A chain of bases leads from a token through entries (`Registry.Leads`).  If it comes to an
end, the levels of the entries passed and what the end counts for (`Registry.lastLevel?`) add
up to the level.  If it does not, it is a lasso: it comes to a token `c`, and from there back to
`c`, through entries of tokens that are all different.  So `c` is the first to occur twice, and
this is what the search ends with (`Registry.resolve_follows`).

Nothing is assumed of the registry or of the levels that are known.
-/

namespace ScriptIndent.Registry

/-- The chain of bases leads from a token through entries to another.  It does not go on from a
token whose level is known. -/
inductive Leads (r : Registry) (known : KnownLevels) : Token → List Entry → Token → Prop
  | refl (t : Token) : Leads r known t [] t
  | base {t base u : Token} {e : Entry} {es : List Entry} (hnew : known.get? t = none)
      (hentry : r.get? t = some e) (hbase : e.base = some base) (hrest : Leads r known base es u) :
      Leads r known t (e :: es) u

/-- What a token counts for at which a chain ends: the level that is known, or else 0 without an
entry, or else an absolute level.  At any other token the chain goes on. -/
def lastLevel? (r : Registry) (known : KnownLevels) (t : Token) : Option Int :=
  match known.get? t, r.get? t with
  | some level, _ => some level
  | none, none => some 0
  | none, some e => if e.isStart then some e.levels else none

variable {r : Registry} {known : KnownLevels} {t u c : Token} {es fs : List Entry}

/-! ## paths -/

theorem Leads.append (h : r.Leads known t es u) (h' : r.Leads known u fs c) :
    r.Leads known t (es ++ fs) c := by
  induction h with
  | refl => exact h'
  | base hnew hentry hbase _ ih => exact .base hnew hentry hbase (ih h')

/-- A path passes through the tokens of its entries. -/
theorem Leads.split {e : Entry} (h : r.Leads known t (es ++ e :: fs) u) :
    r.Leads known t es e.token ∧ r.Leads known e.token (e :: fs) u := by
  induction es generalizing t with
  | nil =>
    cases h with
    | base hnew hentry hbase hrest =>
      obtain rfl := (mem_of_get? hentry).2
      exact ⟨.refl _, .base hnew hentry hbase hrest⟩
  | cons d es ih =>
    cases h with
    | base hnew hentry hbase hrest =>
      obtain ⟨hfront, hback⟩ := ih hrest
      exact ⟨.base hnew hentry hbase hfront, hback⟩

/-- A chain does not go on from its end. -/
theorem lastLevel?_eq_none {base : Token} {e : Entry} (hnew : known.get? t = none)
    (hentry : r.get? t = some e) (hbase : e.base = some base) : r.lastLevel? known t = none := by
  simp [lastLevel?, hnew, hentry, Entry.isStart, hbase]

/-- A path is the front of the one that leads to the end. -/
theorem Leads.exists_rest (h : r.Leads known t es u) (h' : r.Leads known t fs c)
    (hend : (r.lastLevel? known c).isSome) : ∃ rest, fs = es ++ rest ∧ r.Leads known u rest c := by
  induction h generalizing fs with
  | refl => exact ⟨fs, rfl, h'⟩
  | base hnew hentry hbase _ ih =>
    cases h' with
    | refl => simp [lastLevel?_eq_none hnew hentry hbase] at hend
    | base _ hentry' hbase' hrest' =>
      obtain rfl := Option.mem_unique hentry hentry'
      obtain rfl := Option.mem_unique hbase hbase'
      obtain ⟨rest, rfl, hrest⟩ := ih hrest'
      exact ⟨rest, rfl, hrest⟩

/-- A chain has one end, and one path leads to it. -/
theorem Leads.unique (h : r.Leads known t es u) (hu : (r.lastLevel? known u).isSome)
    (h' : r.Leads known t fs c) (hc : (r.lastLevel? known c).isSome) : fs = es ∧ c = u := by
  obtain ⟨rest, rfl, hrest⟩ := h.exists_rest h' hc
  cases hrest with
  | refl => exact ⟨List.append_nil es, rfl⟩
  | base hnew hentry hbase => simp [lastLevel?_eq_none hnew hentry hbase] at hu

/-- A chain that comes back to a token has no end. -/
theorem Leads.lastLevel?_of_loop (h : r.Leads known t es c) {loop : List Entry}
    (hloop : r.Leads known c loop c) (hne : loop ≠ []) (hfs : r.Leads known t fs u) :
    r.lastLevel? known u = none := by
  by_contra hend
  replace hend : (r.lastLevel? known u).isSome := Option.isSome_iff_ne_none.2 hend
  -- the way from the loop to the end is as long as the one after another round
  obtain ⟨rest, -, hrest⟩ := h.exists_rest hfs hend
  obtain ⟨rest', rfl, hrest'⟩ := hloop.exists_rest hrest hend
  obtain ⟨hlength, -⟩ := hrest.unique hend hrest' hend
  exact hne (by simpa using hlength)

/-! ## the search -/

/-- The search adds up the levels of the entries on the path to the end of the chain. -/
theorem leads_of_resolveFrom {seen : List Token} {total result : Int}
    (h : r.resolveFrom known seen total t = .ok result) :
    ∃ es u last, r.Leads known t es u ∧ r.lastLevel? known u = some last ∧
      result = total + ((es.map (·.levels)).sum + last) := by
  fun_induction r.resolveFrom known seen total t with
  | case1 seen total t level hknown =>
    exact ⟨[], t, level, .refl t, by simp [lastLevel?, hknown], by simpa using (Except.ok.inj h).symm⟩
  | case2 => cases h
  | case3 seen total t hknown hmem hentry =>
    exact ⟨[], t, 0, .refl t, by simp [lastLevel?, hknown, hentry],
      by simpa using (Except.ok.inj h).symm⟩
  | case4 seen total t hknown hmem e hentry hbase =>
    exact ⟨[], t, e.levels, .refl t, by simp [lastLevel?, hknown, hentry, Entry.isStart, hbase],
      by simpa using (Except.ok.inj h).symm⟩
  | case5 seen total t hknown hmem e hentry base hbase ih =>
    obtain ⟨es, u, last, hleads, hlast, rfl⟩ := ih h
    exact ⟨e :: es, u, last, .base hknown hentry hbase hleads, hlast, by simp; lia⟩

/-- The search fails at a token that it has passed before.  It has passed the tokens `seen`, each
once. -/
theorem lasso_of_resolveFrom {seen : List Token} {total : Int} {cycle : Cycle} {start : Token}
    (hpassed : r.Leads known start es t) (hseen : es.map (·.token) = seen.reverse)
    (hnodup : seen.Nodup) (h : r.resolveFrom known seen total t = .error cycle) :
    ∃ tail loop, r.Leads known start tail cycle.token ∧
      r.Leads known cycle.token loop cycle.token ∧ loop ≠ [] ∧
      ((tail ++ loop).map (·.token)).Nodup := by
  fun_induction r.resolveFrom known seen total t generalizing es with
  | case1 => cases h
  | case2 seen total t hknown hmem =>
    obtain rfl := Except.error.inj h
    have hon : t ∈ es.map (·.token) := by simpa [hseen] using hmem
    obtain ⟨e, he, rfl⟩ := List.mem_map.1 hon
    obtain ⟨tail, rest, rfl⟩ := List.append_of_mem he
    obtain ⟨htail, hloop⟩ := hpassed.split
    exact ⟨tail, e :: rest, htail, hloop, List.cons_ne_nil e rest,
      hseen ▸ List.nodup_reverse.2 hnodup⟩
  | case3 => cases h
  | case4 => cases h
  | case5 seen total t hknown hmem e hentry base hbase ih =>
    have htoken : e.token = t := (mem_of_get? hentry).2
    exact ih (hpassed.append (.base hknown hentry hbase (.refl base))) (by simp [hseen, htoken])
      (List.nodup_cons.2 ⟨hmem, hnodup⟩) h

/-- A search for a level fails if and only if the chain of bases never comes to a token that is
known, has no entry or has an absolute level.  It then ends at the first token of the chain that
occurs twice.  Else it finds the levels of the entries passed and what the end of the chain counts
for, added up.  It only reads the registry and the levels that are known. -/
theorem resolve_follows (r : Registry) (known : KnownLevels) (t : Token) :
    ((∃ cycle, r.resolve known t = .error cycle) ↔
      ∀ es u, r.Leads known t es u → r.lastLevel? known u = none) ∧
    (∀ cycle, r.resolve known t = .error cycle →
      ∃ tail loop, r.Leads known t tail cycle.token ∧
        r.Leads known cycle.token loop cycle.token ∧ loop ≠ [] ∧
        ((tail ++ loop).map (·.token)).Nodup) ∧
    ∀ level, r.resolve known t = .ok level ↔
      ∃ es u last, r.Leads known t es u ∧ r.lastLevel? known u = some last ∧
        level = (es.map (·.levels)).sum + last := by
  have hok : ∀ level, r.resolve known t = .ok level →
      ∃ es u last, r.Leads known t es u ∧ r.lastLevel? known u = some last ∧
        level = (es.map (·.levels)).sum + last := by
    intro level h
    simpa using leads_of_resolveFrom h
  have herror : ∀ cycle, r.resolve known t = .error cycle →
      ∃ tail loop, r.Leads known t tail cycle.token ∧
        r.Leads known cycle.token loop cycle.token ∧ loop ≠ [] ∧
        ((tail ++ loop).map (·.token)).Nodup :=
    fun cycle h => lasso_of_resolveFrom (.refl t) rfl List.nodup_nil h
  have hendless : ∀ cycle, r.resolve known t = .error cycle →
      ∀ es u, r.Leads known t es u → r.lastLevel? known u = none := by
    intro cycle h es u hes
    obtain ⟨tail, loop, htail, hloop, hne, -⟩ := herror cycle h
    exact htail.lastLevel?_of_loop hloop hne hes
  refine ⟨⟨fun ⟨cycle, h⟩ => hendless cycle h, fun h => ?_⟩, herror, fun level => ⟨hok level, ?_⟩⟩
  · cases hresolve : r.resolve known t with
    | error cycle => exact ⟨cycle, rfl⟩
    | ok level =>
      obtain ⟨es, u, last, hes, hlast, -⟩ := hok level hresolve
      simp [h es u hes] at hlast
  · rintro ⟨es, u, last, hes, hlast, rfl⟩
    cases hresolve : r.resolve known t with
    | error cycle => simp [hendless cycle hresolve es u hes] at hlast
    | ok level =>
      obtain ⟨fs, c, last', hfs, hlast', rfl⟩ := hok level hresolve
      obtain ⟨rfl, rfl⟩ := hes.unique (by simp [hlast]) hfs (by simp [hlast'])
      obtain rfl := Option.mem_unique hlast hlast'
      rfl

end ScriptIndent.Registry
