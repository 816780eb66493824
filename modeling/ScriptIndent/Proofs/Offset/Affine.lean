import Mathlib.Data.List.TakeDrop
import ScriptIndent.Check.Analysis
import ScriptIndent.Proofs.Offset.Chain
import ScriptIndent.Proofs.Rule.Affine

/-!
# ScriptIndent.Proofs.Offset.Affine

How levels depend on the depth that is asked of clauses.

1. Analyses for different depths record entries for the same tokens and bases and end with the
   same fault, if any (`Source.analyze_isAffine`).
2. A chain of bases adds up affine levels, so it ends in an affine level or in the same cycle
   (`Registry.resolveFrom_isAffine`).
3. So the judged lines are the same for every depth, and the level of a line is `a + b * c` at
   depth `c` (`Source.lineLevels_isAffine`).
-/

namespace ScriptIndent

/-! ## registries -/

namespace Registry

/-- Entries for different depths of clauses, recorded in turn. -/
theorem exists_put (e : AffineEntry) (es : List AffineEntry) :
    ∃ fs : List AffineEntry, ∀ c, put (e.eval c) (es.map (·.eval c)) = fs.map (·.eval c) := by
  induction es with
  | nil => exact ⟨[e], fun c => rfl⟩
  | cons old rest ih =>
    by_cases h : old.token = e.token
    · exact ⟨e :: rest, fun c => by simp [put, AffineEntry.eval, h]⟩
    · obtain ⟨fs, hfs⟩ := ih
      refine ⟨old :: fs, fun c => ?_⟩
      rw [List.map_cons, put, if_neg (show ¬(old.eval c).token = (e.eval c).token from h), hfs,
        List.map_cons]

/-- Registries, one for each depth of clauses, that differ in the levels of their entries, and
these are affine in the depth. -/
def IsAffine (r : Int → Registry) : Prop :=
  ∃ (es : List AffineEntry) (ignored : List (Offset × Offset)),
    ∀ c, r c = ⟨es.map (·.eval c), ignored⟩

theorem IsAffine.insert {r : Int → Registry} (h : IsAffine r) (e : AffineEntry) :
    IsAffine fun c => (r c).insert (e.eval c) := by
  obtain ⟨es, ignored, hr⟩ := h
  obtain ⟨fs, hfs⟩ := exists_put e es
  exact ⟨fs, ignored, fun c => by simp only [Registry.insert, hr, hfs]⟩

theorem IsAffine.record {r : Int → Registry} (h : IsAffine r) (es : List AffineEntry) :
    IsAffine fun c => (r c).record (es.map (·.eval c)) := by
  induction es generalizing r with
  | nil => exact h
  | cons e es ih => exact ih (h.insert e)

theorem IsAffine.ignore {r : Int → Registry} (h : IsAffine r) (first last : Option Token) :
    IsAffine fun c => (r c).ignore first last := by
  obtain ⟨es, ignored, hr⟩ := h
  cases first with
  | none => exact ⟨es, ignored, hr⟩
  | some t =>
    cases last with
    | none => exact ⟨es, ignored, hr⟩
    | some u =>
      exact ⟨es, ignored ++ [(t.start, u.stop)], fun c => by simp only [Registry.ignore, hr]⟩

/-- Either no depth of clauses gives a token an entry, or all give it the same one up to levels
that are affine in the depth. -/
theorem IsAffine.get? {r : Int → Registry} (h : IsAffine r) (t : Token) :
    (∀ c, (r c).get? t = none) ∨ ∃ e : AffineEntry, ∀ c, (r c).get? t = some (e.eval c) := by
  obtain ⟨es, ignored, hr⟩ := h
  have hfind : ∀ c, (r c).get? t = (es.find? (·.token = t)).map (·.eval c) := by
    intro c
    rw [Registry.get?, hr, List.find?_map]
    rfl
  cases hes : es.find? (·.token = t) with
  | none => exact .inl fun c => by rw [hfind, hes, Option.map_none]
  | some e => exact .inr ⟨e, fun c => by rw [hfind, hes, Option.map_some]⟩

theorem IsAffine.isIgnored_eq {r : Int → Registry} (h : IsAffine r) (c c' : Int) (t : Token) :
    (r c).isIgnored t = (r c').isIgnored t := by
  obtain ⟨es, ignored, hr⟩ := h
  rw [hr, hr, isIgnored, isIgnored]

end Registry

/-! ## analyses -/

/-- Analyses, one for each depth of clauses, that differ in the levels of the entries. -/
def Analysis.IsAffine (a : Int → Analysis) : Prop :=
  Registry.IsAffine (fun c => (a c).registry) ∧
    ∃ notices fault, ∀ c, (a c).notices = notices ∧ (a c).fault = fault

variable {s : Source}

theorem Analysis.IsAffine.visit (hblocks : ∀ b ∈ s.blocks, 0 ≤ b.baseLevel) {a : Int → Analysis}
    (h : IsAffine a) (place : Node.Placed) : IsAffine fun c => (a c).visit s c place := by
  obtain ⟨hregistry, notices, fault, ha⟩ := h
  rcases Rule.visit?_affine s hblocks place with hnone | ⟨d, ⟨es, result, hd⟩, hsome⟩
  · simp only [IsAffine, Analysis.visit, hnone]
    exact ⟨hregistry.ignore _ _, _, fault, fun c => ⟨by rw [(ha c).1], (ha c).2⟩⟩
  · simp only [IsAffine, Analysis.visit, hsome, hd]
    exact ⟨hregistry.record es, notices, _, fun c => ⟨(ha c).1, rfl⟩⟩

theorem Analysis.IsAffine.visitAll (hblocks : ∀ b ∈ s.blocks, 0 ≤ b.baseLevel)
    {a : Int → Analysis} (h : IsAffine a) (places : List Node.Placed) :
    IsAffine fun c => (a c).visitAll s c places := by
  induction places generalizing a with
  | nil => exact h
  | cons place rest ih =>
    have hvisit := h.visit hblocks place
    obtain ⟨notices, fault, ha⟩ := hvisit.2
    simp only [Analysis.visitAll, fun c => (ha c).2]
    split
    · exact hvisit
    · exact ih hvisit

/-- The analyses of a source for different depths of clauses differ in the levels of their
entries. -/
theorem Source.analyze_isAffine (hblocks : ∀ b ∈ s.blocks, 0 ≤ b.baseLevel) :
    Analysis.IsAffine s.analyze :=
  Analysis.IsAffine.visitAll hblocks ⟨⟨[], [], fun _ => rfl⟩, [], none, fun _ => ⟨rfl, rfl⟩⟩ _

/-! ## levels -/

/-- Levels known for different depths of clauses. -/
def KnownLevels.IsAffine (k : Int → KnownLevels) : Prop :=
  ∃ fs : List (Token × Affine), ∀ c, k c = fs.map fun p => (p.1, p.2.eval c)

namespace KnownLevels

theorem IsAffine.get? {k : Int → KnownLevels} (h : IsAffine k) (t : Token) :
    (∀ c, (k c).get? t = none) ∨ ∃ f : Affine, ∀ c, (k c).get? t = some (f.eval c) := by
  obtain ⟨fs, hk⟩ := h
  have hlookup : ∀ c, (k c).get? t = (fs.lookup t).map (·.eval c) := by
    intro c
    rw [hk, KnownLevels.get?]
    clear hk
    induction fs with
    | nil => rfl
    | cons p fs ih =>
      rw [List.map_cons, List.lookup_cons, List.lookup_cons]
      split
      · rfl
      · exact ih
  cases hfs : fs.lookup t with
  | none => exact .inl fun c => by rw [hlookup, hfs, Option.map_none]
  | some f => exact .inr ⟨f, fun c => by rw [hlookup, hfs, Option.map_some]⟩

theorem IsAffine.note {k : Int → KnownLevels} (h : IsAffine k) (t : Token) (f : Affine) :
    IsAffine fun c => (k c).note t (f.eval c) := by
  rcases h.get? t with hnone | ⟨g, hsome⟩
  · obtain ⟨fs, hk⟩ := h
    simp only [KnownLevels.note, hnone]
    exact ⟨(t, f) :: fs, fun c => by simp [hk]⟩
  · simp only [KnownLevels.note, hsome, Option.isSome_some, if_true]
    exact h

theorem IsAffine.noteAll {k : Int → KnownLevels} (h : IsAffine k) (ts : List Token) (f : Affine) :
    IsAffine fun c => (k c).noteAll ts (f.eval c) := by
  induction ts generalizing k with
  | nil => exact h
  | cons t ts ih => exact ih (h.note t f)

end KnownLevels

namespace Registry

variable {r : Int → Registry} {k : Int → KnownLevels}

/-- A chain of bases ends in the same cycle for every depth of clauses, or in a level that is
affine in the depth. -/
theorem resolveFrom_isAffine (hr : IsAffine r) (hk : KnownLevels.IsAffine k) (seen : List Token)
    (total : Affine) (t : Token) :
    (∃ cycle, ∀ c, (r c).resolveFrom (k c) seen (total.eval c) t = .error cycle) ∨
      ∃ f : Affine, ∀ c, (r c).resolveFrom (k c) seen (total.eval c) t = .ok (f.eval c) := by
  induction h : (r 0).unseen seen using Nat.strongRecOn generalizing seen total t with
  | _ n ih =>
  rcases hk.get? t with hnew | ⟨f, hknown⟩
  · by_cases hseen : t ∈ seen
    · exact .inl ⟨⟨t⟩, fun c => resolveFrom_of_seen (hnew c) hseen⟩
    rcases hr.get? t with habsent | ⟨e, hentry⟩
    · exact .inr ⟨total, fun c => resolveFrom_of_absent (hnew c) hseen (habsent c)⟩
    have hstep : ∀ c, total.eval c + (e.eval c).levels = (total.add e.levels).eval c := fun c =>
      (Affine.eval_add c total e.levels).symm
    cases hbase : e.base with
    | none =>
      refine .inr ⟨total.add e.levels, fun c => ?_⟩
      rw [resolveFrom_of_start (hnew c) hseen (hentry c) hbase, hstep]
    | some base =>
      have hfollow : ∀ c, (r c).resolveFrom (k c) seen (total.eval c) t =
          (r c).resolveFrom (k c) (t :: seen) ((total.add e.levels).eval c) base := fun c => by
        rw [resolveFrom_of_base (hnew c) hseen (hentry c) hbase, hstep]
      simp only [hfollow]
      exact ih _ (h ▸ unseen_lt (hentry 0) hseen) (t :: seen) (total.add e.levels) base rfl
  · refine .inr ⟨total.add f, fun c => ?_⟩
    rw [resolveFrom_of_known (hknown c), Affine.eval_add]

/-- Lines that are settled end in the same cycle for every depth of clauses, or have levels that
are affine in the depth. -/
theorem settle_isAffine (hr : IsAffine r) (hk : KnownLevels.IsAffine k)
    (lines : List (List Token)) :
    (∃ cycle, ∀ c, ((r c).settle (k c) lines).result = .error cycle) ∨
      ∃ fs : List (Nat × Affine), ∀ c,
        ((r c).settle (k c) lines).result = .ok (fs.map fun p => (p.1, p.2.eval c)) := by
  induction lines generalizing k with
  | nil => exact .inr ⟨[], fun c => by rw [settle]; rfl⟩
  | cons line rest ih =>
    cases line with
    | nil =>
      simp only [settle_cons_of_nil List.filter_nil]
      exact ih hk
    | cons leader line =>
      cases hcode : (leader :: line).filter (!·.isComment) with
      | nil =>
        simp only [settle_cons_of_nil hcode]
        exact ih hk
      | cons t code =>
        have hzero : ∀ c, (⟨0, 0⟩ : Affine).eval c = 0 := fun c => by simp
        have hresolve := resolveFrom_isAffine hr hk [] ⟨0, 0⟩ t
        simp only [hzero] at hresolve
        rcases hresolve with ⟨cycle, herror⟩ | ⟨f, hlevel⟩
        · exact .inl ⟨cycle, fun c => by rw [settle_cons_of_error hcode (herror c)]⟩
        have hstep := fun c => @settle_cons_of_ok (r c) (k c) _ _ _ _ rest _ hcode (hlevel c)
        have hrest := ih (hk.noteAll (t :: code) f)
        by_cases hjudged : leader.isComment || (r 0).isIgnored leader
        · simp only [fun c => hstep c, fun c => hr.isIgnored_eq c 0 leader, hjudged, if_true]
          exact hrest
        · simp only [fun c => hstep c, fun c => hr.isIgnored_eq c 0 leader, hjudged]
          rcases hrest with ⟨cycle, herror⟩ | ⟨fs, hlevels⟩
          · exact .inl ⟨cycle, fun c => by simp only [herror]; rfl⟩
          · exact .inr ⟨(leader.line, f) :: fs, fun c => by simp only [hlevels]; rfl⟩

end Registry

namespace Source

/-- The lines of a source have no levels for the same reason whatever the depth of clauses, or
have levels that are affine in the depth. -/
theorem lineLevels_isAffine (hblocks : ∀ b ∈ s.blocks, 0 ≤ b.baseLevel) :
    (∃ cycle, ∀ c width,
        (({ width } : Resolver).lineLevels s (s.analyze c).registry).1 = .error cycle) ∨
      ∃ fs : List (Nat × Affine), ∀ c width,
        (({ width } : Resolver).lineLevels s (s.analyze c).registry).1 =
          .ok (fs.map fun p => (p.1, p.2.eval c)) :=
  (Registry.settle_isAffine (analyze_isAffine hblocks).1 ⟨[], fun _ => rfl⟩ s.lines).imp
    (fun ⟨cycle, h⟩ => ⟨cycle, fun c _ => h c⟩) fun ⟨fs, h⟩ => ⟨fs, fun c _ => h c⟩

/-- Where clauses lie deeper than their brace, no line has a negative level. -/
theorem lineLevels_nonneg (hblocks : ∀ b ∈ s.blocks, 0 ≤ b.baseLevel) {c : Int} (hc : 0 ≤ c)
    {width : Int} {levels : LineLevels}
    (h : (({ width } : Resolver).lineLevels s (s.analyze c).registry).1 = .ok levels) :
    ∀ p ∈ levels, 0 ≤ p.2 := by
  rcases lineLevels_isAffine hblocks with ⟨cycle, herror⟩ | ⟨fs, hok⟩
  · rw [herror] at h
    cases h
  · rw [hok] at h
    obtain rfl := Except.ok.inj h
    intro p hp
    obtain ⟨f, -, rfl⟩ := List.mem_map.1 hp
    exact f.2.eval_nonneg hc

/-- The depth of clauses changes no more than levels.  Analyses for different depths record
entries for the same tokens and bases and end in the same way.  The lines have no levels for
any depth, for the same reason, or the same lines are judged for every depth and each has a
level of the form `a + b * c`; so no level and no width is negative if the depth is not. -/
theorem analyze_affine (s : Source) (hblocks : ∀ b ∈ s.blocks, 0 ≤ b.baseLevel) :
    (∀ c c',
      (s.analyze c).registry.records.map (fun e => (e.token, e.base)) =
          (s.analyze c').registry.records.map (fun e => (e.token, e.base)) ∧
        (s.analyze c).registry.ignored = (s.analyze c').registry.ignored ∧
        (s.analyze c).notices = (s.analyze c').notices ∧
        (s.analyze c).fault = (s.analyze c').fault) ∧
    ((∃ cycle, ∀ c width,
        (({ width } : Resolver).lineLevels s (s.analyze c).registry).1 = .error cycle) ∨
      ∃ forms : List (Nat × Nat × Nat), ∀ c width,
        (({ width } : Resolver).lineLevels s (s.analyze c).registry).1 =
          .ok (forms.map fun (line, a, b) => (line, a + b * c))) ∧
    ∀ c, 0 ≤ c → ∀ width,
      (∀ levels, (({ width } : Resolver).lineLevels s (s.analyze c).registry).1 = .ok levels →
        ∀ p ∈ levels, 0 ≤ p.2) ∧
      (0 ≤ width → ∀ widths,
        (({ width } : Resolver).lineWidths s (s.analyze c).registry).1 = .ok widths →
          ∀ p ∈ widths, 0 ≤ p.2) := by
  obtain ⟨hregistry, notices, fault, hanalysis⟩ := analyze_isAffine hblocks
  obtain ⟨es, ignored, hr⟩ := hregistry
  have hr : ∀ c, (s.analyze c).registry = ⟨es.map (·.eval c), ignored⟩ := hr
  have hpairs : ∀ c, (s.analyze c).registry.records.map (fun e => (e.token, e.base)) =
      es.map fun e => (e.token, e.base) := by
    intro c
    rw [hr, List.map_map]
    rfl
  refine ⟨fun c c' => ⟨by rw [hpairs, hpairs], by rw [hr, hr], ?_, ?_⟩, ?_, fun c hc width =>
    ⟨fun levels h => lineLevels_nonneg hblocks hc h, fun hwidth widths h p hp => ?_⟩⟩
  · rw [(hanalysis c).1, (hanalysis c').1]
  · rw [(hanalysis c).2, (hanalysis c').2]
  · refine (lineLevels_isAffine hblocks).imp_right fun ⟨fs, hok⟩ => ?_
    refine ⟨fs.map fun p => (p.1, p.2.levels, p.2.depths), fun c width => ?_⟩
    rw [List.map_map]
    exact hok c width
  · cases hlevels : (({ width } : Resolver).lineLevels s (s.analyze c).registry).1 with
    | error cycle => simp [Resolver.lineWidths, hlevels, Except.map] at h
    | ok levels =>
      simp only [Resolver.lineWidths, hlevels, Except.map] at h
      obtain rfl := Except.ok.inj h
      obtain ⟨q, hq, rfl⟩ := List.mem_map.1 hp
      exact Int.mul_nonneg (lineLevels_nonneg hblocks hc hlevels q hq) hwidth

/-! ## clauses in a block of script -/

/-- The statement

```
switch(x){
case y:
z}
```
-/
def clausesTree : Node :=
  ⟨"program", true, false, false, [], 0, 21,
    [⟨"switch_statement", true, false, false, [], 0, 21,
      [⟨"switch", false, false, false, [], 0, 6, []⟩,
        ⟨"parenthesized_expression", true, false, false, ["value"], 6, 9,
          [⟨"(", false, false, false, [], 6, 7, []⟩,
            ⟨"identifier", true, false, false, [], 7, 8, []⟩,
            ⟨")", false, false, false, [], 8, 9, []⟩]⟩,
        ⟨"switch_body", true, false, false, ["body"], 9, 21,
          [⟨"\x7b", false, false, false, [], 9, 10, []⟩,
            ⟨"switch_case", true, false, false, [], 11, 20,
              [⟨"case", false, false, false, [], 11, 15, []⟩,
                ⟨"identifier", true, false, false, ["value"], 16, 17, []⟩,
                ⟨":", false, false, false, [], 17, 18, []⟩,
                ⟨"expression_statement", true, false, false, ["body"], 19, 20,
                  [⟨"identifier", true, false, false, [], 19, 20, []⟩]⟩]⟩,
            ⟨"\x7d", false, false, false, [], 20, 21, []⟩]⟩]⟩]⟩

/-- The statement, in a block of script that begins at level 1. -/
def clausesSource : Source :=
  .ofTree "switch(x)\x7b\ncase y:\nz\x7d".toUTF8.data clausesTree none [⟨0, 21, 1⟩]

theorem settle_clausesSource :
    ((clausesSource.analyze 3).registry.settle [] clausesSource.lines).result =
      .ok [(1, 1), (2, 4), (3, 5)] := by
  have hsorted : (clausesSource.tokens.toList ++ clausesSource.comments).Pairwise
      fun a b => decide (a.start ≤ b.start) = true := by decide +kernel
  rw [Source.lines, Source.merged, List.mergeSort_of_pairwise hsorted]
  decide +kernel

/-- The lines of the statement have levels for every depth of clauses. -/
theorem analyze_clausesSource_affine :
    (∀ b ∈ clausesSource.blocks, 0 ≤ b.baseLevel) ∧
      (({ width := 2 } : Resolver).lineLevels clausesSource (clausesSource.analyze 3).registry).1 =
        .ok [(1, 1), (2, 4), (3, 5)] ∧
      ∃ forms : List (Nat × Nat × Nat), ∀ c width,
        (({ width } : Resolver).lineLevels clausesSource (clausesSource.analyze c).registry).1 =
          .ok (forms.map fun (line, a, b) => (line, a + b * c)) := by
  have hblocks : ∀ b ∈ clausesSource.blocks, 0 ≤ b.baseLevel := by decide
  refine ⟨hblocks, settle_clausesSource, (analyze_affine clausesSource hblocks).2.1.resolve_left ?_⟩
  rintro ⟨cycle, herror⟩
  have h := (herror 3 2).symm.trans settle_clausesSource
  cases h

end Source

end ScriptIndent
