import ScriptIndent.Proofs.Offset.LineByLine

/-!
# ScriptIndent.Proofs.Offset.LineLevel

The level of the line that holds a token.

```
f(g(         the level of this line is that of all tokens in it
    x        and x is as much deeper as its entry says, whichever of them is its base
```

When all lines are settled, the level of each is known, also that of a line that is not judged
(`Source.levelOf?`).  The tokens of a line share its level (`Source.levelOf?_eq_of_line`), and the
first code token of a line is deeper than the line of its base by the levels of its entry
(`Source.Settled.levelOf?_of_entry`).
-/

namespace ScriptIndent

namespace Registry

variable {r : Registry} {s : Source} {k : KnownLevels} {levels : LineLevels}

/-- A line that is judged has the level that the chain of its leader adds up to. -/
theorem SettlesTo.addsUp_of_mem (h : r.SettlesTo [] s.lines k levels)
    {above below : List (List Token)} {t : Token} {rest : List Token}
    (hlines : s.lines = above ++ (t :: rest) :: below) {level : Int}
    (hmem : (t.line, level) ∈ levels) :
    t.isComment = false ∧ r.isIgnored t = false ∧ r.AddsUp above t level := by
  obtain ⟨above', u, ⟨rest', below', hlines', hcode, hjudged⟩, hline, hadds⟩ := h.mem_iff.1 hmem
  have hleads : ∀ {above below : List (List Token)} {t : Token} {rest : List Token},
      s.lines = above ++ (t :: rest) :: below → t ∈ Source.leaders s.lines :=
    @fun above below t rest h => List.mem_filterMap.2 ⟨t :: rest, by simp [h], rfl⟩
  obtain rfl : u = t :=
    Source.eq_of_leaders (fun _ => Source.line_le_endLine) (hleads hlines') (hleads hlines) hline
  have hnodup := s.nodup_lines
  rw [hlines] at hnodup
  obtain ⟨rfl, -⟩ := eq_of_standsOn hnodup (hlines.symm.trans hlines')
    (t := u) (by simp [codeOf, hcode]) (by simp [codeOf, hcode])
  exact ⟨hcode, hjudged, hadds⟩

/-- A new token with a base has the level of the base, and more. -/
theorem AddsUp.exists_base {lines : List (List Token)} {t base : Token} {e : Entry} {level : Int}
    (h : r.AddsUp lines t level) (hnew : standsOn lines t = false) (he : r.get? t = some e)
    (hbase : e.base = some base) : ∃ below, r.AddsUp lines base below ∧ level = e.levels + below := by
  cases h with
  | earlier hlines _ ht => simp [standsOn, hlines, ht] at hnew
  | absent _ hentry => simp [he] at hentry
  | start _ hentry hnone =>
    obtain rfl := Option.mem_unique he hentry
    simp [hbase] at hnone
  | base _ hentry hbase' hlevel =>
    obtain rfl := Option.mem_unique he hentry
    obtain rfl := Option.mem_unique hbase hbase'
    exact ⟨_, hlevel, rfl⟩

end Registry

namespace Source

open Registry

/-- The level of the line that holds a code token, once all lines are settled. -/
def levelOf? (s : Source) (a : Analysis) (t : Token) : Option Int :=
  (a.registry.settle [] s.lines).known.get? t

variable {s : Source} {caseLevels : Int} {t base : Token} {above below : List (List Token)}
  {line rest : List Token} {level levels : Int} {i j : Nat}

/-- The lines of a grammatical source are settled. -/
theorem exists_settled (g : s.root.Grammatical s.buffer) (caseLevels : Int) :
    ∃ all, (s.analyze caseLevels).registry.SettlesTo [] s.lines
        ((s.analyze caseLevels).registry.settle [] s.lines).known all ∧
      s.checkedLevels (s.analyze caseLevels) = .ok (s.withoutBlockStarts all) := by
  obtain ⟨hfault, hback⟩ := analyze_pointsBack g caseLevels
  obtain ⟨all, hall⟩ : ∃ all, ((s.analyze caseLevels).registry.settle [] s.lines).result = .ok all :=
    exists_settle hback [] fun line hline t ht => mem_tokens_of_mem_lines hline ht
  have hnodup : (([] ++ s.lines).flatMap codeOf).Nodup := by simpa using s.nodup_lines
  have hsettle :=
    settle_settlesTo (r := (s.analyze caseLevels).registry) remembers_nil hnodup
  rw [hall] at hsettle
  exact ⟨all, hsettle, by simp only [checkedLevels, hfault, hall]⟩

/-- The lines of a source whose tokens and comments are listed in order. -/
theorem lines_eq_groupsFrom (h : (s.tokens.toList ++ s.comments).Pairwise
    fun a b => decide (a.start ≤ b.start) = true) :
    s.lines = groupsFrom 0 [] (s.tokens.toList ++ s.comments) := by
  rw [lines, merged, List.mergeSort_of_pairwise h]

/-- The levels of the lines of such a source, without a sort. -/
theorem checkedLevels_eq_ok (h : (s.tokens.toList ++ s.comments).Pairwise
    fun a b => decide (a.start ≤ b.start) = true) {a : Analysis} (hfault : a.fault = none)
    {levels : LineLevels} (hsettle : (a.registry.settle []
      (groupsFrom 0 [] (s.tokens.toList ++ s.comments))).result = .ok levels)
    (hkept : s.withoutBlockStarts levels = levels) : s.checkedLevels a = .ok levels := by
  rw [checkedLevels, hfault, lines_eq_groupsFrom h, hsettle]
  exact congrArg Except.ok hkept

/-- In the lines the code tokens come in their order. -/
theorem flatMap_codeOf_lines (h : s.Ordered) : s.lines.flatMap codeOf = s.tokens.toList := by
  have hstart {i j : Nat} {t u : Token} (ht : s.At i t) (hu : s.At j u) (hij : i < j) :
      t.start < u.start := by
    have := h.proper ht
    have := h.disjoint hij ht hu
    lia
  have hlines : (s.lines.flatMap codeOf).Pairwise (·.start ≤ ·.start) := by
    rw [flatMap_codeOf]
    exact s.pairwise_merged.filter _
  have htokens : s.tokens.toList.Pairwise (·.start ≤ ·.start) := by
    refine List.pairwise_iff_getElem.2 fun i j hi hj hij => Int.le_of_lt ?_
    exact hstart (Array.getElem?_eq_getElem hi) (Array.getElem?_eq_getElem hj) hij
  refine s.flatMap_lines.eq_of_pairwise (fun t u ht hu htu hut => ?_) hlines htokens
  -- tokens that start at the same offset stand at the same place
  obtain ⟨i, ht⟩ := Array.mem_iff_getElem?.1 (Array.mem_toList_iff.1 (s.flatMap_lines.mem_iff.1 ht))
  obtain ⟨j, hu⟩ := Array.mem_iff_getElem?.1 (Array.mem_toList_iff.1 hu)
  rcases Nat.lt_trichotomy i j with hij | rfl | hij
  · have := hstart ht hu hij
    lia
  · exact Option.mem_unique ht hu
  · have := hstart hu ht hij
    lia

/-- The code tokens of a line stand in a row, those of the lines above before them. -/
theorem exists_row (h : s.Ordered) (hlines : s.lines = above ++ line :: below) :
    ∃ a, ∀ k t, s.At k t → (k < a → standsOn above t = true) ∧
      (t ∈ codeOf line ↔ a ≤ k ∧ k < a + (codeOf line).length) ∧
      ((codeOf line).head? = some t → k = a) := by
  have hsplit : s.tokens.toList =
      above.flatMap codeOf ++ (codeOf line ++ below.flatMap codeOf) := by
    rw [← flatMap_codeOf_lines h, hlines, List.flatMap_append, List.flatMap_cons]
  refine ⟨(above.flatMap codeOf).length, fun k t ht => ?_⟩
  have hget : (above.flatMap codeOf ++ (codeOf line ++ below.flatMap codeOf))[k]? = some t := by
    rw [← hsplit, Array.getElem?_toList, ht]
  have hat {m : Nat} {u : Token} (hu : (codeOf line)[m]? = some u) :
      s.At ((above.flatMap codeOf).length + m) u := by
    rw [At, ← Array.getElem?_toList, hsplit, List.getElem?_append_right (by omega),
      Nat.add_sub_cancel_left, List.getElem?_append_left (List.getElem?_eq_some_iff.1 hu).1, hu]
  refine ⟨fun hk => ?_, ⟨fun hmem => ?_, fun hplace => ?_⟩, fun hhead => ?_⟩
  · rw [List.getElem?_append_left hk] at hget
    obtain ⟨l, hl, hmem⟩ := List.mem_flatMap.1 (List.mem_of_getElem? hget)
    exact standsOn_iff.2 ⟨l, hl, hmem⟩
  · obtain ⟨m, hm⟩ := List.getElem?_of_mem hmem
    obtain rfl := eq_of_getElem? ht (hat hm)
    have := (List.getElem?_eq_some_iff.1 hm).1
    omega
  · rw [List.getElem?_append_right hplace.1, List.getElem?_append_left (by omega)] at hget
    exact List.mem_of_getElem? hget
  · rw [List.head?_eq_getElem?] at hhead
    exact eq_of_getElem? ht (hat hhead)

/-- A leader begins one of the lines. -/
theorem exists_lines_of_leads (h : t ∈ leaders s.lines) :
    ∃ above rest below, s.lines = above ++ (t :: rest) :: below := by
  obtain ⟨line, hline, hhead⟩ := List.mem_filterMap.1 h
  obtain ⟨rest, rfl⟩ := List.head?_eq_some_iff.1 hhead
  obtain ⟨above, below, hlines⟩ := List.append_of_mem hline
  exact ⟨above, rest, below, hlines⟩

/-- A code token before the leader of a line stands on a line above. -/
theorem standsOn_above {t u : Token} {above below : List (List Token)} {rest : List Token}
    (hordered : s.Ordered) (ht : s.At i t) (hu : s.At j u) (hij : i < j)
    (hlines : s.lines = above ++ (u :: rest) :: below) : standsOn above t = true := by
  have hcode := isComment_of_mem_tokens (Array.mem_of_getElem? hu)
  obtain ⟨a, hrow⟩ := exists_row hordered hlines
  have hhead : (codeOf (u :: rest)).head? = some u := by
    rw [codeOf, List.filter_cons_of_pos (by simp [hcode]), List.head?_cons]
  obtain rfl := (hrow j u hu).2.2 hhead
  exact (hrow i t ht).1 hij

theorem mem_tokens_of_mem_codeOf (hline : line ∈ s.lines) (ht : t ∈ codeOf line) :
    t ∈ s.tokens := by
  obtain ⟨ht, hcode⟩ := List.mem_filter.1 ht
  exact mem_tokens_of_mem_lines hline ht (by simpa using hcode)

/-! ## settled lines -/

/-- The levels of all lines are known. -/
def Settled (s : Source) (a : Analysis) : Prop :=
  a.registry.Remembers (a.registry.settle [] s.lines).known s.lines

theorem settled_of_checkedLevels {a : Analysis} {levels : LineLevels}
    (h : s.checkedLevels a = .ok levels) : ∃ all,
      a.registry.SettlesTo [] s.lines (a.registry.settle [] s.lines).known all ∧
        levels = s.withoutBlockStarts all := by
  have hnodup : (([] ++ s.lines).flatMap codeOf).Nodup := by simpa using s.nodup_lines
  have hsettle := settle_settlesTo (r := a.registry) remembers_nil hnodup
  obtain ⟨-, all, hall, rfl⟩ := exists_settle_of_checkedLevels h
  rw [hall] at hsettle
  exact ⟨all, hsettle, rfl⟩

section Settled

variable {a : Analysis} (h : s.Settled a)

include h

theorem Settled.levelOf?_iff (ht : t ∈ s.tokens) :
    s.levelOf? a t = some level ↔ a.registry.AddsUp s.lines t level := by
  obtain ⟨l, hl, hadds⟩ := h.known (standsOn_lines ht)
  refine ⟨fun hlevel => h.addsUp hlevel, fun hlevel => ?_⟩
  rw [levelOf?, hl, hadds.unique s.nodup_lines hlevel]

/-- The line of a code token has a level. -/
theorem Settled.exists_levelOf? (ht : t ∈ s.tokens) : ∃ level, s.levelOf? a t = some level := by
  obtain ⟨level, hlevel, -⟩ := h.known (standsOn_lines ht)
  exact ⟨level, hlevel⟩

/-- A code token has the level to which the chain of the first one in its line adds up. -/
theorem Settled.levelOf?_iff_of_line (hlines : s.lines = above ++ line :: below) {first : Token}
    {code : List Token} (hcode : codeOf line = first :: code) (ht : t ∈ codeOf line) :
    s.levelOf? a t = some level ↔ a.registry.AddsUp above first level := by
  rw [h.levelOf?_iff (mem_tokens_of_mem_codeOf (show line ∈ s.lines by simp [hlines]) ht)]
  refine ⟨fun h => ?_, fun h => .earlier hlines hcode ht h⟩
  obtain ⟨above', line', below', first', code', hlines', hcode', ht', hfirst⟩ :=
    h.exists_line (standsOn_iff.2 ⟨line, by simp [hlines], ht⟩)
  have hnodup := s.nodup_lines
  rw [hlines] at hnodup
  obtain ⟨rfl, rfl⟩ := eq_of_standsOn hnodup (hlines.symm.trans hlines') ht ht'
  obtain ⟨rfl, -⟩ := List.cons_eq_cons.1 (hcode.symm.trans hcode')
  exact hfirst

/-- The first code token of a line is deeper than the line of its base. -/
theorem Settled.levelOf?_of_entry (hlines : s.lines = above ++ line :: below) {code : List Token}
    (hcode : codeOf line = t :: code)
    (hentry : a.registry.get? t = some ⟨t, some base, levels⟩)
    (hbase : standsOn above base = true) :
    ∃ level, s.levelOf? a base = some level ∧ s.levelOf? a t = some (level + levels) := by
  have hnodup := s.nodup_lines
  rw [hlines, List.flatMap_append, List.nodup_append] at hnodup
  have hmem : t ∈ codeOf line := by simp [hcode]
  have hnew : standsOn above t = false := standsOn_eq_false.2 fun l hl ht =>
    hnodup.2.2 t (List.mem_flatMap.2 ⟨l, hl, ht⟩) t (by simp [hcode]) rfl
  obtain ⟨level, hlevel⟩ := h.exists_levelOf?
    (mem_tokens_of_mem_codeOf (show line ∈ s.lines by simp [hlines]) hmem)
  obtain ⟨l, hl, rfl⟩ := ((h.levelOf?_iff_of_line hlines hcode hmem).1 hlevel).exists_base hnew
    hentry rfl
  refine ⟨l, ?_, by rw [hlevel, Int.add_comm]⟩
  -- the base stands on a line above, so more lines do not change its level
  obtain ⟨before, holder, between, first, code', habove, hcode', hbase', hfirst⟩ :=
    hl.exists_line hbase
  have hlines' : s.lines = before ++ holder :: (between ++ line :: below) := by
    rw [hlines, habove, List.append_assoc, List.cons_append]
  exact (h.levelOf?_iff_of_line hlines' hcode' hbase').2 hfirst

/-- A token that leads a line is deeper than the line of a base before it. -/
theorem Settled.levelOf?_of_leader (hordered : s.Ordered) (hbase : s.At i base) (ht : s.At j t)
    (hij : i < j) (hentry : a.registry.get? t = some ⟨t, some base, levels⟩)
    (hleads : t ∈ leaders s.lines) :
    ∃ level, s.levelOf? a base = some level ∧ s.levelOf? a t = some (level + levels) := by
  obtain ⟨above, rest, below, hlines⟩ := exists_lines_of_leads hleads
  have hcode : codeOf (t :: rest) = t :: codeOf rest := List.filter_cons_of_pos
    (by simp [isComment_of_mem_tokens (Array.mem_of_getElem? ht)])
  exact h.levelOf?_of_entry hlines hcode hentry (standsOn_above hordered hbase ht hij hlines)

end Settled

/-- A judged line has the level of its leader. -/
theorem levelOf?_of_mem {a : Analysis} {all : LineLevels}
    (hall : s.checkedLevels a = .ok all) (hlines : s.lines = above ++ (t :: rest) :: below)
    (hmem : (t.line, level) ∈ all) :
    t.isComment = false ∧ a.registry.isIgnored t = false ∧ s.levelOf? a t = some level := by
  obtain ⟨all', hsettle, rfl⟩ := settled_of_checkedLevels hall
  have hsettled : s.Settled a := hsettle.remembers
  obtain ⟨hcode, hjudged, hadds⟩ := hsettle.addsUp_of_mem hlines (List.mem_filter.1 hmem).1
  have hfirst : codeOf (t :: rest) = t :: codeOf rest := List.filter_cons_of_pos (by simp [hcode])
  exact ⟨hcode, hjudged, (hsettled.levelOf?_iff_of_line hlines hfirst (by simp [hfirst])).2 hadds⟩

/-- A leader of a judged line has the level of the line. -/
theorem levelOf?_of_leads {a : Analysis} {all : LineLevels} (hall : s.checkedLevels a = .ok all)
    (hleads : t ∈ leaders s.lines) (hmem : (t.line, level) ∈ all) : s.levelOf? a t = some level := by
  obtain ⟨above, rest, below, hlines⟩ := exists_lines_of_leads hleads
  exact (levelOf?_of_mem hall hlines hmem).2.2

section Grammatical

variable (g : s.root.Grammatical s.buffer)

include g

theorem settled (caseLevels : Int) : s.Settled (s.analyze caseLevels) := by
  obtain ⟨all, hsettle, -⟩ := exists_settled g caseLevels
  exact hsettle.remembers

/-- The line of a code token has a level. -/
theorem exists_levelOf? (caseLevels : Int) (ht : t ∈ s.tokens) :
    ∃ level, s.levelOf? (s.analyze caseLevels) t = some level :=
  (settled g caseLevels).exists_levelOf? ht

/-- The code tokens of one line have one level. -/
theorem levelOf?_eq_of_line (hline : line ∈ s.lines) {u : Token} (ht : t ∈ codeOf line)
    (hu : u ∈ codeOf line) :
    s.levelOf? (s.analyze caseLevels) t = s.levelOf? (s.analyze caseLevels) u := by
  have h := settled g caseLevels
  obtain ⟨above, below, hlines⟩ := List.append_of_mem hline
  obtain ⟨first, code, hcode⟩ := List.exists_cons_of_ne_nil (List.ne_nil_of_mem ht)
  obtain ⟨level, hlevel⟩ := exists_levelOf? g caseLevels (mem_tokens_of_mem_codeOf hline ht)
  rw [hlevel, eq_comm, h.levelOf?_iff_of_line hlines hcode hu]
  exact (h.levelOf?_iff_of_line hlines hcode ht).1 hlevel

/-- A token is on the line of its base, or deeper, if all tokens between them have that base, too. -/
theorem levelOf?_of_stretch (hbase : s.At i base) (ht : s.At j t) (hij : i < j)
    (hentries : ∀ k u, i < k → k ≤ j → s.At k u →
      (s.analyze caseLevels).registry.get? u = some ⟨u, some base, levels⟩) :
    ∃ level, s.levelOf? (s.analyze caseLevels) base = some level ∧
      ((∃ line ∈ s.lines, base ∈ line ∧ t ∈ line) →
        s.levelOf? (s.analyze caseLevels) t = some level) ∧
      ((¬∃ line ∈ s.lines, base ∈ line ∧ t ∈ line) →
        s.levelOf? (s.analyze caseLevels) t = some (level + levels)) := by
  have hcode {k : Nat} {u : Token} (hu : s.At k u) {line : List Token} (hmem : u ∈ line) :
      u ∈ codeOf line :=
    List.mem_filter.2 ⟨hmem, by simp [isComment_of_mem_tokens (Array.mem_of_getElem? hu)]⟩
  obtain ⟨level, hlevel⟩ := exists_levelOf? g caseLevels (Array.mem_of_getElem? hbase)
  refine ⟨level, hlevel, fun ⟨line, hline, hbaseMem, htMem⟩ => ?_, fun hapart => ?_⟩
  · rw [levelOf?_eq_of_line g hline (hcode ht htMem) (hcode hbase hbaseMem), hlevel]
  obtain ⟨line, hline, htMem⟩ := standsOn_iff.1 (standsOn_lines (Array.mem_of_getElem? ht))
  obtain ⟨above, below, hlines⟩ := List.append_of_mem hline
  obtain ⟨first, code, hfirst⟩ := List.exists_cons_of_ne_nil (List.ne_nil_of_mem htMem)
  obtain ⟨a, hrow⟩ := exists_row (stands_root g).ordered hlines
  obtain ⟨m, hm⟩ := Array.mem_iff_getElem?.1
    (mem_tokens_of_mem_codeOf hline (show first ∈ codeOf line by simp [hfirst]))
  obtain rfl : m = a := (hrow m first hm).2.2 (by simp [hfirst])
  have hplace := (hrow j t ht).2.1.1 htMem
  have him : i < m := by
    refine Nat.lt_of_not_le fun hmi => hapart ⟨line, hline, ?_, (List.mem_filter.1 htMem).1⟩
    exact (List.mem_filter.1 ((hrow i base hbase).2.1.2 (by omega))).1
  obtain ⟨l, hl, hlevel'⟩ := (settled g caseLevels).levelOf?_of_entry hlines hfirst
    (hentries m first him hplace.1 hm) ((hrow i base hbase).1 him)
  obtain rfl := Option.mem_unique hl hlevel
  rw [levelOf?_eq_of_line g hline htMem (show first ∈ codeOf line by simp [hfirst]), hlevel']

/-- A judged line whose leader has a base before it is deeper than the line of the base. -/
theorem eq_of_leader {all : LineLevels}
    (hall : s.checkedLevels (s.analyze caseLevels) = .ok all) (hbase : s.At i base) (ht : s.At j t)
    (hij : i < j) (hentry : (s.analyze caseLevels).registry.get? t = some ⟨t, some base, levels⟩)
    (hlines : s.lines = above ++ (t :: rest) :: below) (hmem : (t.line, level) ∈ all) :
    ∃ l, s.levelOf? (s.analyze caseLevels) base = some l ∧ level = l + levels := by
  obtain ⟨hcode, -, hlevel⟩ := levelOf?_of_mem hall hlines hmem
  have hfirst : codeOf (t :: rest) = t :: codeOf rest := List.filter_cons_of_pos (by simp [hcode])
  obtain ⟨l, hl, hlevel'⟩ := (settled g caseLevels).levelOf?_of_entry hlines hfirst hentry
    (standsOn_above (stands_root g).ordered hbase ht hij hlines)
  exact ⟨l, hl, Option.mem_unique hlevel hlevel'⟩

end Grammatical

end Source

end ScriptIndent
