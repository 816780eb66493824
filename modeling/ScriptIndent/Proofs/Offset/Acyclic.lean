import ScriptIndent.Proofs.Offset.Chain
import ScriptIndent.Proofs.Rule.Visit
import ScriptIndent.Proofs.Tree.Sound

/-!
# ScriptIndent.Proofs.Offset.Acyclic

Registries whose entries all point backwards have no cycles.

1. What all visits draft, the registry holds (`Analysis.visitAll_meets`).
2. If each entry is absolute or has a base that stands before its token, every
   chain of bases ends (`Registry.exists_resolve`), so every line has a level
   (`Registry.exists_settle`).
3. The analysis of a grammatical tree leads to such a registry
   (`Source.analyze_grammatical`).
-/

namespace ScriptIndent

/-! ## what a registry holds -/

namespace Analysis

/-- If every visit goes through and its entries have a property, the whole walk
goes through, and all entries have it. -/
theorem visitAll_meets {s : Source} {caseLevels : Int} {E : Entry → Prop}
    {places : List Node.Placed}
    (h : ∀ place ∈ places, ∀ draft, Rule.visit? s caseLevels place = some draft →
      draft.Meets E fun _ => True)
    {a : Analysis} (hfault : a.fault = none) (hrecords : ∀ e ∈ a.registry.records, E e) :
    (a.visitAll s caseLevels places).fault = none ∧
      ∀ e ∈ (a.visitAll s caseLevels places).registry.records, E e := by
  induction places generalizing a with
  | nil => exact ⟨hfault, hrecords⟩
  | cons place rest ih =>
    have hplaces := fun p hp => h p (List.mem_cons_of_mem place hp)
    have hstep : (a.visit s caseLevels place).fault = none ∧
        ∀ e ∈ (a.visit s caseLevels place).registry.records, E e := by
      unfold visit
      cases hvisit : Rule.visit? s caseLevels place with
      | none =>
        refine ⟨hfault, fun e he => hrecords e ?_⟩
        simp only [Registry.ignore] at he
        split at he <;> exact he
      | some draft =>
        obtain ⟨hwrites, _, hresult, -⟩ := h place List.mem_cons_self draft hvisit
        refine ⟨by simp only [hresult], fun e he => ?_⟩
        exact (Registry.mem_record he).elim (hrecords e) (hwrites e)
    rw [visitAll]
    simp only [hstep.1, Option.isSome_none, Bool.false_eq_true, if_false]
    exact ih hplaces hstep.1 hstep.2

end Analysis

/-! ## chains of bases -/

namespace Registry

/-- Every entry is absolute, or has a base that stands before its token. -/
def PointsBack (r : Registry) (s : Source) : Prop :=
  ∀ e ∈ r.records, e.base = none ∨ e.Backward s

variable {r : Registry} {s : Source}

/-- A chain that has passed only tokens behind the next one comes to an end. -/
theorem exists_resolveFrom (h : r.PointsBack s) (known : KnownLevels) {k : Nat} {t : Token}
    (ht : s.At k t) {seen : List Token} (hseen : ∀ u ∈ seen, ∃ l, k < l ∧ s.At l u)
    (total : Int) : ∃ level, r.resolveFrom known seen total t = .ok level := by
  induction k using Nat.strongRecOn generalizing t seen total with
  | ind k ih =>
    rw [resolveFrom]
    split
    · exact ⟨_, rfl⟩
    have hnot : t ∉ seen := by
      intro hmem
      obtain ⟨l, hkl, hl⟩ := hseen t hmem
      have := Source.eq_of_getElem? ht hl
      omega
    rw [dif_neg hnot]
    split
    · exact ⟨_, rfl⟩
    next e he =>
    obtain ⟨hmem, rfl⟩ := mem_of_get? he
    split
    · exact ⟨_, rfl⟩
    next base hbase =>
    obtain ⟨k', l, base', hlt, hbase', hk', hl⟩ := (h e hmem).resolve_left (by simp [hbase])
    obtain rfl := Option.mem_unique hbase hbase'
    obtain rfl := Source.eq_of_getElem? ht hl
    refine ih k' hlt hk' (fun u hu => ?_) _
    rcases List.mem_cons.1 hu with rfl | hu
    · exact ⟨k, hlt, ht⟩
    · obtain ⟨l, hkl, hl⟩ := hseen u hu
      exact ⟨l, by omega, hl⟩

/-- Every token has a level. -/
theorem exists_resolve (h : r.PointsBack s) (known : KnownLevels) {t : Token}
    (ht : t ∈ s.tokens) : ∃ level, r.resolve known t = .ok level := by
  obtain ⟨k, hk⟩ := Array.getElem?_of_mem ht
  exact exists_resolveFrom h known hk (by simp) 0

/-- Lines of tokens and comments can be settled. -/
theorem exists_settle (h : r.PointsBack s) (known : KnownLevels) {lines : List (List Token)}
    (hlines : ∀ line ∈ lines, ∀ t ∈ line, t.isComment = false → t ∈ s.tokens) :
    ∃ levels, (r.settle known lines).result = .ok levels := by
  induction lines generalizing known with
  | nil => exact ⟨[], rfl⟩
  | cons line rest ih =>
    have hrest := fun known => ih known fun l hl => hlines l (List.mem_cons_of_mem line hl)
    unfold settle
    split
    · next leader others t code hcode =>
      have hmem := List.mem_filter.1 (hcode ▸ List.mem_cons_self : t ∈ List.filter _ _)
      obtain ⟨level, hlevel⟩ :=
        exists_resolve h known (hlines _ List.mem_cons_self t hmem.1 (by simpa using hmem.2))
      rw [hlevel]
      obtain ⟨levels, hlevels⟩ := hrest (known.noteAll (t :: code) level)
      dsimp only
      split
      · exact ⟨levels, hlevels⟩
      · exact ⟨_, by simp only [hlevels]; rfl⟩
    · exact hrest known

end Registry

namespace Source

/-! ## lines -/

/-- Cutting tokens into groups loses none and keeps their order. -/
theorem flatten_groupsFrom (reached : Nat) (current ts : List Token) :
    (groupsFrom reached current ts).flatten = current.reverse ++ ts := by
  induction ts generalizing reached current with
  | nil =>
    rw [groupsFrom]
    cases current <;> simp
  | cons t rest ih =>
    rw [groupsFrom]
    split
    · rw [List.flatten_cons, ih]
      simp
    · rw [ih]
      simp

theorem flatten_lines (s : Source) : s.lines.flatten = s.merged := by
  simpa [lines] using flatten_groupsFrom 0 [] s.merged

theorem isComment_of_mem_comments {s : Source} {t : Token} (h : t ∈ s.comments) :
    t.isComment = true := by
  rw [s.comments_eq, Buffer.commentTokens] at h
  obtain ⟨p, hp, rfl⟩ := List.mem_map.1 h
  exact (List.mem_filter.1 hp).2

/-- What stands on a line and is no comment is a code token. -/
theorem mem_tokens_of_mem_lines {s : Source} {line : List Token} (hline : line ∈ s.lines)
    {t : Token} (ht : t ∈ line) (hcode : t.isComment = false) : t ∈ s.tokens := by
  have hmem : t ∈ s.merged := by
    rw [← flatten_lines]
    exact List.mem_flatten.2 ⟨line, hline, ht⟩
  rw [merged, List.mem_mergeSort, List.mem_append] at hmem
  rcases hmem with hmem | hmem
  · exact Array.mem_toList_iff.1 hmem
  · rw [isComment_of_mem_comments hmem] at hcode
    cases hcode

/-! ## grammatical trees -/

/-- The walk over a grammatical tree goes through, and its registry points back. -/
theorem analyze_pointsBack {s : Source} (g : s.root.Grammatical s.buffer) (caseLevels : Int) :
    (s.analyze caseLevels).fault = none ∧ (s.analyze caseLevels).registry.PointsBack s :=
  Analysis.visitAll_meets (fun _ hplace _ hdraft =>
    (Rule.visit?_meets g hplace caseLevels hdraft).mono (fun _ he => he.imp_left And.left)
      fun _ _ => trivial) rfl (by simp)

/-- The walk over a grammatical tree ends without a fault, every entry with a base
has one that stands before its token, every token has a level whatever levels are
known, and every line can be settled. -/
theorem analyze_grammatical (s : Source) (g : s.root.Grammatical s.buffer) (caseLevels : Int) :
    (s.analyze caseLevels).fault = none ∧
      (∀ e ∈ (s.analyze caseLevels).registry.entries, ∀ base, e.base = some base →
        ∃ k l, base.index = some k ∧ e.token.index = some l ∧ k < l) ∧
      (∀ known, ∀ t ∈ s.tokens,
        ∃ level, (s.analyze caseLevels).registry.resolve known t = .ok level) ∧
      ∃ levels, s.checkedLevels (s.analyze caseLevels) = .ok levels := by
  obtain ⟨hfault, hback⟩ := analyze_pointsBack g caseLevels
  refine ⟨hfault, fun e he base hbase => ?_, fun known t ht => Registry.exists_resolve hback known ht,
    ?_⟩
  · rw [Registry.entries, List.mem_mergeSort] at he
    obtain ⟨k, l, base', hlt, hbase', hk, hl⟩ := (hback e he).resolve_left (by simp [hbase])
    obtain rfl := Option.mem_unique hbase hbase'
    exact ⟨k, l, index_of_getElem? hk, index_of_getElem? hl, hlt⟩
  · obtain ⟨levels, hlevels⟩ := Registry.exists_settle hback []
      fun line hline t ht hcode => mem_tokens_of_mem_lines hline ht hcode
    exact ⟨s.withoutBlockStarts levels, by simp only [checkedLevels, hfault, hlevels]⟩

/-! ## an assignment -/

/-- The expression `a=b`. -/
def assignment : Node :=
  ⟨"assignment_expression", true, false, false, [], 0, 3,
    [⟨"identifier", true, false, false, ["left"], 0, 1, []⟩,
      ⟨"=", false, false, false, [], 1, 2, []⟩,
      ⟨"identifier", true, false, false, ["right"], 2, 3, []⟩]⟩

/-- A program that consists of `a=b`. -/
def assignmentSource : Source :=
  .ofTree #[0x61, 0x3D, 0x62]
    ⟨"program", true, false, false, [], 0, 3,
      [⟨"expression_statement", true, false, false, [], 0, 3, [assignment]⟩]⟩
    none []

theorem assignment_sound : assignment.Sound assignmentSource.buffer := by
  have hequals : Node.Spells assignmentSource.buffer ⟨"=", false, false, false, [], 1, 2, []⟩ "=" :=
    by decide +kernel
  have hcode : assignment.codeChildren =
      [⟨"identifier", true, false, false, ["left"], 0, 1, []⟩,
        ⟨"identifier", true, false, false, ["right"], 2, 3, []⟩] := rfl
  have hshape : assignment.Shape assignmentSource.buffer .chain :=
    ⟨_, _, _, ⟨rfl, by simp [hcode]⟩, ⟨"=", hequals, by decide, by decide⟩,
      ⟨rfl, by simp [hcode]⟩, List.Sublist.refl _, rfl⟩
  refine Node.IsCompound.sound ⟨by decide, by decide⟩ (by decide) (by decide) List.mem_cons_self
    (Node.hasToken_of_leaf (by decide) (by decide) rfl) (by decide) (by decide) hshape ?_
  simp only [assignment, List.forall_mem_cons]
  exact ⟨Node.sound_of_leaf (by decide) rfl (by decide) (by decide), hequals.sound (by decide),
    Node.sound_of_leaf (by decide) rfl (by decide) (by decide), by simp⟩

theorem assignmentSource_grammatical :
    assignmentSource.root.Grammatical assignmentSource.buffer := by
  have hstatement : Node.Sound assignmentSource.buffer
      ⟨"expression_statement", true, false, false, [], 0, 3, [assignment]⟩ := by
    have hn : Node.IsCompound
        ⟨"expression_statement", true, false, false, [], 0, 3, [assignment]⟩ :=
      ⟨by decide, by decide⟩
    refine hn.sound (by decide) (by decide) List.mem_cons_self
      (assignment_sound.isSound.hasToken ⟨rfl, by decide⟩) (by decide) (by decide) hn.plainShape ?_
    simpa using assignment_sound
  refine Node.Grammatical.of_children (by decide) (by decide) (fun construct hconstruct => ?_) ?_
  · obtain rfl : Construct.program = construct :=
      Option.mem_unique (by decide : Construct.ofKind? "program" = some .program) hconstruct
    trivial
  · simpa [assignmentSource, ofTree] using hstatement

/-- The right operand of `a=b` is placed one level deeper than the left one. -/
theorem exists_entry_assignment : ∃ e ∈ (assignmentSource.analyze 1).registry.entries,
    e.token.index = some 2 ∧ e.base.bind (·.index) = some 0 ∧ e.levels = 1 := by
  simp only [Registry.entries, List.mem_mergeSort]
  decide +kernel

/-- The right operand of `a=b` has an entry with a base before it. -/
theorem analyze_assignment :
    assignmentSource.root.Grammatical assignmentSource.buffer ∧
      (∃ e ∈ (assignmentSource.analyze 1).registry.entries,
        e.token.index = some 2 ∧ e.base.bind (·.index) = some 0 ∧ e.levels = 1) ∧
      (assignmentSource.analyze 1).fault = none ∧
      (∀ e ∈ (assignmentSource.analyze 1).registry.entries, ∀ base, e.base = some base →
        ∃ k l, base.index = some k ∧ e.token.index = some l ∧ k < l) ∧
      (∀ known, ∀ t ∈ assignmentSource.tokens,
        ∃ level, (assignmentSource.analyze 1).registry.resolve known t = .ok level) ∧
      ∃ levels, assignmentSource.checkedLevels (assignmentSource.analyze 1) = .ok levels :=
  ⟨assignmentSource_grammatical, exists_entry_assignment,
    Source.analyze_grammatical assignmentSource assignmentSource_grammatical 1⟩

end Source

end ScriptIndent
