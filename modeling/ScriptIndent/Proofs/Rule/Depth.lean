import ScriptIndent.Rule.Visit

/-!
# ScriptIndent.Proofs.Rule.Depth

No rule places a token less deep than its base.

A draft *deepens* if the levels of all its entries are at least 0
(`Draft.Deepens`), whether or not it goes through.  Every rule deepens on every
tree, if clauses lie at least as deep as their statement and no block of script
begins at a negative level (`Rule.visit?_deepens`).
-/

namespace ScriptIndent

namespace Draft

variable {α β : Type}

/-- No entry has negative levels. -/
def Deepens (d : Draft α) : Prop := ∀ e ∈ d.writes, 0 ≤ e.levels

@[simp] theorem deepens_pure (a : α) : (pure a : Draft α).Deepens := by simp [Deepens]

@[simp] theorem deepens_fail (e : Fault) : (fail e : Draft α).Deepens := by simp [Deepens, fail]

@[simp] theorem deepens_bind {d : Draft α} {f : α → Draft β} :
    (d >>= f).Deepens ↔ d.Deepens ∧ ∀ a, d.result = .ok a → (f a).Deepens := by
  cases h : d.result with
  | error e => simp [bind_of_error h, Deepens]
  | ok a =>
    rw [bind_of_ok h]
    simp [Deepens, or_imp, forall_and]

@[simp] theorem deepens_map {f : α → β} {d : Draft α} : (f <$> d).Deepens ↔ d.Deepens := by
  change (d >>= fun a => pure (f a)).Deepens ↔ _
  simp

theorem deepens_write {es : List Entry} (h : ∀ e ∈ es, 0 ≤ e.levels) : (write es).Deepens := h

/-! ## entries -/

theorem nonneg_of_mem_offsets {ts : List Token} {levels : Int} (h : 0 ≤ levels)
    {base : Option Token} : ∀ e ∈ Entry.offsets ts levels base, 0 ≤ e.levels := by
  intro e he
  cases base with
  | none => simp [Entry.offsets] at he
  | some b =>
    rw [Entry.offsets, List.mem_map] at he
    obtain ⟨t, -, rfl⟩ := he
    exact h

theorem deepens_write_offsets {ts : List Token} {levels : Int} (h : 0 ≤ levels)
    (base : Option Token) : (write (Entry.offsets ts levels base)).Deepens :=
  nonneg_of_mem_offsets h

@[simp] theorem deepens_offsets {ts : List Token} {levels : Int} (h : 0 ≤ levels) (base : Token) :
    (offsets ts levels base).Deepens := deepens_write_offsets h _

@[simp] theorem deepens_offset {t : Token} {levels : Int} (h : 0 ≤ levels) (base : Token) :
    (offset t levels base).Deepens := deepens_offsets h base

@[simp] theorem deepens_elements {s : Source} {items : List Node} {left : Token}
    {right : Option Token} {levels : Int} (h : 0 ≤ levels) :
    (elements s items left right levels).Deepens := by
  intro e he
  rcases List.mem_append.1 he with he | he
  · exact nonneg_of_mem_offsets h e he
  · exact nonneg_of_mem_offsets (Int.le_refl 0) e he

theorem deepens_each {f : α → Draft Unit} {as : List α} (h : ∀ a ∈ as, (f a).Deepens) :
    (each f as).Deepens := by
  induction as with
  | nil => exact deepens_pure _
  | cons a rest ih =>
    rw [each, deepens_bind]
    exact ⟨h a List.mem_cons_self, fun _ _ => ih fun b hb => h b (List.mem_cons_of_mem a hb)⟩

/-! ## what the grammar guarantees -/

@[simp] theorem deepens_part (asked : Aspect) (p : Option Node) : (part asked p).Deepens := by
  cases p <;> simp [part]

@[simp] theorem deepens_require (s : Source) (n : Node) (description : String)
    (o : Option Token) : (require s n description o).Deepens := by
  cases o <;> simp [require]

@[simp] theorem deepens_first (s : Source) (n : Node) : (first s n).Deepens :=
  deepens_require s n _ _

@[simp] theorem deepens_last (s : Source) (n : Node) : (last s n).Deepens :=
  deepens_require s n _ _

@[simp] theorem deepens_firstOf (s : Source) (p : Option Node) : (firstOf s p).Deepens := by
  simp [firstOf]

@[simp] theorem deepens_keyword? (s : Source) (n : Node) (value : String) :
    (keyword? s n value).Deepens := by
  rw [keyword?]
  split <;> simp

end Draft

namespace Rule

open Draft

variable (s : Source) (n : Node)

/-! ## lists and operators -/

/-- No statement begins at a negative level if no block does. -/
theorem baseLevel_nonneg {s : Source} (h : ∀ b ∈ s.blocks, 0 ≤ b.baseLevel) (t : Token) :
    0 ≤ s.baseLevel t := by
  rw [Source.baseLevel]
  split
  · next b hfind => exact h b (List.mem_of_find?_eq_some hfind)
  · exact Int.le_refl 0

theorem program_deepens (h : ∀ b ∈ s.blocks, 0 ≤ b.baseLevel) : (program s n).Deepens := by
  refine deepens_each fun c _ => ?_
  rw [deepens_bind]
  refine ⟨deepens_first s c, fun t _ => deepens_write fun e he => ?_⟩
  rw [Entry.starts, List.map_singleton, List.mem_singleton] at he
  rw [he]
  exact baseLevel_nonneg h t

theorem declarator_deepens : (declarator s n).Deepens := by
  rw [declarator]
  split <;> simp

theorem chain_deepens (above : List Node) : (chain s above n).Deepens := by simp [chain]

theorem ternary_deepens (above : List Node) : (ternary s above n).Deepens := by simp [ternary]

theorem yielding_deepens : (yielding s n).Deepens := by
  rw [yielding]
  split
  · simp
  split
  · simp only [deepens_bind, deepens_offset (Int.zero_le_ofNat 1), true_and]
    intro _ _
    split <;> simp
  · simp

/-! ## control flow -/

theorem bodyLevels_nonneg (t : Token) : 0 ≤ bodyLevels t := by
  rw [bodyLevels]
  split <;> simp

@[simp] theorem body_deepens (keyword : Token) : (body s n keyword).Deepens := by
  simp [body, bodyLevels_nonneg]

theorem conditional_deepens : (conditional s n).Deepens := by
  rw [conditional]
  split
  · simp only [deepens_bind, deepens_part, deepens_offset (Int.zero_le_ofNat 1),
      deepens_offsets (Int.le_refl 0), body_deepens, true_and]
    intro _ _ _ _ _ _ _ _
    split
    · simp
    · simp only [deepens_bind, deepens_first, deepens_offset (Int.le_refl 0), true_and]
      intro _ _ _ _
      split <;> simp
  · simp

theorem headed_deepens : (headed s n).Deepens := by simp [headed]

theorem doLoop_deepens : (doLoop s n).Deepens := by simp [doLoop]

theorem forLoop_deepens : (forLoop s n).Deepens := by simp [forLoop]

@[simp] theorem forInWord_deepens : (forInWord s n).Deepens := by
  rw [forInWord]
  split <;> simp

theorem forInLoop_deepens : (forInLoop s n).Deepens := by
  simp [forInLoop, deepens_write_offsets]

theorem switch_deepens {caseLevels : Int} (h : 0 ≤ caseLevels) :
    (switch s caseLevels n).Deepens := by
  simp [switch, h]

@[simp] theorem clauseColon_deepens (keyword : Token) : (clauseColon s n keyword).Deepens := by
  rw [clauseColon]
  split <;> simp

theorem clause_deepens : (clause s n).Deepens := by
  rw [clause]
  simp only [deepens_bind, deepens_first, clauseColon_deepens, true_and]
  intro keyword _ colon _
  refine deepens_each fun c _ => ?_
  rw [deepens_bind]
  refine ⟨deepens_first s c, fun _ _ => deepens_offset ?_ _⟩
  split
  · split <;> simp
  · simp

theorem guarded_deepens : (guarded s n).Deepens := by
  rw [guarded]
  simp only [deepens_bind, deepens_first, deepens_firstOf, deepens_offset (Int.le_refl 0),
    true_and]
  intro _ _ _ _ _ _
  split
  · split
    · simp
    · rw [deepens_bind]
      refine ⟨by simp, fun _ _ => ?_⟩
      split <;> simp
  · simp only [deepens_bind, deepens_first, deepens_offset (Int.le_refl 0), true_and]
    intro _ _ _ _
    split
    · simp
    · rw [deepens_bind]
      refine ⟨by simp, fun _ _ => ?_⟩
      split <;> simp

theorem handler_deepens : (handler s n).Deepens := by
  rw [handler, deepens_bind]
  refine ⟨by simp, fun _ _ => ?_⟩
  dsimp only
  split <;> simp

theorem jump_deepens : (jump s n).Deepens := by
  rw [jump]
  split <;> simp

theorem exit_deepens : (exit s n).Deepens := by
  rw [exit]
  split <;> simp

/-! ## functions and classes -/

theorem nonneg_of_mem_headLevels (name : Option Node) {levels : Int} (h : 0 ≤ levels)
    (ts : List Token) : ∀ p ∈ headLevels name levels ts, 0 ≤ p.2 := by
  induction ts generalizing levels with
  | nil => simp [headLevels]
  | cons t rest ih =>
    rw [headLevels]
    split
    · simp
    · have hnext : 0 ≤ if t.value == "*" || name.any (·.start = t.start) then 1 else levels := by
        split
        · simp
        · exact h
      intro p hp
      rcases List.mem_cons.1 hp with rfl | hp
      · exact hnext
      · exact ih hnext p hp

theorem function_deepens : (function s n).Deepens := by
  simp only [function, deepens_bind, deepens_part, deepens_first, true_and]
  intro keyword _ _ _ _ _
  constructor
  · refine deepens_each fun p hp => ?_
    exact deepens_offset (nonneg_of_mem_headLevels _ (Int.le_refl 0) _ p hp) keyword
  · simp

theorem arrow_deepens : (arrow s n).Deepens := by
  rw [arrow]
  split
  · simp
  · rw [deepens_bind]
    refine ⟨by simp, fun _ _ => ?_⟩
    rw [deepens_bind]
    refine ⟨by simp, fun _ _ => ?_⟩
    dsimp only
    split
    · rw [deepens_bind]
      refine ⟨by simp, fun _ _ => ?_⟩
      split <;> simp [arrowParameters]
    · split <;> simp [arrowParameters]

@[simp] theorem memberKey_deepens (start : Token) (key : Option Node) :
    (memberKey s start key).Deepens := by
  rw [memberKey, deepens_bind]
  refine ⟨by simp, fun _ _ => ?_⟩
  split <;> simp

theorem method_deepens : (method s n).Deepens := by simp [method]

@[simp] theorem memberValue_deepens (start : Token) (key value : Option Node) :
    (memberValue s start key value).Deepens := by
  rw [memberValue, deepens_bind]
  refine ⟨by simp, fun _ _ => ?_⟩
  split <;> simp

theorem classDefinition_deepens : (classDefinition s n).Deepens := by
  rw [classDefinition, deepens_bind]
  refine ⟨by simp, fun o _ => ?_⟩
  dsimp only
  split
  all_goals
    rw [deepens_bind]
    refine ⟨by simp, fun _ _ => ?_⟩
    split
    · split <;> simp
    · split <;> simp

/-! ## access and modules -/

theorem metaProperty_deepens : (metaProperty s n).Deepens := by
  rw [metaProperty]
  split <;> simp

theorem call_deepens : (call s n).Deepens := by
  rw [call]
  split
  · simp
  · split <;> simp

theorem creation_deepens : (creation s n).Deepens := by
  rw [creation]
  simp only [deepens_bind, deepens_first, deepens_firstOf, deepens_offset (Int.zero_le_ofNat 1),
    true_and]
  intro _ _ _ _ _ _
  split <;> simp

@[simp] theorem substitutedFirsts_deepens (ns : List Node) :
    (substitutedFirsts s ns).Deepens := by
  induction ns with
  | nil => simp [substitutedFirsts]
  | cons c rest ih =>
    rw [substitutedFirsts]
    split <;> simp [ih]

theorem templateLiteral_deepens : (templateLiteral s n).Deepens := by simp [templateLiteral]

@[simp] theorem importPart_deepens (p : Node) : (importPart s n p).Deepens := by
  rw [importPart]
  split
  · simp
  split
  · dsimp only
    split <;> simp
  · simp

@[simp] theorem importParts_deepens (ps : List Node) : (importParts s n ps).Deepens := by
  induction ps with
  | nil => simp [importParts]
  | cons p rest ih => simp [importParts, ih]

theorem importing_deepens : (importing s n).Deepens := by
  have hlevels : ∀ p : Prop, [Decidable p] → (0 : Int) ≤ if p then 0 else 1 := by
    intro p _
    split <;> simp
  simp only [importing, deepens_bind, deepens_first, deepens_part, importParts_deepens,
    deepens_offsets (hlevels _), true_and]
  intro _ _ _ _ _ _ _ _ _ _
  split <;> simp

@[simp] theorem aliased_deepens : (aliased s n).Deepens := by
  rw [aliased]
  split <;> simp

theorem importSpecifier_deepens : (importSpecifier s n).Deepens := by
  rw [importSpecifier]
  split <;> simp

@[simp] theorem exportAll_deepens (keyword : Token) (module : Node) :
    (exportAll s n keyword module).Deepens := by
  rw [exportAll]
  split
  · simp
  · rw [deepens_bind]
    refine ⟨by simp, fun _ _ => ?_⟩
    dsimp only
    split
    · simp
    · split <;> simp

@[simp] theorem exportNames_deepens (keyword : Token) (clause : Node) (module : Option Node) :
    (exportNames s keyword clause module).Deepens := by
  rw [exportNames]
  simp only [deepens_bind, deepens_first, deepens_last, deepens_offset (Int.le_refl 0),
    deepens_elements (Int.zero_le_ofNat 1), true_and]
  intro _ _ _ _ _ _ _ _
  split
  · simp
  · split <;> simp

theorem exporting_deepens : (exporting s n).Deepens := by
  rw [exporting, deepens_bind]
  refine ⟨by simp, fun o _ => ?_⟩
  dsimp only
  split
  all_goals
    rw [deepens_bind]
    refine ⟨by simp, fun keyword _ => ?_⟩
    rw [deepens_bind]
    refine ⟨by simp, fun _ _ => ?_⟩
    split
    · split <;> simp
    · split
      · simp
      · split <;> simp

/-! ## visits -/

theorem ofConstruct_deepens (hblocks : ∀ b ∈ s.blocks, 0 ≤ b.baseLevel) {caseLevels : Int}
    (h : 0 ≤ caseLevels) (above : List Node) (construct : Construct) :
    (ofConstruct s caseLevels above n construct).Deepens := by
  cases construct with
  | plain => exact deepens_pure _
  | program => exact program_deepens s n hblocks
  | arrayList => simp [ofConstruct, arrayList]
  | objectList => simp [ofConstruct, objectList]
  | block => simp [ofConstruct, block]
  | staticBlock => simp [ofConstruct, staticBlock]
  | sequence => simp [ofConstruct, sequence]
  | declaration => simp [ofConstruct, declaration]
  | declarator => exact declarator_deepens s n
  | chain => exact chain_deepens s n above
  | ternary => exact ternary_deepens s n above
  | operand => simp [ofConstruct, operand]
  | yielding => exact yielding_deepens s n
  | conditional => exact conditional_deepens s n
  | headed => exact headed_deepens s n
  | doLoop => exact doLoop_deepens s n
  | forLoop => exact forLoop_deepens s n
  | forInLoop => exact forInLoop_deepens s n
  | switch => exact switch_deepens s n h
  | clause => exact clause_deepens s n
  | guarded => exact guarded_deepens s n
  | handler => exact handler_deepens s n
  | labeled => simp [ofConstruct, labeled]
  | jump => exact jump_deepens s n
  | exit => exact exit_deepens s n
  | function => exact function_deepens s n
  | arrow => exact arrow_deepens s n
  | method => exact method_deepens s n
  | classDefinition => exact classDefinition_deepens s n
  | fieldDefinition => simp [ofConstruct, fieldDefinition]
  | pair => simp [ofConstruct, pair]
  | member => simp [ofConstruct, access]
  | subscript => simp [ofConstruct, subscript]
  | metaProperty => exact metaProperty_deepens s n
  | call => exact call_deepens s n
  | creation => exact creation_deepens s n
  | templateLiteral => exact templateLiteral_deepens s n
  | importing => exact importing_deepens s n
  | importSpecifier => exact importSpecifier_deepens s n
  | aliased => exact aliased_deepens s n
  | exporting => exact exporting_deepens s n

theorem unwrapFrom_nonneg (tokens : Array Token) (inner : Token) (i j : Nat) :
    ∀ e ∈ unwrapFrom tokens inner i j, 0 ≤ e.levels := by
  induction i generalizing inner j with
  | zero => simp [unwrapFrom]
  | succ i ih =>
    intro e he
    rw [unwrapFrom] at he
    split at he
    · next left right _ _ =>
      rw [List.mem_append, List.mem_append] at he
      rcases he with (he | he) | he
      · exact nonneg_of_mem_offsets (Int.zero_le_ofNat 1) e he
      · exact nonneg_of_mem_offsets (Int.le_refl 0) e he
      · exact ih left _ e he
    · simp at he

theorem common_nonneg : ∀ e ∈ common s n, 0 ≤ e.levels := by
  intro e he
  rw [common, List.mem_append] at he
  rcases he with he | he
  · split at he
    · rw [trailingSemicolon] at he
      split at he
      · split at he
        · exact nonneg_of_mem_offsets (Int.le_refl 0) e he
        · simp at he
      · simp at he
    · simp at he
  · split at he
    · rw [wrappingParentheses] at he
      split at he
      · exact unwrapFrom_nonneg _ _ _ _ e he
      · simp at he
    · simp at he

/-- No visit places a token less deep than its base. -/
theorem visit?_deepens (hblocks : ∀ b ∈ s.blocks, 0 ≤ b.baseLevel) {caseLevels : Int}
    (h : 0 ≤ caseLevels) {place : Node.Placed} {draft : Draft Unit}
    (hdraft : visit? s caseLevels place = some draft) : draft.Deepens := by
  rw [visit?, Option.map_eq_some_iff] at hdraft
  obtain ⟨construct, -, rfl⟩ := hdraft
  rw [deepens_bind]
  exact ⟨ofConstruct_deepens s _ hblocks h _ _, fun _ _ => deepens_write (common_nonneg s _)⟩

end Rule

end ScriptIndent
