import ScriptIndent.Proofs.Rule.Depth

/-!
# ScriptIndent.Proofs.Rule.Affine

How rules heed the depth that is asked of clauses.

```
switch (x) {
  case y:        ⟨case, {, 0 + 1 · c⟩      only clauses count in depths of clauses
    z;           ⟨z, case, 1 + 0 · c⟩
```

The depth `c` shows in the levels of entries and nowhere else.  A rule drafts entries for the
same tokens and bases whatever the depth, and ends in the same way; the levels of an entry are
`a + b * c` for some `a` and `b` of its own that are not negative (`Rule.visit?_affine`).
-/

namespace ScriptIndent

/-- Levels that are counted in single levels and in depths of clauses. -/
structure Affine where
  levels : Nat
  depths : Nat

namespace Affine

/-- The levels for clauses that lie `caseLevels` deep. -/
def eval (caseLevels : Int) (f : Affine) : Int := f.levels + f.depths * caseLevels

def add (f g : Affine) : Affine := ⟨f.levels + g.levels, f.depths + g.depths⟩

@[simp] theorem eval_add (c : Int) (f g : Affine) : (f.add g).eval c = f.eval c + g.eval c := by
  simp only [eval, add, Int.natCast_add, Int.add_mul]
  omega

@[simp] theorem eval_levels (c : Int) (n : Nat) : (⟨n, 0⟩ : Affine).eval c = n := by simp [eval]

@[simp] theorem eval_depths (c : Int) : (⟨0, 1⟩ : Affine).eval c = c := by simp [eval]

/-- Where clauses lie deeper than their brace, no levels are negative. -/
theorem eval_nonneg {c : Int} (h : 0 ≤ c) (f : Affine) : 0 ≤ f.eval c :=
  Int.add_nonneg (Int.natCast_nonneg _) (Int.mul_nonneg (Int.natCast_nonneg _) h)

end Affine

/-- An entry whose levels depend on the depth of clauses. -/
structure AffineEntry where
  token : Token
  base : Option Token
  levels : Affine

namespace AffineEntry

/-- The entry for clauses that lie `caseLevels` deep. -/
def eval (caseLevels : Int) (e : AffineEntry) : Entry := ⟨e.token, e.base, e.levels.eval caseLevels⟩

/-- An entry that does not depend on the depth of clauses. -/
def ofEntry (e : Entry) : AffineEntry := ⟨e.token, e.base, ⟨e.levels.toNat, 0⟩⟩

theorem eval_ofEntry {e : Entry} (h : 0 ≤ e.levels) (c : Int) : (ofEntry e).eval c = e := by
  simp [eval, ofEntry, Int.toNat_of_nonneg h]

theorem map_eval_ofEntry {es : List Entry} (h : ∀ e ∈ es, 0 ≤ e.levels) (c : Int) :
    (es.map ofEntry).map (eval c) = es := by
  calc (es.map ofEntry).map (eval c) = es.map fun e => (ofEntry e).eval c := List.map_map
    _ = es.map fun e => e := List.map_congr_left fun e he => eval_ofEntry (h e he) c
    _ = es := List.map_id' es

end AffineEntry

namespace Draft

variable {α β : Type}

/-- Drafts, one for each depth of clauses, that differ in the levels of their entries, and these
are affine in the depth. -/
def IsAffine (d : Int → Draft α) : Prop :=
  ∃ (es : List AffineEntry) (result : Except Fault α), ∀ c, d c = ⟨es.map (·.eval c), result⟩

theorem Deepens.isAffine {d : Draft α} (h : d.Deepens) : IsAffine fun _ => d :=
  ⟨d.writes.map .ofEntry, d.result, fun c => by rw [AffineEntry.map_eval_ofEntry h]⟩

theorem IsAffine.bind {d : Int → Draft α} {f : Int → α → Draft β} (h : IsAffine d)
    (hf : ∀ a, IsAffine fun c => f c a) : IsAffine fun c => d c >>= f c := by
  obtain ⟨es, result, hd⟩ := h
  cases result with
  | error e =>
    refine ⟨es, .error e, fun c => ?_⟩
    have herror := bind_of_error (congrArg Draft.result (hd c)) (f c)
    rwa [congrArg Draft.writes (hd c)] at herror
  | ok a =>
    obtain ⟨es', result', hf⟩ := hf a
    refine ⟨es ++ es', result', fun c => ?_⟩
    have hok := bind_of_ok (congrArg Draft.result (hd c)) (f c)
    rwa [congrArg Draft.writes (hd c), show f c a = _ from hf c, ← List.map_append] at hok

/-- A step that does not depend on the depth of clauses, and what follows. -/
theorem Deepens.andAffine {d : Draft α} {f : Int → α → Draft β} (h : d.Deepens)
    (hf : ∀ a, IsAffine fun c => f c a) : IsAffine fun c => d >>= f c :=
  h.isAffine.bind hf

/-- The elements of a list may lie as deep as clauses. -/
theorem isAffine_elements (s : Source) (items : List Node) (left : Token) (right : Option Token) :
    IsAffine fun c => elements s items left right c := by
  refine ⟨(((items.map Anchor.node).filterMap s.first?).filter (· ≠ left)).map
      (fun t => ⟨t, some left, ⟨0, 1⟩⟩) ++
    (Entry.offsets right.toList 0 (some left)).map .ofEntry, .ok (), fun c => ?_⟩
  rw [List.map_append, AffineEntry.map_eval_ofEntry (nonneg_of_mem_offsets (Int.le_refl 0)),
    List.map_map]
  simp [elements, write, Entry.elements, Entry.offsets, Function.comp_def, AffineEntry.eval]

end Draft

namespace Rule

open Draft

variable (s : Source) (n : Node)

/-- Clauses lie as deep as it is asked of them. -/
theorem switch_isAffine : IsAffine fun c => switch s c n := by
  refine (deepens_first s n).andAffine fun keyword => ?_
  refine (deepens_part _ _).andAffine fun value => ?_
  refine (deepens_first s value).andAffine fun left => ?_
  refine (deepens_last s value).andAffine fun right => ?_
  refine (deepens_part _ _).andAffine fun clauses => ?_
  refine (deepens_first s clauses).andAffine fun leftBrace => ?_
  refine (deepens_last s clauses).andAffine fun rightBrace => ?_
  refine (deepens_offset (Int.zero_le_ofNat 1) keyword).andAffine fun _ => ?_
  refine (deepens_elements (Int.zero_le_ofNat 1)).andAffine fun _ => ?_
  refine (deepens_offset (Int.le_refl 0) keyword).andAffine fun _ => ?_
  exact isAffine_elements s clauses.codeChildren leftBrace rightBrace

/-- No other rule heeds the depth of clauses. -/
theorem ofConstruct_eq {construct : Construct} (h : construct ≠ .switch) (c c' : Int)
    (above : List Node) :
    ofConstruct s c above n construct = ofConstruct s c' above n construct := by
  cases construct with
  | switch => exact absurd rfl h
  | _ => rfl

theorem ofConstruct_isAffine (hblocks : ∀ b ∈ s.blocks, 0 ≤ b.baseLevel) (above : List Node)
    (construct : Construct) : IsAffine fun c => ofConstruct s c above n construct := by
  by_cases h : construct = .switch
  · subst h
    exact switch_isAffine s n
  · simp only [fun c => ofConstruct_eq s n h c 0 above]
    exact (ofConstruct_deepens s n hblocks (Int.le_refl 0) above construct).isAffine

/-- Whatever the depth of clauses, a visit drafts entries for the same tokens and bases and ends
in the same way, and the levels of the entries are affine in the depth. -/
theorem visit?_affine (hblocks : ∀ b ∈ s.blocks, 0 ≤ b.baseLevel) (place : Node.Placed) :
    (∀ c, visit? s c place = none) ∨
      ∃ d, IsAffine d ∧ ∀ c, visit? s c place = some (d c) := by
  cases hrule : Construct.ofKind? place.node.kind with
  | none => exact .inl fun c => by rw [visit?, hrule, Option.map_none]
  | some construct =>
    refine .inr ⟨_, (ofConstruct_isAffine s place.node hblocks place.ancestors construct).bind
      fun _ => (deepens_write (common_nonneg s place.node)).isAffine, fun c => ?_⟩
    rw [visit?, hrule, Option.map_some]

end Rule

end ScriptIndent
