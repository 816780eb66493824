import ScriptIndent.Proofs.Embedding.Analysis

/-!
# ScriptIndent.Proofs.Embedding.Records

What two walks record.

A source embeds itself (`Embedding.refl`), so what is drafted in a walk is about the code
tokens of the source (`Source.exists_at_of_writes`).  Hence two walks over places that are
alike, in a source and in one with no other tokens, record the same of the same tokens, one
entry after the other (`Embedding.carries_visitAll`, `Embedding.relations_eq`).
-/

namespace ScriptIndent

/-- What is recorded, the tokens given by their places: a token, its base, and how many
levels deeper it is. -/
def Registry.relations (r : Registry) : List (Option Nat × Option (Option Nat) × Int) :=
  r.records.map fun e => (e.token.index, e.base.map (·.index), e.levels)

namespace Embedding

/-- A source in itself. -/
def refl (s : Source) : Embedding s s where
  skip := 0
  row := id
  move := id
  Domain _ := True
  fits := by rw [Nat.zero_add]
  token_kind ht ht' := by
    rw [Nat.zero_add] at ht'
    rw [Option.mem_unique ht' ht]
  token_value ht ht' := by
    rw [Nat.zero_add] at ht'
    rw [Option.mem_unique ht' ht]
  token_line ht ht' := by
    rw [Nat.zero_add] at ht'
    rw [Option.mem_unique ht' ht, id]
  row_lt h := h
  token_order ht ht' hu hu' := by
    rw [Nat.zero_add] at ht' hu'
    rw [Option.mem_unique ht' ht, Option.mem_unique hu' hu]
    exact ⟨.rfl, .rfl⟩
  baseLevel ht ht' := by
    rw [Nat.zero_add] at ht'
    rw [Option.mem_unique ht' ht]
  opening hskip := absurd hskip (Nat.succ_ne_zero _)
  closing ht' := by
    have := (Array.getElem?_eq_some_iff.1 ht').1
    omega
  move_kind _ := rfl
  move_isNamed _ := rfl
  move_fields _ := rfl
  move_children n := by
    rw [List.map_id]
    exact .refl _
  move_head _ := by rw [List.map_id]; rfl
  domain_child _ _ := trivial
  startsUpTo _ := by rw [Nat.zero_add]; rfl
  startsBefore _ := by rw [Nat.zero_add]; rfl
  start_lt _ ht ht' := by
    rw [Nat.zero_add] at ht'
    rw [Option.mem_unique ht' ht, id]
  lt_stop _ ht ht' := by
    rw [Nat.zero_add] at ht'
    rw [Option.mem_unique ht' ht, id]
  start_eq _ ht ht' := by
    rw [Nat.zero_add] at ht'
    rw [Option.mem_unique ht' ht, id]
  same_iff _ _ _ := rfl
  before _ hk := absurd hk (Nat.not_lt_zero _)
  behind _ hk ht' := by
    have := (Array.getElem?_eq_some_iff.1 ht').1
    omega
  lineOfNode _ _ := rfl

theorem exact_refl (s : Source) : (refl s).Exact := ⟨⟨rfl, rfl⟩, fun _ => rfl⟩

/-- A walk is like itself. -/
theorem alike_refl {s : Source} (caseLevels : Int) {place : Node.Placed}
    (h : place ∈ s.root.visited []) : (refl s).Alike caseLevels place place := by
  have hexact := exact_refl s
  have hmoves : List.Forall₂ ((refl s).PlaceMoves [] []) (s.root.visited ([] ++ []))
      (((refl s).move s.root).visited (([] : List Node).map (refl s).move ++ [])) :=
    visited_move trivial (by simp) (.singleton s.root)
  have hnil : Barrier [] := fun a ha => by cases ha
  exact (List.forall₂_same.1 hmoves place h).alike hnil hnil (fun _ => .inl hexact.1)
    fun _ => .inl hexact.1

end Embedding

/-- What a visit drafts is about code tokens. -/
theorem Source.exists_at_of_writes {s : Source} {caseLevels : Int} {place : Node.Placed}
    (h : place ∈ s.root.visited []) {draft : Draft Unit}
    (hdraft : Rule.visit? s caseLevels place = some draft) {e : Entry} (he : e ∈ draft.writes) :
    ∃ i, s.At i e.token := by
  have hvisit := (Embedding.alike_refl caseLevels h).visit
  rw [hdraft] at hvisit
  have hcarries : (Embedding.refl s).CarriesAll draft.writes draft.writes := by
    cases hvisit with
    | some hfollows =>
      cases hresult : draft.result with
      | ok u => exact (hfollows.ok u hresult).1
      | error f => exact (hfollows.error (Embedding.exact_refl s) f hresult).1
  rw [Embedding.CarriesAll] at hcarries
  -- as many entries are about code tokens as there are
  have hall : draft.writes.filter ((Embedding.refl s).owns ·.token) = draft.writes :=
    List.filter_sublist.eq_of_length hcarries.length_eq.symm
  rw [hall, List.forall₂_same] at hcarries
  obtain ⟨i, ht, -⟩ := (hcarries e he).1
  exact ⟨i, ht⟩

namespace Embedding

variable {s s' : Source} {m : Embedding s s'}

/-- In a source with no other tokens all code tokens correspond to one. -/
theorem Full.owns (h : m.Full) {i : Nat} {t' : Token} (ht' : s'.At i t') : m.owns t' = true := by
  have := (Array.getElem?_eq_some_iff.1 ht').1
  have := h.2
  rw [owns_eq ht', h.1]
  simp
  omega

theorem carries_put {e e' : Entry} (he : m.Carries e e') {es es' : List Entry}
    (hes : List.Forall₂ m.Carries es es') :
    List.Forall₂ m.Carries (Registry.put e es) (Registry.put e' es') := by
  induction hes with
  | nil => exact .cons he .nil
  | @cons d d' es es' hd hes ih =>
    have hiff := hd.1.eq_iff he.1
    rw [Registry.put, Registry.put]
    by_cases htoken : d.token = e.token
    · rw [if_pos htoken, if_pos (hiff.2 htoken)]
      exact .cons he hes
    · rw [if_neg htoken, if_neg (mt hiff.1 htoken)]
      exact .cons hd ih

theorem carries_record {es es' : List Entry} (hes : List.Forall₂ m.Carries es es')
    {r r' : Registry} (h : List.Forall₂ m.Carries r.records r'.records) :
    List.Forall₂ m.Carries (r.record es).records (r'.record es').records := by
  induction hes generalizing r r' with
  | nil => exact h
  | cons he _ ih => exact ih (carries_put he h)

variable {caseLevels : Int} {a a' : Analysis}

theorem records_ignore (r : Registry) (o p : Option Token) : (r.ignore o p).records = r.records := by
  cases o <;> cases p <;> rfl

/-- One visit in a source and in one with no other tokens. -/
theorem carries_visit (hfull : m.Full) {place place' : Node.Placed}
    (hplace : m.Alike caseLevels place place') (hmem : place' ∈ s'.root.visited [])
    (hok : (a.visit s caseLevels place).fault = none)
    (h : List.Forall₂ m.Carries a.registry.records a'.registry.records) :
    List.Forall₂ m.Carries (a.visit s caseLevels place).registry.records
      (a'.visit s' caseLevels place').registry.records := by
  have hvisit := hplace.visit
  rw [Analysis.visit] at hok ⊢
  rw [Analysis.visit]
  cases hdraft : Rule.visit? s caseLevels place with
  | none =>
    cases hdraft' : Rule.visit? s' caseLevels place' with
    | some d' => rw [hdraft, hdraft'] at hvisit; cases hvisit
    | none =>
      dsimp only
      rwa [records_ignore, records_ignore]
  | some d =>
    rw [hdraft] at hvisit hok
    cases hdraft' : Rule.visit? s' caseLevels place' with
    | none => rw [hdraft'] at hvisit; cases hvisit
    | some d' =>
      rw [hdraft'] at hvisit
      cases hvisit with
      | some hd =>
        cases hresult : d.result with
        | error f =>
          simp only [hresult] at hok
          cases hok
        | ok u =>
          have hcarries := (hd.ok u hresult).1
          have hall : d'.writes.filter (m.owns ·.token) = d'.writes := by
            refine List.filter_eq_self.2 fun e he => ?_
            obtain ⟨i, hi⟩ := Source.exists_at_of_writes hmem hdraft' he
            exact hfull.owns hi
          rw [CarriesAll, hall] at hcarries
          exact carries_record hcarries h

/-- Two walks, the one in a source with no other tokens. -/
theorem carries_visitAll (hfull : m.Full) {places places' : List Node.Placed}
    (hplaces : List.Forall₂ (m.Alike caseLevels) places places')
    (hmem : ∀ place' ∈ places', place' ∈ s'.root.visited [])
    (hok : (a.visitAll s caseLevels places).fault = none)
    (hok' : (a'.visitAll s' caseLevels places').fault = none)
    (h : List.Forall₂ m.Carries a.registry.records a'.registry.records) :
    List.Forall₂ m.Carries (a.visitAll s caseLevels places).registry.records
      (a'.visitAll s' caseLevels places').registry.records := by
  induction hplaces generalizing a a' with
  | nil => exact h
  | @cons place place' places places' hplace hplaces ih =>
    rw [Analysis.visitAll] at hok hok' ⊢
    rw [Analysis.visitAll]
    have hvisit : (a.visit s caseLevels place).fault = none := by
      cases hvisit : (a.visit s caseLevels place).fault with
      | none => rfl
      | some f => simp [hvisit] at hok
    have hvisit' : (a'.visit s' caseLevels place').fault = none := by
      cases hvisit' : (a'.visit s' caseLevels place').fault with
      | none => rfl
      | some f => simp [hvisit'] at hok'
    simp only [hvisit, hvisit', Option.isSome_none, Bool.false_eq_true, if_false] at hok hok' ⊢
    have hstep := carries_visit hfull hplace (hmem place' List.mem_cons_self) hvisit h
    exact ih (fun p hp => hmem p (List.mem_cons_of_mem place' hp)) hok hok' hstep

/-- Walks record the same of the same tokens in a source with no other tokens. -/
theorem relations_eq (hfull : m.Full) {r r' : Registry}
    (h : List.Forall₂ m.Carries r.records r'.records) : r'.relations = r.relations := by
  rw [Registry.relations, Registry.relations]
  have hindex : ∀ {t t' : Token}, m.Pairs t t' → t'.index = t.index := by
    rintro t t' ⟨i, ht, ht'⟩
    rw [Source.index_of_getElem? ht, Source.index_of_getElem? ht', hfull.1, Nat.zero_add]
  generalize r.records = es, r'.records = es' at h
  induction h with
  | nil => rfl
  | @cons e e' _ _ he _ ih =>
    have hbase : e'.base.map (·.index) = e.base.map (·.index) := by
      have hrel := he.2.1
      generalize e.base = b, e'.base = b' at hrel
      cases hrel with
      | none => rfl
      | some hpairs => exact congrArg some (hindex hpairs)
    rw [List.map_cons, List.map_cons, ih, hindex he.1, hbase, he.2.2]

end Embedding

end ScriptIndent
