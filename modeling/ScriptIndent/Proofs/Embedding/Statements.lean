import ScriptIndent.Proofs.Embedding.Surround
import ScriptIndent.Proofs.Rule.Standing

/-!
# ScriptIndent.Proofs.Embedding.Statements

Statements of a source in a source around it.

1. Programs place statements that are found alike (`Embedding.carriesAll_starts`).
2. Loops and class fields of a grammatical tree have what the walks over them ask for
   (`Embedding.shaped_of_visited`).
3. A walk over a statement that stands apart from the smaller source leaves the registries
   in agreement (`Embedding.visitAll_outside`).
-/

namespace ScriptIndent

namespace Embedding

variable {s s' : Source} {m : Embedding s s'} {caseLevels : Int}

/-! ## statements that are found -/

/-- Statements at the levels of the scripts around them. -/
theorem carriesAll_starts {ts ts' : List Token} (h : m.PairsOwned ts ts') :
    m.CarriesAll (ts.map (Rule.startOf s)) (ts'.map (Rule.startOf s')) := by
  have hfilter : (ts'.map (Rule.startOf s')).filter (m.owns ·.token) =
      (ts'.filter m.owns).map (Rule.startOf s') := by
    rw [List.filter_map]
    rfl
  rw [CarriesAll, hfilter]
  rw [PairsOwned] at h
  generalize ts'.filter m.owns = us at h
  induction h with
  | nil => exact .nil
  | cons ht _ ih => exact .cons ⟨ht, .none, ht.baseLevel_eq⟩ ih

/-- In a grammatical tree whose class fields stand in class bodies, loops over
collections have their shape and class fields are followed by a token. -/
theorem shaped_of_visited (g : s.root.Grammatical s.buffer)
    (hkind : s.root.kind ≠ "field_definition") (hfields : s.root.FieldsInBodies)
    {place : Node.Placed} (hplace : place ∈ s.root.visited []) :
    (Construct.ofKind? place.node.kind = some .forInLoop → m.Shaped place.node) ∧
      m.FieldsEnd place.node := by
  constructor
  · intro hrule
    obtain ⟨i, j, hstands⟩ := (Source.found_of_visited g hplace).exists_stands hrule (by decide)
    exact .inr ⟨i, j, hstands, Node.isCompound_of_ofKind? hrule (by decide) (by decide),
      Source.shape_of_visited g hplace hrule⟩
  · intro hfield
    obtain ⟨i, j, hstands, hij, hj⟩ := Rule.field_reach g (fun _ h => h) (Source.stands_root g)
      hkind hfields hplace hfield
    refine .inr ?_
    rw [(hstands.ends hij).after?_eq, Array.getElem?_eq_getElem hj]
    rfl

/-! ## statements that are not found -/

variable {R : Entry → Entry → Prop}

/-- A visit that places tokens outside the smaller source. -/
theorem visit_outside {place : Node.Placed} {draft : Draft Unit}
    (hdraft : Rule.visit? s' caseLevels place = some draft)
    (hmeets : draft.Meets (fun e => m.owns e.token = false) fun _ => True) {r : Registry}
    {c : Analysis} (hregistry : m.Registers R r c.registry) :
    (c.visit s' caseLevels place).fault = none ∧
      m.Registers R r (c.visit s' caseLevels place).registry := by
  obtain ⟨hwrites, _, hresult, -⟩ := hmeets
  simp only [Analysis.visit, hdraft, hresult]
  exact ⟨trivial, hregistry.record_outside hwrites⟩

variable (caseLevels)

/-- A walk over a node that stands apart from the smaller source. -/
theorem visitAll_outside (g : s'.root.Grammatical s'.buffer) {n : Node} {ancestors : List Node}
    {a b : Nat} (hn : s'.StandsApart n a b)
    (hvisited : ∀ p ∈ n.visited ancestors, p ∈ s'.root.visited [])
    (houtside : b ≤ m.skip ∨ m.skip + s.tokens.size ≤ a) {r : Registry} {c : Analysis}
    (hfault : c.fault = none) (hregistry : m.Registers R r c.registry) :
    (c.visitAll s' caseLevels (n.visited ancestors)).fault = none ∧
      m.Registers R r (c.visitAll s' caseLevels (n.visited ancestors)).registry := by
  refine Analysis.visitAll_reach g hn hvisited caseLevels (P := m.Registers R r) ?_ ?_ hfault
    hregistry
  · intro r' e l k hregistry _ hal hlb hl _
    exact hregistry.insert_outside (owns_eq_false hl (by omega))
  · intro r' i j t u hregistry hai hjb ht hu
    refine ⟨hregistry.entry, fun {v v'} hv => ?_⟩
    have hrest := hregistry.isIgnored hv
    obtain ⟨k, hk, hk'⟩ := hv
    have hsize := (Array.getElem?_eq_some_iff.1 hk).1
    have hspan : (decide (t.start ≤ v'.start) && decide (v'.start < u.stop)) = false := by
      rw [Bool.and_eq_false_iff, decide_eq_false_iff_not, decide_eq_false_iff_not]
      have hproper := hn.stands.ordered.proper hk'
      rcases houtside with hle | hle
      · have := hn.stands.ordered.disjoint (show j < m.skip + k by omega) hu hk'
        exact .inr (by lia)
      · have := hn.stands.ordered.disjoint (show m.skip + k < i by omega) hk' ht
        exact .inl (by lia)
    rw [Registry.isIgnored] at hrest ⊢
    simp only [Registry.ignore, List.any_append, List.any_cons, List.any_nil, hspan, hrest,
      Bool.or_false]

/-- A walk over nodes that stand apart from the smaller source. -/
theorem visitAll_outside_all (g : s'.root.Grammatical s'.buffer) {ns ancestors : List Node}
    (hns : ∀ n ∈ ns, (∀ p ∈ n.visited ancestors, p ∈ s'.root.visited []) ∧
      ∃ a b, s'.StandsApart n a b ∧ (b ≤ m.skip ∨ m.skip + s.tokens.size ≤ a))
    {r : Registry} {c : Analysis} (hfault : c.fault = none) (hregistry : m.Registers R r c.registry) :
    (c.visitAll s' caseLevels (ns.flatMap (Node.visited ancestors))).fault = none ∧
      m.Registers R r (c.visitAll s' caseLevels (ns.flatMap (Node.visited ancestors))).registry := by
  induction ns generalizing c with
  | nil => exact ⟨hfault, hregistry⟩
  | cons n ns ih =>
    obtain ⟨hvisited, a, b, hn, houtside⟩ := hns n List.mem_cons_self
    obtain ⟨hfault, hregistry⟩ := visitAll_outside caseLevels g hn hvisited houtside hfault
      hregistry
    rw [List.flatMap_cons, Analysis.visitAll_append hfault]
    exact ih (fun k hk => hns k (List.mem_cons_of_mem n hk)) hfault hregistry

end Embedding

end ScriptIndent
