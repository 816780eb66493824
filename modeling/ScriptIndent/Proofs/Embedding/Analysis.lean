import ScriptIndent.Proofs.Embedding.Visit
import ScriptIndent.Proofs.Offset.Acyclic

/-!
# ScriptIndent.Proofs.Embedding.Analysis

Walks in a source and in a source around it.

Two registries agree if corresponding tokens have entries of a certain relation, and
are judged or not (`Embedding.Registers`).  Entries that carry over keep registries in agreement,
and so do entries for tokens outside the smaller source (`Registers.record`); so
two walks over places that are alike do (`visitAll_registers`).
-/

namespace ScriptIndent.Embedding

variable {s s' : Source} {m : Embedding s s'} {R : Entry → Entry → Prop}

/-! ## registries -/

/-- Corresponding tokens have entries in a relation, and are judged or not. -/
structure Registers (m : Embedding s s') (R : Entry → Entry → Prop) (r r' : Registry) : Prop where
  entry {t t' : Token} : m.Pairs t t' → Option.Rel R (r.get? t) (r'.get? t')
  isIgnored {t t' : Token} : m.Pairs t t' → r'.isIgnored t' = r.isIgnored t

namespace Registers

variable {r r' : Registry}

theorem get?_eq_none (h : m.Registers R r r') {t t' : Token} (ht : m.Pairs t t')
    (hget : r.get? t = none) : r'.get? t' = none := by
  have hentry := h.entry ht
  rw [hget] at hentry
  cases hget' : r'.get? t' with
  | none => rfl
  | some e' => rw [hget'] at hentry; cases hentry

theorem exists_get? (h : m.Registers R r r') {t t' : Token} (ht : m.Pairs t t') {e : Entry}
    (hget : r.get? t = some e) : ∃ e', r'.get? t' = some e' ∧ R e e' := by
  have hentry := h.entry ht
  rw [hget] at hentry
  cases hget' : r'.get? t' with
  | none => rw [hget'] at hentry; cases hentry
  | some e' =>
    rw [hget'] at hentry
    cases hentry with
    | some he => exact ⟨e', rfl, he⟩

theorem insert (h : m.Registers R r r') {e e' : Entry} (he : R e e')
    (hpairs : m.Pairs e.token e'.token) : m.Registers R (r.insert e) (r'.insert e') where
  entry {t t'} ht := by
    have hiff := hpairs.eq_iff ht
    by_cases heq : e.token = t
    · obtain rfl := heq
      obtain rfl := hiff.2 rfl
      rw [Registry.get?_insert_self, Registry.get?_insert_self]
      exact .some he
    · rw [Registry.get?_insert_of_ne heq, Registry.get?_insert_of_ne (mt hiff.1 heq)]
      exact h.entry ht
  isIgnored := h.isIgnored

/-- An entry for a token outside the smaller source. -/
theorem insert_outside (h : m.Registers R r r') {e' : Entry} (he : m.owns e'.token = false) :
    m.Registers R r (r'.insert e') where
  entry {t t'} ht := by
    have hne : e'.token ≠ t' := by
      rintro rfl
      rw [ht.owns] at he
      cases he
    rw [Registry.get?_insert_of_ne hne]
    exact h.entry ht
  isIgnored := h.isIgnored

/-- Record entries that are related one by one, among others. -/
theorem record (h : m.Registers R r r') {es es' : List Entry}
    (hes : List.Forall₂ (fun e e' => R e e' ∧ m.Pairs e.token e'.token) es
      (es'.filter (m.owns ·.token))) :
    m.Registers R (r.record es) (r'.record es') := by
  induction es' generalizing es r r' with
  | nil =>
    cases hes
    exact h
  | cons e' rest ih =>
    rw [List.filter_cons] at hes
    split at hes
    · cases hes with
      | cons he hrest => exact ih (h.insert he.1 he.2) hrest
    · next howns => exact ih (h.insert_outside (Bool.eq_false_iff.2 howns)) hes

/-- Record entries for tokens outside the smaller source. -/
theorem record_outside (h : m.Registers R r r') {es' : List Entry}
    (hes : ∀ e' ∈ es', m.owns e'.token = false) : m.Registers R r (r'.record es') := by
  have hnone : es'.filter (m.owns ·.token) = [] :=
    List.filter_eq_nil_iff.2 fun e' he' => by simp [hes e' he']
  have hrelated : List.Forall₂ (fun e e' => R e e' ∧ m.Pairs e.token e'.token) []
      (es'.filter (m.owns ·.token)) := by
    rw [hnone]
    exact .nil
  exact h.record hrelated

/-- Record entries that carry over. -/
theorem record_carries (h : m.Registers R r r') {es es' : List Entry} (hes : m.CarriesAll es es')
    (hR : ∀ e ∈ es, ∀ e', m.Carries e e' → R e e') :
    m.Registers R (r.record es) (r'.record es') := by
  refine h.record ?_
  rw [CarriesAll] at hes
  generalize es'.filter (m.owns ·.token) = ds at hes
  induction hes with
  | nil => exact .nil
  | cons he _ ih =>
    exact .cons ⟨hR _ List.mem_cons_self _ he, he.1⟩
      (ih fun e hmem => hR e (List.mem_cons_of_mem _ hmem))

/-- Ranges that reach from and to corresponding tokens are not judged any more. -/
theorem ignore (h : m.Registers R r r') {o o' p p' : Option Token}
    (ho : Option.Rel m.Pairs o o') (hp : Option.Rel m.Pairs p p') :
    m.Registers R (r.ignore o p) (r'.ignore o' p') := by
  cases ho with
  | none => exact h
  | @some u u' hu =>
    cases hp with
    | none => exact h
    | @some v v' hv =>
      refine ⟨h.entry, fun {t t'} ht => ?_⟩
      have hrest := h.isIgnored ht
      obtain ⟨i, hu, hu'⟩ := hu
      obtain ⟨j, hv, hv'⟩ := hv
      obtain ⟨k, ht, ht'⟩ := ht
      have hle := (m.token_order hu hu' ht ht').1
      have hlt := (m.token_order hv hv' ht ht').2
      rw [Registry.isIgnored, Registry.isIgnored] at hrest ⊢
      simp only [Registry.ignore, List.any_append, List.any_cons, List.any_nil, hle, hlt, hrest]

end Registers

/-! ## walks -/

section Walks

variable {caseLevels : Int} {a a' : Analysis}

/-- What is drafted at one place follows what is drafted at another; if nothing is, the
nodes there begin and end with corresponding tokens. -/
structure Alike (m : Embedding s s') (caseLevels : Int) (place place' : Node.Placed) : Prop where
  visit : Option.Rel m.FollowsUnit (Rule.visit? s caseLevels place)
    (Rule.visit? s' caseLevels place')
  ends : Rule.visit? s caseLevels place = none →
    Option.Rel m.Pairs (s.first? place.node) (s'.first? place'.node) ∧
      Option.Rel m.Pairs (s.last? place.node) (s'.last? place'.node)

theorem PlaceMoves.alike {rest rest' : List Node} (hrest : Barrier rest) (hrest' : Barrier rest')
    {place place' : Node.Placed} (h : m.PlaceMoves rest rest' place place')
    (hshape : Construct.ofKind? place.node.kind = some .forInLoop → m.Shaped place.node)
    (hfield : m.FieldsEnd place.node) :
    m.Alike caseLevels place place' where
  visit := visit?_follows hrest hrest' h hshape hfield caseLevels
  ends _ := by
    obtain ⟨hn, -, -⟩ := h
    exact ⟨rel_first? (.node hn), rel_last? (.node hn)⟩

/-- The roots of two programs over the same statements. -/
theorem alike_program {n n' : Node} (hkind : n.kind = "program")
    (hkind' : n'.kind = "program") (hn : n'.codeChildren = n.codeChildren.map m.move)
    (hc : ∀ c ∈ n.codeChildren, m.Domain c) (above above' : List Node) :
    m.Alike caseLevels ⟨n, above⟩ ⟨n', above'⟩ := by
  have hrule : Construct.ofKind? "program" = some .program := by decide
  have hcommon : ∀ (s : Source) {n : Node}, n.kind = "program" → Rule.common s n = [] := by
    intro s n hkind
    rw [Rule.common, hkind]
    rfl
  constructor
  · simp only [Rule.visit?, hkind, hkind', hrule, Option.map_some, hcommon s hkind,
      hcommon s' hkind']
    exact .some ((program_follows hn hc).next (follows_write .nil))
  · simp [Rule.visit?, hkind, hrule]

/-- The visits to statements and to the moved statements are alike. -/
theorem alike_statements {rest rest' ns : List Node} (hrest : Barrier rest)
    (hrest' : Barrier rest') (hns : ∀ n ∈ ns, m.Domain n)
    (hplaces : ∀ n ∈ ns, ∀ place ∈ n.visited rest,
      (Construct.ofKind? place.node.kind = some .forInLoop → m.Shaped place.node) ∧
        m.FieldsEnd place.node) :
    List.Forall₂ (m.Alike caseLevels) (ns.flatMap (Node.visited rest))
      ((ns.map m.move).flatMap (Node.visited rest')) := by
  induction ns with
  | nil => exact .nil
  | cons n ns ih =>
    rw [List.map_cons, List.flatMap_cons, List.flatMap_cons]
    refine List.rel_append ?_ (ih (fun k hk => hns k (List.mem_cons_of_mem n hk))
      fun k hk => hplaces k (List.mem_cons_of_mem n hk))
    have hmoves : List.Forall₂ (m.PlaceMoves rest rest') (n.visited ([] ++ rest))
        ((m.move n).visited (([] : List Node).map m.move ++ rest')) :=
      visited_move (hns n List.mem_cons_self) (by simp) (.singleton n)
    rw [List.nil_append, List.map_nil, List.nil_append] at hmoves
    have hall := hplaces n List.mem_cons_self
    generalize n.visited rest = places at hmoves hall
    generalize (m.move n).visited rest' = places' at hmoves
    induction hmoves with
    | nil => exact .nil
    | @cons place place' _ _ hplace _ ih =>
      obtain ⟨hshape, hfield⟩ := hall place List.mem_cons_self
      exact .cons (hplace.alike hrest hrest' hshape hfield)
        (ih fun p hp => hall p (List.mem_cons_of_mem place hp))

/-- The visits to two programs over the same statements are alike, but for comments. -/
theorem alike_programs {n n' : Node} (hkind : n.kind = "program") (hkind' : n'.kind = "program")
    (hwoven : Node.Woven (n.children.map m.move) n'.children)
    (hdomain : ∀ c ∈ n.children, m.Domain c)
    (hplaces : ∀ place ∈ n.visited [],
      (Construct.ofKind? place.node.kind = some .forInLoop → m.Shaped place.node) ∧
        m.FieldsEnd place.node) :
    List.Forall₂ (m.Alike caseLevels) (n.visited []) (n'.visited []) := by
  have hplain : ∀ n : Node, n.kind = "program" → Barrier [n] := by
    rintro n hn a ⟨⟩
    rw [hn]
    decide
  have hvisited : ∀ n : Node, n.kind = "program" → n.visited [] =
      ⟨n, []⟩ :: (n.children.filter (·.isNamed)).flatMap (Node.visited [n]) := by
    intro n hn
    have hrule : Construct.ofKind? n.kind = some .program := by
      rw [hn]
      decide
    exact Node.visited_of_ofKind? hrule []
  rw [hvisited n hkind] at hplaces ⊢
  rw [hvisited n' hkind', visited_woven hwoven, filter_move fun c _ => m.move_isNamed c]
  refine .cons (alike_program hkind hkind' (m.mirrors.codeChildren_of_woven hwoven) ?_ _ _) ?_
  · exact fun c hc => hdomain c (Node.mem_codeChildren.1 hc).1
  · refine alike_statements (hplain n hkind) (hplain n' hkind')
      (fun c hc => hdomain c (List.mem_filter.1 hc).1) fun c hc place hplace => hplaces place ?_
    exact List.mem_cons_of_mem _ (List.mem_flatMap.2 ⟨c, hc, hplace⟩)

/-- One visit to places that are alike.  Unless the embedding is exact, the visit in
the smaller source must go through. -/
theorem visit_registers {place place' : Node.Placed} (hplace : m.Alike caseLevels place place')
    (hentry : ∀ draft, Rule.visit? s caseLevels place = some draft →
      ∀ e ∈ draft.writes, ∀ e', m.Carries e e' → R e e')
    (hfault : a.fault = none) (hfault' : a'.fault = none)
    (hregistry : m.Registers R a.registry a'.registry)
    (hok : m.Exact ∨ (a.visit s caseLevels place).fault = none) :
    m.Registers R (a.visit s caseLevels place).registry
        (a'.visit s' caseLevels place').registry ∧
      (a'.visit s' caseLevels place').fault = (a.visit s caseLevels place).fault := by
  obtain ⟨hvisit, hends⟩ := hplace
  rw [Analysis.visit] at hok ⊢
  rw [Analysis.visit]
  generalize Rule.visit? s caseLevels place = o at hvisit hends hentry hok ⊢
  generalize Rule.visit? s' caseLevels place' = o' at hvisit ⊢
  cases hvisit with
  | none =>
    obtain ⟨hfirst, hlast⟩ := hends rfl
    exact ⟨hregistry.ignore hfirst hlast, hfault'.trans hfault.symm⟩
  | @some d d' hd =>
    have hrecord : m.CarriesAll d.writes d'.writes →
        m.Registers R (a.registry.record d.writes) (a'.registry.record d'.writes) :=
      fun hcarries => hregistry.record_carries hcarries (hentry d rfl)
    cases hresult : d.result with
    | ok u =>
      obtain ⟨hcarries, _, hresult', -⟩ := hd.ok u hresult
      simp only [hresult, hresult']
      exact ⟨hrecord hcarries, trivial⟩
    | error e =>
      simp only [hresult] at hok
      obtain ⟨hcarries, hresult'⟩ := hd.error (hok.resolve_right (by simp)) e hresult
      simp only [hresult, hresult']
      exact ⟨hrecord hcarries, trivial⟩

/-- Two walks over places that are alike. -/
theorem visitAll_registers {places places' : List Node.Placed}
    (hplaces : List.Forall₂ (m.Alike caseLevels) places places')
    (hentry : ∀ place ∈ places, ∀ draft, Rule.visit? s caseLevels place = some draft →
      ∀ e ∈ draft.writes, ∀ e', m.Carries e e' → R e e')
    (hfault : a.fault = none) (hfault' : a'.fault = none)
    (hregistry : m.Registers R a.registry a'.registry)
    (hok : m.Exact ∨ (a.visitAll s caseLevels places).fault = none) :
    m.Registers R (a.visitAll s caseLevels places).registry
        (a'.visitAll s' caseLevels places').registry ∧
      (a'.visitAll s' caseLevels places').fault = (a.visitAll s caseLevels places).fault := by
  induction hplaces generalizing a a' with
  | nil => exact ⟨hregistry, hfault'.trans hfault.symm⟩
  | @cons place place' places places' hplace hplaces ih =>
    rw [Analysis.visitAll] at hok ⊢
    rw [Analysis.visitAll]
    have hstep := visit_registers hplace (hentry place List.mem_cons_self) hfault hfault' hregistry
    cases hvisit : (a.visit s caseLevels place).fault with
    | some e =>
      simp only [hvisit, Option.isSome_some, if_true] at hok ⊢
      obtain ⟨hregistry, hfault'⟩ := hstep (hok.imp_right fun h => by cases h)
      rw [hvisit] at hfault'
      simp only [hfault', Option.isSome_some, if_true]
      exact ⟨hregistry, trivial⟩
    | none =>
      simp only [hvisit, Option.isSome_none, Bool.false_eq_true, if_false] at hok ⊢
      obtain ⟨hregistry, hfault'⟩ := hstep (.inr hvisit)
      rw [hvisit] at hfault'
      simp only [hfault', Option.isSome_none, Bool.false_eq_true, if_false]
      exact ih (fun p hp => hentry p (List.mem_cons_of_mem place hp)) hvisit hfault' hregistry hok

end Walks

end ScriptIndent.Embedding
