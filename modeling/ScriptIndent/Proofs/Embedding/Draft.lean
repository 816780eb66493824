import ScriptIndent.Proofs.Embedding.Query
import ScriptIndent.Rule.Visit

/-!
# ScriptIndent.Proofs.Embedding.Draft

What a rule drafts in a source and in a source around it.

An entry *carries over* to another if their tokens and bases correspond and they
have the same levels.  A draft *follows* another if, whenever that one goes
through, it does so too and its entries for tokens of the smaller source are
those carried over, in the same order (`Embedding.Follows`).  Under an exact
embedding it also stops where the other one does, and with the same fault.
-/

namespace ScriptIndent

namespace Embedding

open Draft

variable {s s' : Source} {m : Embedding s s'} {n : Node}

/-! ## parts of nodes -/

/-- The move keeps what the rules ask of a node's children. -/
theorem mirrors (m : Embedding s s') : Node.Mirrors m.move :=
  ⟨m.move_kind, m.move_isNamed, m.move_fields, m.move_children⟩

theorem move_isComment (n : Node) : (m.move n).isComment = n.isComment := m.mirrors.isComment n

theorem field?_move (n : Node) (name : String) :
    (m.move n).field? name = (n.field? name).map m.move := m.mirrors.field? n name

theorem childOfKind?_move (n : Node) {kind : String} (hkind : Node.isCommentKind kind = false) :
    (m.move n).childOfKind? kind = (n.childOfKind? kind).map m.move :=
  m.mirrors.childOfKind? n hkind

theorem keyword?_move (n : Node) (value : String) :
    (m.move n).keyword? value = (n.keyword? value).map m.move := m.mirrors.keyword? n value

theorem codeChildren_move (n : Node) :
    (m.move n).codeChildren = n.codeChildren.map m.move := m.mirrors.codeChildren n

theorem domain_field? (hn : m.Domain n) {name : String} {c : Node} (h : n.field? name = some c) :
    m.Domain c := m.domain_child hn (List.mem_of_find?_eq_some h)

theorem domain_childOfKind? (hn : m.Domain n) {kind : String} {c : Node}
    (h : n.childOfKind? kind = some c) : m.Domain c :=
  m.domain_child hn (List.mem_of_find?_eq_some h)

theorem domain_keyword? (hn : m.Domain n) {value : String} {c : Node}
    (h : n.keyword? value = some c) : m.Domain c :=
  m.domain_child hn (List.mem_of_find?_eq_some h)

theorem domain_codeChildren (hn : m.Domain n) : ∀ c ∈ n.codeChildren, m.Domain c :=
  fun _ hc => m.domain_child hn (Node.mem_codeChildren.1 hc).1

/-- A test on moved nodes that says the same of the nodes. -/
theorem filter_move {items : List Node} {p p' : Node → Bool}
    (h : ∀ c ∈ items, p' (m.move c) = p c) :
    (items.map m.move).filter p' = (items.filter p).map m.move := by
  rw [List.filter_map]
  congr 1
  exact List.filter_congr h

/-! ## entries -/

/-- Tokens of the smaller source that correspond one by one, among others. -/
def PairsOwned (m : Embedding s s') (ts ts' : List Token) : Prop :=
  m.PairsAll ts (ts'.filter m.owns)

theorem PairsAll.owned {ts ts' : List Token} (h : m.PairsAll ts ts') : m.PairsOwned ts ts' := by
  have hall : ∀ t' ∈ ts', m.owns t' = true := by
    intro t' ht'
    obtain ⟨i, hi, rfl⟩ := List.getElem_of_mem ht'
    have hpairs := h.get (h.length_eq ▸ hi) hi
    exact hpairs.owns
  rwa [PairsOwned, List.filter_eq_self.2 hall]

theorem PairsOwned.append {ts ts' us us' : List Token} (ht : m.PairsOwned ts ts')
    (hu : m.PairsOwned us us') : m.PairsOwned (ts ++ us) (ts' ++ us') := by
  rw [PairsOwned, List.filter_append]
  exact List.rel_append ht hu

theorem Pairs.owned {t t' : Token} (h : m.Pairs t t') : m.PairsOwned [t] [t'] :=
  PairsAll.owned (.cons h .nil)

theorem PairsOwned.cons {t t' : Token} {ts ts' : List Token} (h : m.Pairs t t')
    (hts : m.PairsOwned ts ts') : m.PairsOwned (t :: ts) (t' :: ts') := h.owned.append hts

theorem Answers.owned {o o' : Option Token} (h : m.Answers o o') :
    m.PairsOwned o.toList o'.toList := by
  cases h with
  | some h => exact h.owned
  | none => exact .nil
  | outside h =>
    rw [PairsOwned, Option.toList_some, List.filter_singleton, h]
    exact .nil

/-- Two entries say the same of corresponding tokens. -/
def Carries (m : Embedding s s') (e e' : Entry) : Prop :=
  m.Pairs e.token e'.token ∧ Option.Rel m.Pairs e.base e'.base ∧ e'.levels = e.levels

/-- Entries for tokens of the smaller source that carry over one by one, among
others. -/
def CarriesAll (m : Embedding s s') (es es' : List Entry) : Prop :=
  List.Forall₂ m.Carries es (es'.filter (m.owns ·.token))

theorem CarriesAll.append {ds ds' es es' : List Entry} (hd : m.CarriesAll ds ds')
    (he : m.CarriesAll es es') : m.CarriesAll (ds ++ es) (ds' ++ es') := by
  rw [CarriesAll, List.filter_append]
  exact List.rel_append hd he

theorem carriesAll_offsets {ts ts' : List Token} (h : m.PairsOwned ts ts') (levels : Int)
    {base base' : Token} (hbase : m.Pairs base base') :
    m.CarriesAll (Entry.offsets ts levels (some base)) (Entry.offsets ts' levels (some base')) := by
  have hfilter : (Entry.offsets ts' levels (some base')).filter (m.owns ·.token) =
      Entry.offsets (ts'.filter m.owns) levels (some base') := by
    simp only [Entry.offsets, List.filter_map, List.filter_filter, Function.comp_def]
    congr 2
    funext t
    exact Bool.and_comm _ _
  rw [CarriesAll, hfilter]
  rw [PairsOwned] at h
  generalize ts'.filter m.owns = us at h
  induction h with
  | nil => exact .nil
  | @cons t t' us us' hpairs _ ih =>
    have hiff := hpairs.eq_iff hbase
    by_cases heq : t = base
    · simpa only [Entry.offsets, List.filter_cons, ne_eq, heq, hiff.2 heq, not_true_eq_false,
        decide_false, Bool.false_eq_true, if_false] using ih
    · simp only [Entry.offsets, List.filter_cons, ne_eq, heq, mt hiff.1 heq, not_false_eq_true,
        decide_true, if_true, List.map_cons]
      exact .cons ⟨hpairs, .some hbase, rfl⟩ ih

/-- Entries relative to a token that may be missing. -/
theorem carriesAll_offsets_of_rel {ts ts' : List Token} (h : m.PairsOwned ts ts') (levels : Int)
    {base base' : Option Token} (hbase : Option.Rel m.Pairs base base') :
    m.CarriesAll (Entry.offsets ts levels base) (Entry.offsets ts' levels base') := by
  cases hbase with
  | none => exact .nil
  | some hbase => exact carriesAll_offsets h levels hbase

/-! ## drafts -/

variable {α β γ δ : Type}

/-- If one draft goes through, so does the other, their answers meet a condition,
and the entries of the one carry over. -/
structure Follows (m : Embedding s s') (Q : α → β → Prop) (d : Draft α) (d' : Draft β) :
    Prop where
  ok : ∀ a, d.result = .ok a →
    m.CarriesAll d.writes d'.writes ∧ ∃ b, d'.result = .ok b ∧ Q a b
  error : m.Exact → ∀ f, d.result = .error f →
    m.CarriesAll d.writes d'.writes ∧ d'.result = .error f

/-- No condition on the answers. -/
abbrev FollowsUnit (m : Embedding s s') (d d' : Draft Unit) : Prop :=
  m.Follows (fun _ _ => True) d d'

theorem follows_pure {Q : α → β → Prop} {a : α} {b : β} (h : Q a b) :
    m.Follows Q (pure a) (pure b) where
  ok a' ha' := by
    obtain rfl := Except.ok.inj ha'
    exact ⟨.nil, b, rfl, h⟩
  error _ _ hf := by cases hf

/-- Go on with the answers of two drafts, which went through. -/
theorem Follows.bind_ok {P : α → β → Prop} {Q : γ → δ → Prop} {d : Draft α} {d' : Draft β}
    {f : α → Draft γ} {f' : β → Draft δ} (h : m.Follows P d d')
    (hf : ∀ a b, d.result = .ok a → P a b → m.Follows Q (f a) (f' b)) :
    m.Follows Q (d >>= f) (d' >>= f') := by
  cases hd : d.result with
  | error e =>
    rw [bind_of_error hd]
    refine ⟨fun _ hok => (nomatch hok), fun hexact g hg => ?_⟩
    obtain rfl := Except.error.inj hg
    obtain ⟨hwrites, hd'⟩ := h.error hexact e hd
    rw [bind_of_error hd']
    exact ⟨hwrites, rfl⟩
  | ok a =>
    obtain ⟨hwrites, b, hd', hP⟩ := h.ok a hd
    rw [bind_of_ok hd, bind_of_ok hd']
    constructor
    · intro c hc
      obtain ⟨hmore, hrest⟩ := (hf a b hd hP).ok c hc
      exact ⟨hwrites.append hmore, hrest⟩
    · intro hexact g hg
      obtain ⟨hmore, hrest⟩ := (hf a b hd hP).error hexact g hg
      exact ⟨hwrites.append hmore, hrest⟩

/-- Go on with the answers of two drafts. -/
theorem Follows.bind {P : α → β → Prop} {Q : γ → δ → Prop} {d : Draft α} {d' : Draft β}
    {f : α → Draft γ} {f' : β → Draft δ} (h : m.Follows P d d')
    (hf : ∀ a b, P a b → m.Follows Q (f a) (f' b)) : m.Follows Q (d >>= f) (d' >>= f') :=
  h.bind_ok fun a b _ => hf a b

/-- Go on after drafts without an answer. -/
theorem Follows.next {Q : γ → δ → Prop} {d d' : Draft Unit} {f : Unit → Draft γ}
    {f' : Unit → Draft δ} (h : m.FollowsUnit d d') (hf : m.Follows Q (f ()) (f' ())) :
    m.Follows Q (d >>= f) (d' >>= f') :=
  h.bind fun _ _ _ => hf

theorem follows_fail {Q : α → β → Prop} {e e' : Fault} (h : m.Exact → e' = e) :
    m.Follows Q (fail e) (fail e') where
  ok _ hok := by cases hok
  error hexact f hf := by
    obtain rfl := Except.error.inj hf
    exact ⟨.nil, congrArg Except.error (h hexact)⟩

theorem follows_write {es es' : List Entry} (h : m.CarriesAll es es') :
    m.FollowsUnit (write es) (write es') where
  ok _ _ := ⟨h, (), rfl, trivial⟩
  error _ _ hf := by cases hf

theorem follows_each {R : α → β → Prop} {f : α → Draft Unit} {f' : β → Draft Unit}
    {as : List α} {bs : List β} (h : List.Forall₂ R as bs)
    (hf : ∀ a b, R a b → m.FollowsUnit (f a) (f' b)) :
    m.FollowsUnit (each f as) (each f' bs) := by
  induction h with
  | nil => exact follows_pure trivial
  | cons hab _ ih => exact (hf _ _ hab).next ih

/-! ## parts and tokens -/

/-- A node and where it is found. -/
def Moves (m : Embedding s s') (c c' : Node) : Prop := m.Domain c ∧ c' = m.move c

theorem rel_moves {items : List Node} (h : ∀ c ∈ items, m.Domain c) :
    List.Forall₂ m.Moves items (items.map m.move) := by
  induction items with
  | nil => exact .nil
  | cons c rest ih =>
    exact .cons ⟨h c List.mem_cons_self, rfl⟩ (ih fun d hd => h d (List.mem_cons_of_mem c hd))

/-- Go on with a part of a node and the part that it is moved to. -/
theorem follows_part {asked : Aspect} {p : Option Node} (hp : ∀ c, p = some c → m.Domain c) :
    m.Follows m.Moves (part asked p)
      (part asked (p.map m.move)) := by
  cases p with
  | none => exact follows_fail fun _ => rfl
  | some c => exact follows_pure ⟨hp c rfl, rfl⟩

theorem follows_field {asked : Aspect} (hn : m.Domain n) (name : String) :
    m.Follows m.Moves (part asked (n.field? name))
      (part asked ((m.move n).field? name)) := by
  rw [field?_move]
  exact follows_part fun c hc => domain_field? hn hc

theorem follows_require (hn : m.Domain n) (description : String) {o o' : Option Token}
    (h : m.Answers o o') :
    m.Follows m.Pairs (require s n description o) (require s' (m.move n) description o') := by
  have hfault : m.Exact → Fault.tokenNotFound description (m.move n).kind
      (s'.lineOfNode (m.move n)) = .tokenNotFound description n.kind (s.lineOfNode n) := by
    intro hexact
    rw [m.move_kind, m.lineOfNode hn hexact.2]
  cases h with
  | some hpairs => exact follows_pure hpairs
  | none => exact follows_fail hfault
  | outside _ hfull => exact ⟨fun _ hok => (nomatch hok), fun h => absurd h.1 hfull⟩

theorem of_require {description : String} {o : Option Token} {t : Token}
    (h : (require s n description o).result = .ok t) : o = some t := by
  cases o with
  | none => cases h
  | some u => rw [Except.ok.inj h]

theorem Answers.of_rel {o o' : Option Token} (h : Option.Rel m.Pairs o o') : m.Answers o o' := by
  cases h with
  | none => exact .none
  | some h => exact .some h

/-- What is found in the smaller source corresponds. -/
theorem Answers.rel {o o' : Option Token} (h : m.Answers o o')
    (ho : m.Full ∨ o ≠ Option.none) :
    Option.Rel m.Pairs o o' := by
  cases h with
  | some h => exact .some h
  | none => exact .none
  | outside _ hfull => exact absurd rfl (ho.resolve_left hfull)

theorem follows_first (hn : m.Domain n) :
    m.Follows m.Pairs (first s n) (first s' (m.move n)) :=
  follows_require hn _ (.of_rel (rel_firstOfNode? hn))

theorem follows_last (hn : m.Domain n) :
    m.Follows m.Pairs (last s n) (last s' (m.move n)) :=
  follows_require hn _ (.of_rel (rel_lastOfNode? hn respects_isAny))

theorem follows_firstOf (hn : m.Domain n) (name : String) :
    m.Follows m.Pairs (firstOf s (n.field? name)) (firstOf s' ((m.move n).field? name)) :=
  (follows_field hn name).bind fun _ _ ⟨hc, heq⟩ => heq ▸ follows_first hc

theorem follows_keyword? (hn : m.Domain n) (value : String) :
    m.Follows (Option.Rel m.Pairs) (keyword? s n value) (keyword? s' (m.move n) value) := by
  rw [keyword?, keyword?, keyword?_move]
  cases hc : n.keyword? value with
  | none => exact follows_pure .none
  | some c =>
    exact (follows_first (domain_keyword? hn hc)).bind fun _ _ ht => follows_pure (.some ht)

/-! ## entries of lists -/

variable {base base' : Token} {levels : Int}

theorem follows_offsets {ts ts' : List Token} (h : m.PairsOwned ts ts')
    (hbase : m.Pairs base base') :
    m.FollowsUnit (offsets ts levels base) (offsets ts' levels base') :=
  follows_write (carriesAll_offsets h levels hbase)

theorem follows_offset {t t' : Token} (h : m.Pairs t t') (hbase : m.Pairs base base') :
    m.FollowsUnit (offset t levels base) (offset t' levels base') :=
  follows_offsets h.owned hbase

/-- The first tokens of nodes. -/
theorem rel_firsts_of_nodes {items : List Node} (h : ∀ c ∈ items, m.Domain c) :
    m.PairsAll ((items.map Anchor.node).filterMap s.first?)
      (((items.map m.move).map Anchor.node).filterMap s'.first?) := by
  induction items with
  | nil => exact .nil
  | cons c rest ih =>
    have hrest := ih fun d hd => h d (List.mem_cons_of_mem c hd)
    simp only [List.map_cons, List.filterMap_cons]
    rcases rel_cases (rel_first? (.node (h c List.mem_cons_self))) with
      ⟨ho, ho'⟩ | ⟨i, t, t', ho, ho', ht, ht'⟩
    · rw [ho, ho']
      exact hrest
    · rw [ho, ho']
      exact .cons ⟨i, ht, ht'⟩ hrest

theorem follows_elements {items : List Node} (h : ∀ c ∈ items, m.Domain c)
    (hbase : m.Pairs base base') {right right' : Option Token} (hright : m.Answers right right') :
    m.FollowsUnit (elements s items base right levels)
      (elements s' (items.map m.move) base' right' levels) :=
  follows_write ((carriesAll_offsets (rel_firsts_of_nodes h).owned levels hbase).append
    (carriesAll_offsets hright.owned 0 hbase))

end Embedding

end ScriptIndent
