import ScriptIndent.Proofs.Account.Basic
import ScriptIndent.Proofs.Rule.Frame
import ScriptIndent.Proofs.Rule.Semicolons

/-!
# ScriptIndent.Proofs.Account.Kept

Drafts that are kept: they go through, and whatever they place has an entry in the end.

```
do                                        a kept draft is read from the front:
  let keyword ← first s n                 the keyword is there;
  let left ← require s n (s.after? ..)    the parenthesis is there;
  offset left 1 keyword                   the parenthesis is accounted for;
  ...                                     and what follows is kept as well
```

The visits of an analysis are kept, since they go through in a grammatical tree and entries are
never taken back (`Source.kept_of_visited`).
-/

namespace ScriptIndent

/-! ## entries are never taken back -/

namespace Analysis

variable {s : Source} {caseLevels : Int} {t : Token}

theorem contains_visitAll {a : Analysis} {places : List Node.Placed}
    (h : a.registry.contains t = true) :
    (a.visitAll s caseLevels places).registry.contains t = true := by
  induction places generalizing a with
  | nil => exact h
  | cons place rest ih =>
    have hvisit : (a.visit s caseLevels place).registry.contains t = true := by
      unfold visit
      split
      · exact Registry.contains_record h _
      · rwa [Registry.contains, Registry.get?_ignore]
    rw [visitAll]
    split
    · exact hvisit
    · exact ih hvisit

end Analysis

/-- What is recorded has an entry. -/
theorem Registry.contains_record_of_mem {es : List Entry} {e : Entry} (he : e ∈ es) (r : Registry) :
    (r.record es).contains e.token = true := by
  obtain ⟨front, back, rfl⟩ := List.append_of_mem he
  rw [record_append]
  refine contains_record (r := (r.record front).insert e) ?_ back
  rw [contains, get?_insert_self]
  rfl

namespace Source

open Draft

variable {s : Source} {caseLevels : Int} {α β : Type} {n c : Node} {i j k m : Nat} {t u base : Token}

theorem ne_of_at (ht : s.At k t) (hu : s.At m u) (hne : k ≠ m) : t ≠ u := by
  rintro rfl
  exact hne (eq_of_getElem? ht hu)

/-- A draft that goes through; whatever it places has an entry in the end. -/
structure Kept (s : Source) (caseLevels : Int) (d : Draft α) : Prop where
  passes : ∃ a, d.result = .ok a
  contains : ∀ e ∈ d.writes, (s.analyze caseLevels).registry.contains e.token = true

theorem contains_of_mem_writes (g : s.root.Grammatical s.buffer) {place : Node.Placed}
    (hplace : place ∈ s.root.visited []) {draft : Draft Unit}
    (hdraft : Rule.visit? s caseLevels place = some draft) {e : Entry} (he : e ∈ draft.writes) :
    (s.analyze caseLevels).registry.contains e.token = true := by
  obtain ⟨places, rest, hsplit⟩ := List.append_of_mem hplace
  have hfault : (({} : Analysis).visitAll s caseLevels places).fault = none :=
    fault_visitAll g fun p hp => by simp [hsplit, hp]
  rw [analyze, hsplit, Analysis.visitAll_append hfault, Analysis.visitAll]
  have hvisit : ((({} : Analysis).visitAll s caseLevels places).visit s caseLevels
      place).registry.contains e.token = true := by
    rw [Analysis.visit, hdraft]
    exact Registry.contains_record_of_mem he _
  split
  · exact hvisit
  · exact Analysis.contains_visitAll hvisit

/-- The visits of an analysis are kept. -/
theorem kept_of_visited (g : s.root.Grammatical s.buffer) {place : Node.Placed}
    (hplace : place ∈ s.root.visited []) {draft : Draft Unit}
    (hdraft : Rule.visit? s caseLevels place = some draft) : s.Kept caseLevels draft where
  passes := by
    obtain ⟨-, a, hok, -⟩ := Rule.visit?_meets g hplace caseLevels hdraft
    exact ⟨a, hok⟩
  contains _ he := contains_of_mem_writes g hplace hdraft he

/-! ## reading a draft -/

namespace Kept

theorem bind {d : Draft α} {f : α → Draft β} (h : s.Kept caseLevels (d >>= f)) :
    ∃ a, d.result = .ok a ∧ s.Kept caseLevels d ∧ s.Kept caseLevels (f a) := by
  obtain ⟨⟨b, hb⟩, hall⟩ := h
  cases hresult : d.result with
  | error fault =>
    rw [bind_of_error hresult] at hb
    cases hb
  | ok a =>
    rw [bind_of_ok hresult] at hb hall
    exact ⟨a, rfl, ⟨⟨a, hresult⟩, fun e he => hall e (List.mem_append_left _ he)⟩, ⟨b, hb⟩,
      fun e he => hall e (List.mem_append_right _ he)⟩

theorem next {d : Draft Unit} {f : Unit → Draft β} (h : s.Kept caseLevels (d >>= f)) :
    s.Kept caseLevels d ∧ s.Kept caseLevels (f ()) := by
  obtain ⟨⟨⟩, -, hd, hf⟩ := h.bind
  exact ⟨hd, hf⟩

theorem part {asked : Aspect} {p : Option Node} {f : Node → Draft β}
    (h : s.Kept caseLevels (Draft.part asked p >>= f)) (hp : p = some c) :
    s.Kept caseLevels (f c) := by
  subst hp
  exact h

theorem require {description : String} {o : Option Token} {f : Token → Draft β}
    (h : s.Kept caseLevels (Draft.require s n description o >>= f)) :
    ∃ t, o = some t ∧ s.Kept caseLevels (f t) := by
  cases o with
  | none =>
    obtain ⟨_, h⟩ := h.passes
    cases h
  | some t => exact ⟨t, rfl, h⟩

theorem first {f : Token → Draft β} (h : s.Kept caseLevels (Draft.first s n >>= f))
    (hn : s.Stands n i j) (hij : i < j) : ∃ t, s.At i t ∧ s.Kept caseLevels (f t) := by
  obtain ⟨t, ht, h⟩ := h.require
  exact ⟨t, (hn.ends hij).first?_eq.symm.trans ht, h⟩

theorem last {f : Token → Draft β} (h : s.Kept caseLevels (Draft.last s n >>= f))
    (hn : s.Stands n i j) (hij : i < j) : ∃ t, s.At (j - 1) t ∧ s.Kept caseLevels (f t) := by
  obtain ⟨t, ht, h⟩ := h.require
  exact ⟨t, (hn.ends hij).last?_eq.symm.trans ht, h⟩

theorem firstOf {p : Option Node} {f : Token → Draft β}
    (h : s.Kept caseLevels (Draft.firstOf s p >>= f)) (hp : p = some c) (hc : s.Stands c i j)
    (hij : i < j) : ∃ t, s.At i t ∧ s.Kept caseLevels (f t) := by
  subst hp
  exact Kept.first h hc hij

/-- A draft reads the token behind a token. -/
theorem after {description : String} {f : Token → Draft β}
    (h : s.Kept caseLevels (Draft.require s n description (s.after? t) >>= f)) (ht : s.At i t) :
    ∃ u, s.At (i + 1) u ∧ s.Kept caseLevels (f u) := by
  obtain ⟨u, hu, h⟩ := h.require
  exact ⟨u, (ends_token ht).after?_eq.symm.trans hu, h⟩

/-- Drafts for the members of a list. -/
theorem each {f : α → Draft Unit} {as : List α} (h : s.Kept caseLevels (Draft.each f as)) {a : α}
    (ha : a ∈ as) : s.Kept caseLevels (f a) := by
  induction as with
  | nil => cases ha
  | cons b rest ih =>
    obtain ⟨hb, hrest⟩ := Kept.next (d := f b) (f := fun _ => Draft.each f rest) h
    rcases List.mem_cons.1 ha with rfl | ha
    · exact hb
    · exact ih hrest ha

/-! ## what a draft places -/

theorem entry {d : Draft α} (h : s.Kept caseLevels d) {e : Entry} (he : e ∈ d.writes)
    (hk : s.At k e.token) : s.Accounted caseLevels k := by
  intro u hu
  obtain rfl := Option.mem_unique hk hu
  exact .inl (h.contains e he)

theorem offsets {ts : List Token} {levels : Int}
    (h : s.Kept caseLevels (Draft.offsets ts levels base)) (ht : t ∈ ts) (hk : s.At k t)
    (hbase : s.At m base) (hne : k ≠ m) : s.Accounted caseLevels k := by
  refine h.entry (e := ⟨t, some base, levels⟩) (List.mem_map.2 ⟨t, ?_, rfl⟩) hk
  simpa [List.mem_filter, ht] using ne_of_at hk hbase hne

theorem offset {levels : Int} (h : s.Kept caseLevels (Draft.offset t levels base)) (hk : s.At k t)
    (hbase : s.At m base) (hne : k ≠ m) : s.Accounted caseLevels k :=
  h.offsets (List.mem_singleton_self t) hk hbase hne

/-- The token behind a token. -/
theorem offsets_after {ts : List Token} {levels : Int}
    (h : s.Kept caseLevels (Draft.offsets ts levels base)) (hts : (s.after? t).toList ⊆ ts)
    (ht : s.At k t) (hbase : s.At m base) (hne : k + 1 ≠ m) : s.Accounted caseLevels (k + 1) := by
  intro u hu
  refine h.offsets (t := u) (hts ?_) hu hbase hne u hu
  rw [(ends_token ht).after?_eq, Option.mem_toList]
  exact hu

theorem element {items : List Node} {right : Option Token} {levels : Int}
    (h : s.Kept caseLevels (Draft.elements s items base right levels)) (hc : c ∈ items)
    (hstands : s.Stands c i j) (hij : i < j) (hbase : s.At m base) (hne : i ≠ m) :
    s.Accounted caseLevels i := by
  obtain ⟨t, ht, hfirst⟩ := (hstands.ends hij).exists_first?
  exact h.entry (e := ⟨t, some base, levels⟩)
    (mem_elements.2 (.inl ⟨c, hc, t, hfirst, ne_of_at ht hbase hne, rfl⟩)) ht

theorem closing {items : List Node} {levels : Int}
    (h : s.Kept caseLevels (Draft.elements s items base (some t) levels)) (hk : s.At k t)
    (hbase : s.At m base) (hne : k ≠ m) : s.Accounted caseLevels k :=
  h.entry (e := ⟨t, some base, 0⟩) (mem_elements.2 (.inr ⟨t, rfl, ne_of_at hk hbase hne, rfl⟩)) hk

end Kept

/-! ## semicolons and parentheses -/

variable {ancestors : List Node} {construct : Construct} (g : s.root.Grammatical s.buffer)
  (hplace : ⟨n, ancestors⟩ ∈ s.root.visited [])

include g hplace

theorem kept_ofConstruct (hrule : Construct.ofKind? n.kind = some construct) :
    s.Kept caseLevels (Rule.ofConstruct s caseLevels ancestors n construct) :=
  (kept_of_visited g hplace (Rule.visit?_eq hrule s caseLevels ancestors)).next.1

theorem contains_of_mem_common (hrule : Construct.ofKind? n.kind = some construct) {e : Entry}
    (he : e ∈ Rule.common s n) : (s.analyze caseLevels).registry.contains e.token = true :=
  (kept_of_visited g hplace (Rule.visit?_eq hrule s caseLevels ancestors)).next.2.contains e he

/-- The semicolon at the end of a statement, or behind a class field, ends its line, or it is left
out. -/
theorem accounted_semicolon (hn : s.Stands n i j)
    (hstatement : Construct.isStatementKind n.kind = true) (hik : i < k)
    (hends : n.kind ≠ "field_definition" ∧ k + 1 = j ∨ n.kind = "field_definition" ∧ k = j)
    {owner semicolon : Node} (howner : owner.Within s.root) (hmem : semicolon ∈ owner.parts)
    (hspells : semicolon.Spells s.buffer ";") (hstands : s.Stands semicolon k (k + 1)) :
    s.Accounted caseLevels k := by
  intro t ht
  obtain ⟨-, u, hu, hvalue, hkind⟩ := hstands.spells hspells (by decide)
  obtain rfl := Option.mem_unique ht hu
  have hsemicolon : t.isSemicolon = true :=
    Rule.isPunctuator_of_value hvalue hkind (by decide)
  by_cases hnext : ∀ u, s.At (k + 1) u → t.line < u.line
  · left
    obtain ⟨construct, hrule⟩ := Rule.exists_ofKind? (.inl hstatement)
    obtain ⟨start, hstart, hfirst⟩ := (hn.ends (by omega)).exists_first?
    have htrails := Rule.trails_of_closes hn hik ht hsemicolon hends hnext
    exact contains_of_mem_common (e := ⟨t, some start, 0⟩) g hplace hrule (Rule.mem_common.2 (.inl
      ⟨hstatement, (Rule.mem_trailingSemicolon hfirst).2
        ⟨htrails, ne_of_at ht hstart (by omega), rfl⟩⟩))
  · right
    push Not at hnext
    obtain ⟨u, hu, hline⟩ := hnext
    have hfirst := ((hstands.ends (Nat.lt_succ_self k)).first?_eq).trans ht
    exact ⟨owner, semicolon, howner, hmem,
      .semicolon hspells t u hfirst ((ends_token ht).after?_eq.trans hu) hline, hfirst⟩

/-- An expression in parentheses places its first token, and the closing parenthesis. -/
theorem accounted_wrapped (caseLevels : Int)
    (hexpression : Construct.isExpressionKind n.kind = true) {left right : Token}
    (hpair : s.Pair n i j left right) :
    s.Accounted caseLevels (i + 1) ∧ s.Accounted caseLevels j := by
  obtain ⟨hleft, hopening, hn, hlt, hright, hclosing⟩ := hpair
  obtain ⟨construct, hrule⟩ := Rule.exists_ofKind? (.inr hexpression)
  obtain ⟨start, hstart⟩ := hn.exists_at hlt
  obtain ⟨more, heq⟩ :=
    Rule.wrappingParentheses_eq_append hn hlt (Nat.succ_pos i) hstart hleft hopening hright hclosing
  have hkept : ∀ e ∈ Rule.wrappingParentheses s n, (s.analyze caseLevels).registry.contains e.token :=
    fun e he => contains_of_mem_common g hplace hrule (Rule.mem_common.2 (.inr ⟨hexpression, he⟩))
  rw [heq] at hkept
  constructor
  · intro t ht
    obtain rfl := Option.mem_unique hstart ht
    refine .inl (hkept ⟨start, some left, 1⟩ ?_)
    simp [Entry.offsets, ne_of_at hstart hleft (by omega)]
  · intro t ht
    obtain rfl := Option.mem_unique hright ht
    refine .inl (hkept ⟨right, some left, 0⟩ ?_)
    simp [Entry.offsets, ne_of_at hright hleft (by omega)]

omit g hplace

/-! ## constructs in a produced tree -/

/-- The constructs that a semicolon may end. -/
def terminatedConstructs : List Construct :=
  [.declaration, .doLoop, .jump, .exit, .importing, .exporting]

theorem isStatementKind_of_mem {kind : String} (hrule : Construct.ofKind? kind = some construct)
    (hmem : construct ∈ terminatedConstructs) :
    Construct.isStatementKind kind = true ∧ kind ≠ "field_definition" := by
  have hall : ∀ p ∈ Construct.ruledKinds, p.2 ∈ terminatedConstructs →
      Construct.isStatementKind p.1 = true ∧ p.1 ≠ "field_definition" := by decide
  refine hall _ (Rule.mem_ruledKinds hrule ?_) hmem
  rintro rfl
  simp [terminatedConstructs] at hmem

/-- A visited construct and its places. -/
structure Occurs (s : Source) (n : Node) (ancestors : List Node) (construct : Construct)
    (i j : Nat) : Prop where
  grammatical : s.root.Grammatical s.buffer
  produced : s.root.Produced s.buffer
  place : ⟨n, ancestors⟩ ∈ s.root.visited []
  rule : Construct.ofKind? n.kind = some construct
  stands : s.Stands n i j

namespace Occurs

variable (h : s.Occurs n ancestors construct i j)

include h

theorem kept (caseLevels : Int) :
    s.Kept caseLevels (Rule.ofConstruct s caseLevels ancestors n construct) :=
  kept_ofConstruct h.grammatical h.place h.rule

theorem within : n.Within s.root := Node.within_of_mem_visited h.place

theorem production : n.Production s.buffer construct := by
  refine h.produced.production n h.within ?_ construct h.rule
  rcases Node.mem_visited h.place with heq | ⟨parent, -, -, hmem, -⟩
  · cases heq
    exact .inl rfl
  · exact .inr (Node.mem_codeChildren.1 hmem).2.1

theorem shape : n.Shape s.buffer construct := shape_of_visited h.grammatical h.place h.rule

theorem isCompound (hplain : construct ≠ .plain) (htemplate : construct ≠ .templateLiteral) :
    n.IsCompound :=
  Node.isCompound_of_ofKind? h.rule hplain htemplate

theorem lt (hc : c ∈ n.parts) {a b : Nat} (hstands : s.Stands c a b) (hab : a < b) : i < j := by
  have hwithin := Node.Within.of_mem (List.mem_filter.1 hc).1
  have := h.stands.le_of_within hstands hab hwithin
  omega

/-- A part of code has a token. -/
theorem lt_of_isCode (hc : c ∈ n.parts) (hcode : c.IsCode) {a b : Nat} (hstands : s.Stands c a b) :
    a < b :=
  h.stands.lt_of_mem (Node.mem_codeChildren_of_parts hc hcode) hstands

/-- The constructs in a construct occur there. -/
theorem child (hc : c ∈ n.codeChildren) {a b : Nat} (hstands : s.Stands c a b) :
    ∃ other, s.Occurs c (n :: ancestors) other a b := by
  obtain ⟨hmem, hcode⟩ := Node.mem_codeChildren.1 hc
  have hrule := h.produced.ruled c ((Node.Within.of_mem hmem).trans h.within) (.inr hcode)
  obtain ⟨other, hother⟩ := Option.isSome_iff_exists.1 hrule
  exact ⟨other, h.grammatical, h.produced, Node.child_mem_visited h.place h.rule hc, hother, hstands⟩

theorem comma (hkind : n.kind ≠ "import_clause") (hc : c ∈ n.parts)
    (hspells : c.Spells s.buffer ",") {a b : Nat} (hstands : s.Stands c a b) (hab : a < b)
    (caseLevels : Int) : s.Accounted caseLevels a :=
  PassedOver.accounted (.comma hkind hspells) h.within hc hstands hab caseLevels

/-- The parts of a statement, and perhaps a semicolon behind them. -/
theorem terminated (caseLevels : Int) (hn : n.IsCompound)
    (hstatement : Construct.isStatementKind n.kind = true)
    (hfield : n.kind ≠ "field_definition") {x : Node} {rest : List Node}
    (hparts : n.Terminated s.buffer (x :: rest)) :
    ∃ k, k ≤ j ∧ s.StandRun (x :: rest) i k ∧ ∀ m, s.Stands x i m → i < m →
      s.RunBegins (s.Accounted caseLevels) rest m k → s.PartsBegin (s.Accounted caseLevels) n i := by
  rcases hparts with hparts | ⟨semicolon, hspells, hparts⟩
  · exact ⟨j, Nat.le_refl j, h.stands.standRun hn hparts (by simp),
      fun m hx _ hrest => .of_run hparts hx hrest⟩
  · have hrun := h.stands.standRun hn hparts (by simp)
    obtain ⟨k, hfront, l, hsemicolon, rfl⟩ := hrun.append
    obtain rfl := (hsemicolon.spells hspells (by decide)).1
    refine ⟨k, Nat.le_succ k, hfront, fun m hx him hrest =>
      .of_run (j := k + 1) hparts hx (hrest.append ?_)⟩
    have hmk : m ≤ k := by
      obtain ⟨m', hx', hrest'⟩ := hfront
      obtain rfl := (hx.unique him hx').2
      exact hrest'.le
    exact ⟨k + 1, hsemicolon, accounted_semicolon h.grammatical h.place h.stands hstatement
      (by omega) (.inl ⟨hfield, rfl⟩) h.within (by simp [hparts]) hspells hsemicolon, rfl⟩

end Occurs

end Source

end ScriptIndent
