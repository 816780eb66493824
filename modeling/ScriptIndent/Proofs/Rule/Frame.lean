import ScriptIndent.Proofs.Offset.Parens
import ScriptIndent.Proofs.Rule.Standing

/-!
# ScriptIndent.Proofs.Rule.Frame

The frame of a visit: the tokens whose entries it may change.

```
(   (   f   (   a   )   )   )   ;      a visit to the call f ( a ) may change
^   ^   ^   ^   ^   ^   ^   ^          these entries
```

A visit writes for the tokens of its node behind the first one, for the semicolon behind a class
field, and, if the node is an expression in parentheses, for its first token and for the
parentheses around it (`Source.Frame`, `Source.frame_of_mem_writes`).  All other entries are as
before, none is lost, and no range is left unjudged (`Analysis.visit_frame`).

This is said of every node with a rule, also of those that the walk passes over since they lie
below a node without one.  So a tree is asked for more than to be grammatical
(`Node.Regular`); and the nodes above a node do not matter, although they decide which token a
chain is placed relative to (`Rule.ofConstruct_behind`).
-/

namespace ScriptIndent

/-! ## regular trees -/

namespace Node

/-- The keywords that are spelled like the kind of a construct. -/
def keywordKinds : List String := ["class", "function", "import"]

/-- What the grammar says of programs and of leaves. -/
structure Regular (root : Node) : Prop where
  /-- Only the root is a program. -/
  program {m : Node} : m.Below root → m.kind ≠ "program"
  /-- Signs, keywords, comments and the brackets of substitutions are leaves. -/
  leaf {m : Node} : m.Within root → ¬m.IsCode ∨ isSubstitutionBracket m.kind = true →
    m.children = []
  keyword {m : Node} : m.Within root → m.isNamed = false → (Construct.ofKind? m.kind).isSome →
    m.kind ∈ keywordKinds
  /-- The parts of a literal are leaves, its substitutions apart. -/
  part {m c : Node} : m.Within root → isLiteralKind m.kind = true → c ∈ m.children →
    c.kind ≠ "template_substitution" → c.children = []

/-- What a regular tree asks of each of its nodes. -/
def isRegular (n : Node) : Bool :=
  (n.isNamed && !n.isComment && !isSubstitutionBracket n.kind || n.children.isEmpty) &&
    (n.isNamed || (Construct.ofKind? n.kind).isNone || keywordKinds.contains n.kind) &&
    (!isLiteralKind n.kind ||
      n.children.all fun c => c.kind == "template_substitution" || c.children.isEmpty)

theorem Regular.of_all {root : Node} (h : root.all isRegular = true)
    (hprogram : root.children.all (·.all (·.kind != "program")) = true) : root.Regular := by
  have hnode : ∀ m : Node, m.Within root →
      ((m.IsCode ∧ isSubstitutionBracket m.kind = false) ∨ m.children = []) ∧
      (m.isNamed = true ∨ Construct.ofKind? m.kind = none ∨ m.kind ∈ keywordKinds) ∧
      (isLiteralKind m.kind = true →
        ∀ c ∈ m.children, c.kind = "template_substitution" ∨ c.children = []) := by
    intro m hm
    have hpass := Node.of_all h hm
    simp only [isRegular, Bool.and_eq_true, Bool.or_eq_true, Bool.not_eq_true', List.isEmpty_iff,
      Option.isNone_iff_eq_none, List.contains_eq_mem, decide_eq_true_eq, List.all_eq_true,
      beq_iff_eq, or_assoc] at hpass
    obtain ⟨⟨hleaf, hkeyword⟩, hpart⟩ := hpass
    exact ⟨hleaf, hkeyword, fun hliteral => hpart.resolve_left (by simp [hliteral])⟩
  refine ⟨fun hm => ?_, fun hm hcase => ?_, fun hm hnamed hrule => ?_,
    fun hm hliteral hc hkind => ((hnode _ hm).2.2 hliteral _ hc).resolve_left hkind⟩
  · obtain ⟨c, hc, hm⟩ := hm
    exact bne_iff_ne.1 (Node.of_all (List.all_eq_true.1 hprogram c hc) hm)
  · refine (hnode _ hm).1.resolve_left fun hcode => ?_
    rcases hcase with hcase | hcase
    · exact hcase hcode.1
    · simp [hcode.2] at hcase
  · rcases (hnode _ hm).2.1 with h | h | h
    · simp [hnamed] at h
    · simp [h] at hrule
    · exact h

end Node

namespace Source

variable {s : Source} {n : Node} {ancestors : List Node} {i j : Nat}

/-- Where a construct is in the stream: it stands at a place, it substitutes, or it is a leaf in a
literal. -/
inductive Lies (s : Source) (n : Node) : Prop
  | stands {i j : Nat} (h : s.Stands n i j)
  | substitutes {i j : Nat} (h : s.Substitutes n i j)
  | leaf (h : n.IsLiteralPart) (hchildren : n.children = [])

section Regular

variable (g : s.root.Grammatical s.buffer) (hr : s.root.Regular)

include g hr

theorem Lies.child (hn : s.Lies n) (hwithin : n.Within s.root) {c : Node} (hc : c ∈ n.codeChildren) :
    s.Lies c := by
  have hmem := (Node.mem_codeChildren.1 hc).1
  have hcode : n.IsCode := by
    by_contra hcode
    simp [hr.leaf hwithin (.inl hcode)] at hmem
  cases hn with
  | stands h =>
    cases hrule : Construct.ofKind? n.kind with
    | none =>
      obtain ⟨k, l, -, -, -, hchild⟩ := h.child ⟨hcode.2, Node.isLiteralKind_eq_false hrule⟩ hc
      exact .stands hchild
    | some construct =>
      have hshape := g.shape n hwithin (.inr hcode.1) construct hrule
      rcases h.found_child hrule hshape hc with ⟨k, l, h⟩ | ⟨k, l, h⟩ | ⟨hliteral, h⟩
      · exact .stands h
      · exact .substitutes h
      · refine .leaf h ?_
        rcases h with hnone | h
        · refine hr.part hwithin hliteral hmem fun hkind => ?_
          rw [hkind] at hnone
          cases hnone
        · exact h.1
  | substitutes h =>
    rcases h.found_child g hwithin hmem with ⟨k, l, h⟩ | ⟨hbracket, h⟩
    · exact .stands h
    · exact .leaf (.inl h) (hr.leaf (hwithin.below_of_mem hmem).within (.inr hbracket))
  | leaf h hchildren => simp [hchildren] at hmem

/-- Every construct of a regular tree is found in the stream. -/
theorem lies_of_within (hwithin : n.Within s.root) (hcode : n.IsCode) : s.Lies n := by
  suffices ∀ m : Node, m.Within s.root → s.Lies m → n.Within m → s.Lies n from
    this s.root (.refl _) (.stands (stands_root g)) hwithin
  intro m hm hlies hnm
  induction hnm with
  | refl => exact hlies
  | @child c m mem within ih =>
    have hc : c.IsCode := by
      by_contra hc
      have hleaf := hr.leaf (hm.below_of_mem mem).within (.inl hc)
      cases within with
      | refl => exact hc hcode
      | child hmem => simp [hleaf] at hmem
    exact ih (hm.below_of_mem mem).within
      (hlies.child g hr hm (Node.mem_codeChildren.2 ⟨mem, hc⟩))

end Regular

/-! ## frames -/

/-- The pairs of parentheses around a node, nothing but parentheses between. -/
inductive WrappedBy (s : Source) (n : Node) : Token → Token → Prop
  | inner {left right : Token} (hbefore : s.before? n = some left)
      (hopening : left.isOpeningParen = true) (hafter : s.after? n = some right)
      (hclosing : right.isClosingParen = true) : WrappedBy s n left right
  | outer {left right left' right' : Token} (h : WrappedBy s n left' right')
      (hbefore : s.before? left' = some left) (hopening : left.isOpeningParen = true)
      (hafter : s.after? right' = some right) (hclosing : right.isClosingParen = true) :
      WrappedBy s n left right

/-- The tokens whose entries a visit to a node may change. -/
inductive Frame (s : Source) (n : Node) (t : Token) : Prop
  | inside (hmem : t ∈ s.tokens) (hstart : n.start ≤ t.start) (hstop : t.stop ≤ n.stop)
      (hfirst : s.first? n ≠ some t)
  | semicolon (hkind : n.kind = "field_definition") (hafter : s.after? n = some t)
      (hsemicolon : t.isSemicolon = true)
  | first (hkind : Construct.isExpressionKind n.kind = true) (hfirst : s.first? n = some t)
      (hwrapped : ∃ left right, s.WrappedBy n left right)
  | paren {left right : Token} (hkind : Construct.isExpressionKind n.kind = true)
      (hwrapped : s.WrappedBy n left right) (ht : t = left ∨ t = right)

/-- A token of a node other than the first lies in the node's range. -/
theorem Stands.frame (h : s.Stands n i j) {l : Nat} (hil : i < l) (hlj : l < j) {t : Token}
    (ht : s.At l t) : s.Frame n t := by
  obtain ⟨hstart, hstop⟩ := h.spans.range (Nat.le_of_lt hil) hlj ht
  refine .inside (Array.mem_of_getElem? ht) hstart hstop fun hfirst => ?_
  have := eq_of_getElem? ((h.ends (by omega)).first?_eq.symm.trans hfirst) ht
  omega

end Source

/-! ## what a visit writes -/

namespace Draft

variable {s : Source} {n : Node} {α β : Type}

theorem mem_writes_of_bind {d : Draft α} {f : α → Draft β} {e : Entry}
    (he : e ∈ (d >>= f).writes) : e ∈ d.writes ∨ ∃ a, e ∈ (f a).writes := by
  cases hresult : d.result with
  | error fault =>
    rw [bind_of_error hresult] at he
    exact .inl he
  | ok a =>
    rw [bind_of_ok hresult] at he
    exact (List.mem_append.1 he).imp_right fun h => ⟨a, h⟩

theorem token_mem_of_offsets {tokens : List Token} {levels : Int} {base : Token} {e : Entry}
    (he : e ∈ (offsets tokens levels base).writes) : e.token ∈ tokens := by
  obtain ⟨t, ht, rfl⟩ := List.mem_map.1 he
  exact (List.mem_filter.1 ht).1

theorem writes_first (s : Source) (n : Node) : (first s n).writes = [] := by
  rw [first]
  cases s.firstOfNode? n <;> rfl

theorem writes_firstOf (s : Source) (p : Option Node) : (firstOf s p).writes = [] := by
  cases p with
  | none => rfl
  | some n => exact writes_first s n

/-- The draft stops short before anything is drafted. -/
def Fails (d : Draft α) : Prop := ∃ fault, d = fail fault

theorem Fails.bind {d : Draft α} (h : d.Fails) (f : α → Draft β) : (d >>= f).Fails := by
  obtain ⟨fault, rfl⟩ := h
  exact ⟨fault, rfl⟩

theorem fails_first {f : Token → Draft β} (hf : ∀ t, (f t).Fails) : (first s n >>= f).Fails := by
  rw [first]
  cases s.firstOfNode? n with
  | none => exact Fails.bind ⟨_, rfl⟩ f
  | some t => exact hf t

end Draft

namespace Rule

open Draft

variable {s : Source} {n : Node} {ancestors : List Node} {caseLevels : Int} {i j : Nat}

/-- A keyword has no parts, so the rule of the construct that it is spelled like stops at once. -/
theorem writes_of_keyword (hkind : n.kind ∈ Node.keywordKinds) (hleaf : n.children = [])
    {draft : Draft Unit} (hdraft : visit? s caseLevels ⟨n, ancestors⟩ = some draft) :
    draft.writes = [] := by
  have hfails (construct : Construct) (hrule : Construct.ofKind? n.kind = some construct)
      (h : (ofConstruct s caseLevels ancestors n construct).Fails) : draft.writes = [] := by
    obtain ⟨fault, h⟩ := h
    rw [visit?_eq hrule, h] at hdraft
    rw [← Option.some.inj hdraft]
    rfl
  have hfield (name : String) : n.field? name = none := by
    rw [Node.field?, hleaf, List.find?_nil]
  simp only [Node.keywordKinds, List.mem_cons, List.not_mem_nil, or_false] at hkind
  rcases hkind with hkind | hkind | hkind
  · refine hfails .classDefinition (by rw [hkind]; decide) ?_
    simp only [ofConstruct, classDefinition, Draft.keyword?, Node.keyword?, Node.childOfKind?, hleaf,
      List.find?_nil, hfield, pure_bind]
    exact fails_first fun keyword => Fails.bind (Fails.bind ⟨_, rfl⟩ _) _
  · refine hfails .function (by rw [hkind]; decide) ?_
    simp only [ofConstruct, function, hfield]
    exact fails_first fun keyword => Fails.bind ⟨_, rfl⟩ _
  · exact Source.writes_of_isSilent (by rw [Node.IsSilent, hkind]; decide) hdraft

/-- A chain writes for its operator and its right operand, whatever its anchor. -/
theorem chain_behind (h : s.Stands n i j) (hn : n.IsCompound) (hshape : n.ChainShape s.buffer)
    {e : Entry} (he : e ∈ (chain s ancestors n).writes) : ∃ l, i < l ∧ l < j ∧ s.At l e.token := by
  obtain ⟨-, a, b, k, l, sign, operand, -, -, hia, hab, hbk, hkl, hlj, hsign, hoperand, heq⟩ :=
    chain_eq h hn hshape ancestors
  rw [heq] at he
  obtain he | ⟨anchor, he⟩ := mem_writes_of_bind he
  · simp [writes_firstOf] at he
  rcases List.mem_pair.1 (token_mem_of_offsets he) with h | h
  · exact ⟨k, by omega, by omega, h ▸ hsign⟩
  · exact ⟨l, by omega, hlj, h ▸ hoperand⟩

/-- A conditional expression writes for its mark, its colon and what follows them, whatever its
anchor. -/
theorem ternary_behind (h : s.Stands n i j) (hn : n.IsCompound) (hshape : n.TernaryShape s.buffer)
    {e : Entry} (he : e ∈ (ternary s ancestors n).writes) :
    ∃ l, i < l ∧ l < j ∧ s.At l e.token := by
  obtain ⟨k, l, mark, sign, hik, hkl, hlj, hmark, hsign, heq⟩ := ternary_eq h hn hshape ancestors
  rw [heq] at he
  have hafter {x : Nat} {t : Token} (ht : s.At x t)
      (he : e ∈ (offsets (s.after? t).toList 1 t).writes) : s.At (x + 1) e.token := by
    have hmem := token_mem_of_offsets he
    rwa [(s.ends_token ht).after?_eq, Option.mem_toList] at hmem
  obtain he | ⟨anchor, he⟩ := mem_writes_of_bind he
  · simp [writes_first] at he
  obtain he | ⟨-, he⟩ := mem_writes_of_bind he
  · rcases List.mem_pair.1 (token_mem_of_offsets he) with h | h
    · exact ⟨k, hik, by omega, h ▸ hmark⟩
    · exact ⟨l, by omega, by omega, h ▸ hsign⟩
  obtain he | ⟨-, he⟩ := mem_writes_of_bind he
  · exact ⟨k + 1, by omega, by omega, hafter hmark he⟩
  · exact ⟨l + 1, by omega, hlj, hafter hsign he⟩

/-- Whatever stands above a construct, its rule writes for tokens behind the first one only. -/
theorem ofConstruct_behind (h : s.Stands n i j) {construct : Construct}
    (hrule : Construct.ofKind? n.kind = some construct) (hshape : n.Shape s.buffer construct)
    (hprogram : construct ≠ .program) {e : Entry}
    (he : e ∈ (ofConstruct s caseLevels ancestors n construct).writes) :
    ∃ l, i < l ∧ l < j ∧ s.At l e.token := by
  by_cases hchain : construct = .chain
  · subst hchain
    exact chain_behind h (Node.isCompound_of_ofKind? hrule (by simp) (by simp)) hshape he
  by_cases hternary : construct = .ternary
  · subst hternary
    exact ternary_behind h (Node.isCompound_of_ofKind? hrule (by simp) (by simp)) hshape he
  obtain ⟨hwrites, -⟩ :=
    ofConstruct_staysInside_of_ne h hrule hshape hprogram hchain hternary caseLevels ancestors
  obtain ⟨-, l, -, hil, hlj, -, -, -, hl⟩ := hwrites e he
  exact ⟨l, hil, hlj, hl⟩

/-- The pairs of parentheses that an expression is unwrapped from are directly around it. -/
theorem wrappedBy_of_getElem? (h : s.Stands n i j) (hij : i < j) {m : Nat} {p : Token × Token}
    (hp : (wrappers s n)[m]? = some p) : s.WrappedBy n p.1 p.2 := by
  induction m generalizing p with
  | zero =>
    obtain ⟨hi, hleft, hopening, hright, hclosing⟩ := getElem?_wrappers h hij hp
    refine .inner ?_ hopening ((h.ends hij).after?_eq.trans hright) hclosing
    rw [(h.ends hij).before?_eq, if_neg (by omega)]
    exact hleft
  | succ m ih =>
    obtain ⟨q, hq⟩ : ∃ q, (wrappers s n)[m]? = some q := by
      have := (List.getElem?_eq_some_iff.1 hp).1
      exact ⟨_, List.getElem?_eq_getElem (by omega)⟩
    obtain ⟨hi, hleft, hopening, hright, hclosing⟩ := getElem?_wrappers h hij hp
    obtain ⟨-, hleft', -, hright', -⟩ := getElem?_wrappers h hij hq
    refine .outer (ih hq) ?_ hopening ((s.ends_token hright').after?_eq.trans hright) hclosing
    rw [(s.ends_token hleft').before?_eq, if_neg (by omega)]
    exact hleft

/-- What all statements and all expressions have in common. -/
theorem frame_of_mem_common (h : s.Stands n i j) (hij : i < j) {e : Entry} (he : e ∈ common s n) :
    s.Frame n e.token := by
  rcases mem_common.1 he with ⟨-, he⟩ | ⟨hkind, he⟩
  · obtain ⟨l, -, hil, -, -, hl, hsemicolon, hlj | ⟨rfl, hfield⟩⟩ := trailingSemicolon_entry h hij he
    · exact h.frame hil (by omega) hl
    · exact .semicolon hfield ((h.ends hij).after?_eq.trans hl) hsemicolon
  · obtain ⟨start, -, hfirst⟩ := (h.ends hij).exists_first?
    rw [wrappingParentheses_eq, hfirst] at he
    obtain ⟨m, p, t, hp, ht, ⟨-, rfl⟩ | ⟨-, rfl⟩⟩ := mem_unwrap_iff.1 he
    · cases m with
      | zero =>
        obtain rfl := Option.some.inj ht
        exact .first hkind hfirst ⟨_, _, wrappedBy_of_getElem? h hij hp⟩
      | succ m =>
        rw [List.getElem?_cons_succ, List.getElem?_map, Option.map_eq_some_iff] at ht
        obtain ⟨q, hq, rfl⟩ := ht
        exact .paren hkind (wrappedBy_of_getElem? h hij hq) (.inl rfl)
    · exact .paren hkind (wrappedBy_of_getElem? h hij hp) (.inr rfl)

/-- A visit to a node below the program writes for the tokens of its frame. -/
theorem frame_of_mem_writes (g : s.root.Grammatical s.buffer) (hr : s.root.Regular)
    (hn : n.Below s.root) {draft : Draft Unit}
    (hdraft : visit? s caseLevels ⟨n, ancestors⟩ = some draft) {e : Entry}
    (he : e ∈ draft.writes) : s.Frame n e.token := by
  obtain ⟨construct, hrule, heq⟩ := Option.map_eq_some_iff.1 hdraft
  have hsome : (Construct.ofKind? n.kind).isSome = true := by rw [hrule]; rfl
  have hsilent (hwrites : draft.writes = []) : s.Frame n e.token := by simp [hwrites] at he
  by_cases hnamed : n.isNamed = true
  · have hcode : n.IsCode := ⟨hnamed, Node.isComment_of_ofKind? hrule⟩
    cases Source.lies_of_within g hr hn.within hcode with
    | @stands i j h =>
      have hij : i < j := h.spans.lt (g.hasToken n hn hcode)
      have hprogram : construct ≠ .program := by
        rintro rfl
        have hmem := mem_ruledKinds hrule (by simp)
        exact hr.program hn (by simpa [Construct.ruledKinds] using hmem)
      subst heq
      obtain he | ⟨-, he⟩ := mem_writes_of_bind he
      · obtain ⟨l, hil, hlj, hl⟩ := ofConstruct_behind h hrule
          (g.shape n hn.within (.inr hnamed) construct hrule) hprogram he
        exact h.frame hil hlj hl
      · exact frame_of_mem_common h hij he
    | substitutes h => exact hsilent (Source.writes_of_isSilent h.isSilent hdraft)
    | leaf h => exact hsilent (Source.writes_of_isSilent (h.isSilent hsome) hdraft)
  · have hanonymous : n.isNamed = false := Bool.eq_false_iff.2 hnamed
    exact hsilent (writes_of_keyword (hr.keyword hn.within hanonymous hsome)
      (hr.leaf hn.within (.inl fun hcode => hnamed hcode.1)) hdraft)

end Rule

/-! ## what a visit leaves -/

/-- No entry is lost when others are recorded. -/
theorem Registry.contains_record {r : Registry} {t : Token} (h : r.contains t = true)
    (es : List Entry) : (r.record es).contains t = true := by
  induction es generalizing r with
  | nil => exact h
  | cons e es ih =>
    refine ih ?_
    by_cases heq : e.token = t
    · rw [contains, ← heq, get?_insert_self]
      rfl
    · rw [contains, get?_insert_of_ne heq]
      exact h

namespace Analysis

open Source

variable {s : Source} {n : Node}

/-- A visit to a node with a rule, below the program, changes the entries of the tokens of its
frame only; no entry is lost, and no range is left unjudged. -/
theorem visit_frame (g : s.root.Grammatical s.buffer) (hr : s.root.Regular)
    (hn : n.Below s.root) (hrule : (Construct.ofKind? n.kind).isSome = true) (caseLevels : Int)
    (ancestors : List Node) (a : Analysis) :
    (∀ t, (a.visit s caseLevels ⟨n, ancestors⟩).registry.get? t ≠ a.registry.get? t →
        s.Frame n t) ∧
      (∀ t, a.registry.contains t = true →
        (a.visit s caseLevels ⟨n, ancestors⟩).registry.contains t = true) ∧
      (a.visit s caseLevels ⟨n, ancestors⟩).registry.ignored = a.registry.ignored := by
  obtain ⟨construct, hconstruct⟩ := Option.isSome_iff_exists.1 hrule
  obtain ⟨draft, hdraft⟩ : ∃ draft, Rule.visit? s caseLevels ⟨n, ancestors⟩ = some draft :=
    ⟨_, Rule.visit?_eq hconstruct s caseLevels ancestors⟩
  have hregistry : (a.visit s caseLevels ⟨n, ancestors⟩).registry =
      a.registry.record draft.writes := by rw [visit, hdraft]
  rw [hregistry]
  refine ⟨fun t hne => ?_, fun t ht => Registry.contains_record ht _,
    Registry.ignored_record _ _⟩
  by_contra hframe
  refine hne (Registry.get?_record_of_ne fun e he heq => hframe ?_)
  exact heq ▸ Rule.frame_of_mem_writes g hr hn hdraft he

/-- The operand in parentheses: its visit changes the entries of the operand and of the parenthesis
behind it. -/
theorem visit_frame_operand :
    (operand false).Below (parenthesizedSource false).root ∧
      (Construct.ofKind? (operand false).kind).isSome = true ∧
      ((({} : Analysis).visit (parenthesizedSource false) 1 ⟨operand false, []⟩).registry.records.map
        fun e => (e.token.value, e.levels)) = [("abcd", 1), (")", 0)] ∧
      ∀ t, (({} : Analysis).visit (parenthesizedSource false) 1 ⟨operand false, []⟩).registry.get? t ≠
        none → (parenthesizedSource false).Frame (operand false) t := by
  have hn : (operand false).Below (parenthesizedSource false).root :=
    (Node.within_of_mem_visited (visits_parenthesized false)).below_of_mem (by simp [parenthesized])
  have hrule : (Construct.ofKind? (operand false).kind).isSome = true := by decide
  refine ⟨hn, hrule, by decide +kernel, fun t ht => ?_⟩
  exact (visit_frame (parenthesizedSource_grammatical false)
    (.of_all (by decide +kernel) (by decide +kernel)) hn hrule 1 [] {}).1 t ht

end Analysis

end ScriptIndent
