import ScriptIndent.Proofs.Rule.Elements

/-!
# ScriptIndent.Proofs.Rule.Delimited

Lists between delimiters.

```
f(          k     the list places its elements and the closing delimiter relative to the opening one
    (x),    l     a visit to x places the parenthesis around x
    y
)           m
```

The list itself or the construct around it places the elements (`Node.Arranged`, `Source.Owns`), and
that visit ends with what is written for them (`Source.Delimits.exists_records`).  Later visits do
not undo it.  Those within the list take the delimiters for parentheses around an element at most,
and write the entry that stands already (`Source.Delimits.eq_of_mem_writes`), and those elsewhere do
not reach the list (`Source.Delimits.not_drafted`).  So the entries last
(`Source.Delimits.get?_element`, `Source.Delimits.get?_closing`).
-/

namespace ScriptIndent

namespace Node

/-- A comma or a semicolon, which may stand between the elements of a list. -/
def IsSeparator (b : Buffer) (n : Node) : Prop := n.Spells b "," ∨ n.Spells b ";"

/-- The delimiters of lists. -/
def delimiterPairs : List (String × String) := [("[", "]"), ("\x7b", "\x7d"), ("(", ")")]

/-- A list between delimiters: constructs, and what separates them. -/
structure Delimited (b : Buffer) (list opening closing : Node) (items : List Node) : Prop where
  parts_eq : list.parts = opening :: (items ++ [closing])
  delimiters : ∃ p ∈ delimiterPairs, opening.Spells b p.1 ∧ closing.Spells b p.2
  item_cases : ∀ c ∈ items, c.IsCode ∨ c.IsSeparator b
  /-- The semicolon behind a field of a class is no element of the class. -/
  begins : list.kind = "class_body" → ∀ c ∈ items, c.IsCode → ¬c.Begins b ";"

/-- The kinds of lists that place their elements themselves. -/
def listKinds : List String :=
  ["array", "array_pattern", "object", "object_pattern", "statement_block", "class_body"]

/-- The kinds of lists whose elements the construct around them places. -/
def placedKinds : List String := ["formal_parameters", "arguments", "export_clause", "switch_body"]

/-- The kinds of functions with a parameter list in parentheses. -/
def functionKinds : List String :=
  ["function_declaration", "function_expression", "function", "generator_function",
    "generator_function_declaration", "arrow_function", "method_definition"]

/-- A list with its place in the construct around it, if it is that one that places the elements. -/
inductive Arranged (list : Node) : List Node → Prop
  | itself {ancestors : List Node} (kind_mem : list.kind ∈ listKinds) : list.Arranged ancestors
  | parameters {n : Node} {ancestors : List Node} (parent_kind : n.kind ∈ functionKinds)
      (kind_eq : list.kind = "formal_parameters") (field_eq : n.field? "parameters" = some list) :
      list.Arranged (n :: ancestors)
  | arguments {n : Node} {ancestors : List Node}
      (parent_kind : n.kind = "call_expression" ∨ n.kind = "new_expression")
      (kind_eq : list.kind = "arguments") (field_eq : n.field? "arguments" = some list) :
      list.Arranged (n :: ancestors)
  | exported {n : Node} {ancestors : List Node} (parent_kind : n.kind = "export_statement")
      (kind_eq : list.kind = "export_clause")
      (child_eq : n.childOfKind? "export_clause" = some list)
      (default_eq : n.keyword? "default" = none) (declaration_eq : n.field? "declaration" = none) :
      list.Arranged (n :: ancestors)
  | clauses {n : Node} {ancestors : List Node} (parent_kind : n.kind = "switch_statement")
      (kind_eq : list.kind = "switch_body") (field_eq : n.field? "body" = some list) :
      list.Arranged (n :: ancestors)

/-- How many levels deeper than the opening delimiter the elements of a list are. -/
def elementLevels (caseLevels : Int) (list : Node) : Int :=
  if list.kind = "switch_body" then caseLevels else 1

variable {b : Buffer} {list opening closing : Node} {items ancestors : List Node}

theorem Arranged.mem_kinds (h : list.Arranged ancestors) :
    list.kind ∈ listKinds ++ placedKinds := by
  cases h with
  | itself kind_mem => exact List.mem_append_left _ kind_mem
  | parameters _ kind_eq => simp [placedKinds, kind_eq]
  | arguments _ kind_eq => simp [placedKinds, kind_eq]
  | exported _ kind_eq => simp [placedKinds, kind_eq]
  | clauses _ kind_eq => simp [placedKinds, kind_eq]

theorem Arranged.isCompound (h : list.Arranged ancestors) : list.IsCompound := by
  have hall : ∀ kind ∈ listKinds ++ placedKinds,
      isCommentKind kind = false ∧ isLiteralKind kind = false := by decide
  exact hall _ h.mem_kinds

theorem Arranged.exists_rule (h : list.Arranged ancestors) :
    ∃ construct, Construct.ofKind? list.kind = some construct := by
  have hall : ∀ kind ∈ listKinds ++ placedKinds,
      (Construct.ofKind? kind).isSome = true := by decide
  exact Option.isSome_iff_exists.1 (hall _ h.mem_kinds)

theorem Arranged.not_mem_literalPartKinds (h : list.Arranged ancestors) :
    list.kind ∉ Source.literalPartKinds := by
  have hall : ∀ kind ∈ listKinds ++ placedKinds,
      kind ∉ Source.literalPartKinds := by decide
  exact hall _ h.mem_kinds

theorem Delimited.mem_children (h : list.Delimited b opening closing items) {c : Node}
    (hc : c ∈ opening :: (items ++ [closing])) : c ∈ list.children :=
  (List.mem_filter.1 (h.parts_eq ▸ hc)).1

/-- The delimiters are no constructs. -/
theorem Delimited.codeChildren_eq (h : list.Delimited b opening closing items) :
    list.codeChildren = items.filter (·.isNamed) := by
  obtain ⟨p, -, hopening, hclosing⟩ := h.delimiters
  rw [codeChildren_eq_filter, h.parts_eq]
  simp [hopening.anonymous, hclosing.anonymous]

theorem IsSeparator.anonymous (h : opening.IsSeparator b) : opening.isNamed = false :=
  h.elim (·.anonymous) (·.anonymous)

/-- Of the items the elements are the constructs. -/
theorem Delimited.mem_codeChildren (h : list.Delimited b opening closing items) {c : Node} :
    c ∈ list.codeChildren ↔ c ∈ items ∧ c.IsCode := by
  rw [h.codeChildren_eq, List.mem_filter]
  refine and_congr_right fun hc => ⟨fun hnamed => ?_, fun hcode => hcode.1⟩
  refine (h.item_cases c hc).resolve_right fun hseparator => ?_
  simp [hseparator.anonymous] at hnamed

end Node

namespace Source

variable {s : Source} {list opening closing : Node} {items ancestors : List Node} {k m : Nat}
  {left right : Token}

/-! ## where lists stand -/

/-- The delimiters of a list at places `k` and `m`, with the items of the list between them. -/
structure Delimits (s : Source) (list : Node) (items : List Node) (k m : Nat) (left right : Token) :
    Prop where
  stands : s.Stands list k (m + 1)
  left_at : s.At k left
  run : s.SpanRun items (k + 1) m
  right_at : s.At m right
  left_closing : left.isClosingParen = false
  right_opening : right.isOpeningParen = false
  right_semicolon : right.isSemicolon = false

/-- The delimiters of a list begin it and end it. -/
theorem Stands.exists_delimits {i j : Nat} (hn : s.Stands list i j) (hcompound : list.IsCompound)
    (h : list.Delimited s.buffer opening closing items) :
    ∃ m left right, j = m + 1 ∧ s.Delimits list items i m left right ∧
      s.firstOfNode? opening = some left ∧ s.firstOfNode? closing = some right := by
  have hopeningMem := h.mem_children (c := opening) (by simp)
  have hclosingMem := h.mem_children (c := closing) (by simp)
  have hrun := hn.run_parts hcompound (List.ne_nil_of_mem hopeningMem)
  rw [h.parts_eq] at hrun
  obtain ⟨k, hopening, hinner⟩ := hrun
  obtain ⟨m, hitems, l, hclosing, rfl⟩ := hinner.append
  have hopening := hn.of_spans hopeningMem hopening
  have hclosing := hn.of_spans hclosingMem hclosing
  obtain ⟨p, hp, hleft, hright⟩ := h.delimiters
  have hspelling : ∀ p ∈ Node.delimiterPairs, Node.IsSpelling p.1 ∧ Node.IsSpelling p.2 := by decide
  obtain ⟨rfl, left, hleftAt, hleftValue, -⟩ := hopening.spells hleft (hspelling p hp).1
  obtain ⟨rfl, right, hrightAt, hrightValue, -⟩ := hclosing.spells hright (hspelling p hp).2
  have hparens : ∀ p ∈ Node.delimiterPairs, p.1 ≠ ")" ∧ p.2 ≠ "(" ∧ p.2 ≠ ";" := by decide
  obtain ⟨hne, hne', hne''⟩ := hparens p hp
  refine ⟨m, left, right, rfl, ⟨hn, hleftAt, hitems, hrightAt, ?_, ?_, ?_⟩,
    (hopening.ends (Nat.lt_succ_self i)).first?_eq.trans hleftAt,
    (hclosing.ends (Nat.lt_succ_self m)).first?_eq.trans hrightAt⟩
  · simp [Token.isClosingParen, Token.isPunctuator, hleftValue, hne]
  · simp [Token.isOpeningParen, Token.isPunctuator, hrightValue, hne']
  · simp [Token.isSemicolon, Token.isPunctuator, hrightValue, hne'']

/-- A separator is one token, and no parenthesis. -/
theorem Stands.of_isSeparator {c : Node} {a b : Nat} (hc : s.Stands c a b)
    (h : c.IsSeparator s.buffer) : b = a + 1 ∧
      ∃ t, s.At a t ∧ t.isOpeningParen = false ∧ t.isClosingParen = false := by
  have hspells {value : String} (hspells : c.Spells s.buffer value)
      (hspelling : Node.IsSpelling value) (hopening : value ≠ "(") (hclosing : value ≠ ")") : b = a + 1 ∧
        ∃ t, s.At a t ∧ t.isOpeningParen = false ∧ t.isClosingParen = false := by
    obtain ⟨rfl, t, ht, hvalue, -⟩ := hc.spells hspells hspelling
    refine ⟨rfl, t, ht, ?_⟩
    simp [Token.isOpeningParen, Token.isClosingParen, Token.isPunctuator, hvalue, hopening,
      hclosing]
  rcases h with h | h
  · exact hspells h (by decide) (by decide) (by decide)
  · exact hspells h (by decide) (by decide) (by decide)

/-- Balanced nodes one behind the other make a balanced stretch. -/
theorem SpanRun.balanced {ns : List Node} {i j : Nat} (h : s.SpanRun ns i j)
    (hns : ∀ c ∈ ns, ∀ a b, s.Spans c a b →
      parenDepth 0 (s.tokens.extract a b).toList = some 0) :
    parenDepth 0 (s.tokens.extract i j).toList = some 0 := by
  induction ns generalizing i with
  | nil =>
    obtain rfl : i = j := h
    rw [Array.extract_empty_of_stop_le_start (Nat.le_refl i)]
    rfl
  | cons c rest ih =>
    obtain ⟨a, hc, hrest⟩ := h
    have haj := (hrest.chain (List.nil_sublist _)).le
    rw [toList_extract_split hc.le haj, parenDepth_append, hns c (by simp) i a hc, Option.bind_some]
    exact ih hrest fun d hd => hns d (List.mem_cons_of_mem c hd)

/-! ## the places of elements -/

/-- A place in a list at which an element begins, or the closing delimiter stands. -/
structure Slot (s : Source) (list : Node) (k m l : Nat) : Prop where
  lt : k < l
  le : l ≤ m
  outside : s.Outside list l
  opening {t : Token} : s.At (l - 1) t → t.isOpeningParen = true → l = k + 1
  closing {t : Token} : s.At l t → t.isClosingParen = true → l = m

section Delimits

variable (h : s.Delimits list items k m left right)
  (hlist : list.Delimited s.buffer opening closing items) (harranged : list.Arranged ancestors)
  (horderly : s.Orderly) (hplace : ⟨list, ancestors⟩ ∈ s.root.visited [])

include h

theorem Delimits.lt : k < m := by
  have := (h.run.chain (List.nil_sublist _)).le
  omega

include hlist

theorem Delimits.item {c : Node} (hc : c ∈ items) {a b : Nat} (hspans : s.Spans c a b) :
    s.Stands c a b :=
  h.stands.of_spans (hlist.mem_children (by simp [hc])) hspans

theorem Delimits.item_lt {c : Node} (hc : c ∈ items) (hcode : c.IsCode) {a b : Nat}
    (hspans : s.Spans c a b) : a < b :=
  h.stands.lt_of_mem (hlist.mem_codeChildren.2 ⟨hc, hcode⟩) (h.item hlist hc hspans)

/-- An element stands between the delimiters. -/
theorem Delimits.element {c : Node} (hc : c ∈ list.codeChildren) :
    ∃ a b, s.Stands c a b ∧ k < a ∧ a < b ∧ b ≤ m := by
  obtain ⟨hitem, hcode⟩ := hlist.mem_codeChildren.1 hc
  obtain ⟨a, b, hka, hbm, hspans⟩ := h.run.mem hitem
  exact ⟨a, b, h.item hlist hitem hspans, hka, h.item_lt hlist hitem hcode hspans, hbm⟩

include harranged

/-- Where the items are cut, nothing in the list reaches over. -/
theorem Delimits.exists_cut {xs ys : List Node} (hitems : items = xs ++ ys) :
    ∃ l, s.SpanRun xs (k + 1) l ∧ s.SpanRun ys l m ∧ s.Outside list l := by
  have hopeningMem := hlist.mem_children (c := opening) (by simp)
  have hclosingMem := hlist.mem_children (c := closing) (by simp)
  have hchildren := List.ne_nil_of_mem hopeningMem
  obtain ⟨p, hp, hleft, hright⟩ := hlist.delimiters
  have hspelling : ∀ p ∈ Node.delimiterPairs, Node.IsSpelling p.1 ∧ Node.IsSpelling p.2 := by decide
  have hparts : list.parts = (opening :: xs) ++ (ys ++ [closing]) := by
    simp [hlist.parts_eq, hitems]
  have hrun := h.stands.run_parts harranged.isCompound hchildren
  rw [hparts] at hrun
  obtain ⟨l, hxs, hys⟩ := hrun.append
  have hout := h.stands.outside_of_parts harranged.isCompound hchildren hparts hxs hys
  obtain ⟨a, hopening, hxs⟩ := hxs
  obtain ⟨rfl, -⟩ := (h.stands.of_spans hopeningMem hopening).spells hleft (hspelling p hp).1
  obtain ⟨b, hback, c, hclosing, hcm⟩ := hys.append
  obtain ⟨rfl, -⟩ := (h.stands.of_spans hclosingMem hclosing).spells hright (hspelling p hp).2
  obtain rfl : b = m := Nat.succ.inj hcm
  exact ⟨l, hxs, hback, hout⟩

include horderly hplace

omit h horderly in
/-- The elements are visited. -/
theorem Delimits.item_visited {c : Node} (hc : c ∈ items) (hcode : c.IsCode) :
    ⟨c, list :: ancestors⟩ ∈ s.root.visited [] := by
  obtain ⟨construct, hrule⟩ := harranged.exists_rule
  exact Node.child_mem_visited hplace hrule (hlist.mem_codeChildren.2 ⟨hc, hcode⟩)

/-- No item ends with an opening parenthesis or begins with a closing one, and all are balanced. -/
theorem Delimits.item_parens {c : Node} (hc : c ∈ items) {a b : Nat} (hspans : s.Spans c a b) :
    (∀ t, s.At (b - 1) t → t.isOpeningParen = false) ∧ (∀ t, s.At a t → t.isClosingParen = false) ∧
      parenDepth 0 (s.tokens.extract a b).toList = some 0 := by
  have hstands := h.item hlist hc hspans
  rcases hlist.item_cases c hc with hcode | hseparator
  · have hab := h.item_lt hlist hc hcode hspans
    have hbalanced := horderly.balanced _ (item_visited hlist harranged hplace hc hcode)
    refine ⟨fun t ht => hstands.isOpeningParen hab hbalanced ht,
      fun t ht => hstands.isClosingParen hab hbalanced ht, ?_⟩
    rw [(hstands.ends hab).tokensOf_eq] at hbalanced
    exact hbalanced
  · obtain ⟨rfl, t, ht, hopening, hclosing⟩ := hstands.of_isSeparator hseparator
    refine ⟨fun u hu => ?_, fun u hu => ?_, ?_⟩
    · rw [← Option.mem_unique ht hu]
      exact hopening
    · rw [← Option.mem_unique ht hu]
      exact hclosing
    · rw [toList_extract_succ ht]
      simp [parenDepth, hopening, hclosing]

/-- The stretch between the delimiters is balanced. -/
theorem Delimits.balanced : parenDepth 0 (s.tokens.extract (k + 1) m).toList = some 0 :=
  h.run.balanced fun _ hc _ _ hspans =>
    (h.item_parens hlist harranged horderly hplace hc hspans).2.2

/-- Where the items are cut, no parenthesis opens directly before but the opening delimiter, and
none closes but the closing one. -/
theorem Delimits.exists_slot {xs ys : List Node} (hitems : items = xs ++ ys) :
    ∃ l, s.SpanRun ys l m ∧ s.Slot list k m l := by
  obtain ⟨l, hxs, hys, hout⟩ := h.exists_cut hlist harranged hitems
  have hkl := (hxs.chain (List.nil_sublist _)).le
  refine ⟨l, hys, hkl, (hys.chain (List.nil_sublist _)).le, hout, fun {t} ht hopening => ?_,
    fun {t} ht hclosing => ?_⟩
  · obtain rfl | ⟨front, c, rfl⟩ := List.eq_nil_or_concat' xs
    · exact Eq.symm hxs
    · obtain ⟨a, -, b, hspans, rfl⟩ := hxs.append
      have hparens := h.item_parens hlist harranged horderly hplace (by simp [hitems]) hspans
      simp [hparens.1 t ht] at hopening
  · cases ys with
    | nil => exact hys
    | cons c rest =>
      obtain ⟨b, hspans, -⟩ := hys
      have hparens := h.item_parens hlist harranged horderly hplace (by simp [hitems]) hspans
      simp [hparens.2.1 t ht] at hclosing

theorem Delimits.slot_of_element {c : Node} (hc : c ∈ list.codeChildren) {a b : Nat}
    (hstands : s.Stands c a b) : s.Slot list k m a ∧ a < m := by
  obtain ⟨xs, ys, hitems⟩ := List.append_of_mem (hlist.mem_codeChildren.1 hc).1
  obtain ⟨l, ⟨b', hspans, hys⟩, hslot⟩ := h.exists_slot hlist harranged horderly hplace hitems
  have hab := h.stands.lt_of_mem hc hstands
  obtain ⟨rfl, rfl⟩ := hstands.unique hab (h.item hlist (by simp [hitems]) hspans)
  have := (hys.chain (List.nil_sublist _)).le
  exact ⟨hslot, by omega⟩

theorem Delimits.slot_of_closing : s.Slot list k m m := by
  obtain ⟨l, hys, hslot⟩ :=
    h.exists_slot hlist harranged horderly hplace (List.append_nil items).symm
  obtain rfl : l = m := hys
  exact hslot

/-! ## visits -/

variable {caseLevels : Int} {l : Nat} {q : Node.Placed} {draft : Draft Unit} {e : Entry}
  (hdraft : Rule.visit? s caseLevels q = some draft) (he : e ∈ draft.writes) (hl : s.At l e.token)

include hdraft he hl

/-- A visit within the list may place the first element, and the closing delimiter, from the
parentheses around it.  It does so as the list does. -/
theorem Delimits.eq_of_mem_writes {below : List Node.Placed}
    (hbelow : list.visited ancestors = ⟨list, ancestors⟩ :: below) (hq : q ∈ below)
    (hslot : s.Slot list k m l)
    (hsemicolon : list.kind = "class_body" → e.token.isSemicolon = false) :
    left.isOpeningParen = true ∧ l < m ∧ e = ⟨e.token, some left, 1⟩ ∨
      l = m ∧ e = ⟨e.token, some left, 0⟩ := by
  have g := horderly.grammatical
  have hmem : q ∈ list.visited ancestors := hbelow ▸ List.mem_cons_of_mem _ hq
  have hvisited := Node.visited_subset hplace hmem
  have hnode : q.node.Below list := Node.below_of_mem_visited (p := ⟨list, ancestors⟩) hbelow hq
  obtain ⟨x, y, -, hm, hxy, -⟩ := (Rule.visit?_reaches g hvisited caseLevels hdraft).1 e he
  obtain ⟨c, hc, hqc⟩ :=
    Node.exists_codeChild_of_mem_visited (p := ⟨list, ancestors⟩) hbelow hq
  obtain ⟨u, v, hstands, hku, -, hvm⟩ := h.element hlist hc
  obtain ⟨hux, hyv⟩ := hstands.le_of_within hm hxy (Node.within_of_mem_visited hqc)
  have hkl := hslot.lt
  have hlm := hslot.le
  have hout : l ≤ x ∨ y ≤ l := by
    rcases hslot.outside q.node x y hnode hm hxy with hout | hout | hsilent
    · exact .inl hout
    · exact .inr hout
    · simp [writes_of_isSilent hsilent hdraft] at he
  cases Rule.visit?_drafted g hvisited hm hxy hdraft e he with
  | start kind_eq =>
    obtain ⟨d, hd, hwithin⟩ := hnode
    have hbelow := (Node.within_of_mem_visited hplace).below_of_mem hd
    exact absurd kind_eq (horderly.programs _ (hwithin.trans_below hbelow))
  | inside token_at lt lt_stop =>
    obtain rfl := eq_of_getElem? token_at hl
    omega
  | field kind_eq token_at semicolon =>
    obtain rfl := eq_of_getElem? token_at hl
    by_cases hkind : list.kind = "class_body"
    · simp [hsemicolon hkind] at semicolon
    · exact (horderly.not_reaches_field hplace h.stands hkind hmem kind_eq hm hxy (by omega)
        hslot.outside).elim
  | @opening a base base_at token_at eq lt openings =>
    obtain rfl := eq_of_getElem? token_at hl
    obtain ⟨t, ht, hopening⟩ := openings a (Nat.le_refl a) lt
    obtain rfl := Option.mem_unique base_at ht
    obtain rfl : a = k := Nat.succ.inj (hslot.opening (by simpa using base_at) hopening)
    obtain rfl := Option.mem_unique base_at h.left_at
    exact .inl ⟨hopening, by omega, eq⟩
  | closing wraps =>
    obtain ⟨a, -, -, -, hat, -, -, hcloses⟩ := id wraps
    obtain ⟨t, ht, hclosing⟩ := hcloses (y + a) (Nat.le_add_right y a) (Nat.le_refl _)
    obtain rfl := eq_of_getElem? hat hl
    have hstop := hslot.closing ht hclosing
    have htoken := Option.mem_unique hl (hstop ▸ h.right_at)
    have heq := wraps.eq_of_stretch hm hxy (by omega) (by omega)
      (h.balanced hlist harranged horderly hplace) (horderly.balanced _ hvisited) h.left_at
      h.right_at htoken
    exact .inr ⟨hstop, by rw [heq]⟩

end Delimits

/-- Nothing before a list, and nothing behind it, places what stands in the list. -/
theorem Delimits.not_drafted (h : s.Delimits list items k m left right) {n : Node} {x y l : Nat}
    (hxy : x < y) (hapart : y ≤ k ∨ m + 1 ≤ x) {e : Entry} (he : s.Drafted n x y e)
    (hl : s.At l e.token) (hkl : k < l) (hlm : l ≤ m) : False := by
  cases he with
  | start _ token_at le lt =>
    obtain rfl := eq_of_getElem? token_at hl
    omega
  | inside token_at lt lt_stop =>
    obtain rfl := eq_of_getElem? token_at hl
    omega
  | field _ token_at =>
    obtain rfl := eq_of_getElem? token_at hl
    omega
  | @opening a _ _ token_at _ lt openings =>
    -- all between the opening parenthesis and the node opens, the closing delimiter as well
    obtain rfl := eq_of_getElem? token_at hl
    obtain ⟨t, ht, hopening⟩ := openings m (by omega) (by omega)
    obtain rfl := Option.mem_unique h.right_at ht
    simp [h.right_opening] at hopening
  | closing wraps =>
    obtain ⟨a, -, -, -, hat, -, -, hcloses⟩ := wraps
    obtain rfl := eq_of_getElem? hat hl
    obtain ⟨t, ht, hclosing⟩ := hcloses k (by omega) (by omega)
    obtain rfl := Option.mem_unique h.left_at ht
    simp [h.left_closing] at hclosing

/-- Of two constructs in a node one stands behind the other. -/
theorem Stands.apart {n c d : Node} {i j a b u v : Nat} (hn : s.Stands n i j)
    (hcompound : n.IsCompound) (hc : c ∈ n.codeChildren) (hd : d ∈ n.codeChildren) (hne : c ≠ d)
    (hcs : s.Stands c a b) (hds : s.Stands d u v) : b ≤ u ∨ v ≤ a := by
  have hab := hn.lt_of_mem hc hcs
  have huv := hn.lt_of_mem hd hds
  have hturn {c d : Node} {a b u v : Nat} (hsub : [c, d].Sublist n.children) (hcs : s.Stands c a b)
      (hds : s.Stands d u v) (hab : a < b) (huv : u < v) : b ≤ u := by
    obtain ⟨_, _, -, hcs', _, _, hle, hds', -⟩ := hn.turn hcompound hsub
    obtain ⟨rfl, rfl⟩ := hcs.unique hab hcs'
    obtain ⟨rfl, rfl⟩ := hds.unique huv hds'
    exact hle
  rcases Node.sublist_or_sublist (Node.mem_children_of_mem_codeChildren hc)
    (Node.mem_children_of_mem_codeChildren hd) hne with hsub | hsub
  · exact .inl (hturn hsub hcs hds hab huv)
  · exact .inr (hturn hsub hds hcs huv hab)

/-- A construct places the elements of a list: it is the list, or the construct around it. -/
inductive Owns (list : Node) (ancestors : List Node) : Node.Placed → Prop
  | itself : Owns list ancestors ⟨list, ancestors⟩
  | parent {n : Node} {above : List Node} (ancestors_eq : ancestors = n :: above)
      (mem : list ∈ n.codeChildren) (silent : list.IsSilent) : Owns list ancestors ⟨n, above⟩

/-- What the owner of a list records for an element or for the closing delimiter lasts, if it is
what the list would record. -/
theorem Delimits.get?_of_records (h : s.Delimits list items k m left right)
    (hlist : list.Delimited s.buffer opening closing items) (harranged : list.Arranged ancestors)
    (horderly : s.Orderly) (hplace : ⟨list, ancestors⟩ ∈ s.root.visited []) {p : Node.Placed}
    (hp : p ∈ s.root.visited []) (howns : Owns list ancestors p) {i j : Nat}
    (hn : s.Stands p.node i j) (hcompound : p.node.IsCompound) {caseLevels : Int}
    {draft : Draft Unit} (hdraft : Rule.visit? s caseLevels p = some draft) {e : Entry}
    (hrecords : draft.Records e)
    {l : Nat} (hl : s.At l e.token) (hslot : s.Slot list k m l)
    (hsemicolon : list.kind = "class_body" → e.token.isSemicolon = false)
    (hsame : ∀ d : Entry, d.token = e.token → left.isOpeningParen = true ∧ l < m ∧
      d = ⟨d.token, some left, 1⟩ ∨ l = m ∧ d = ⟨d.token, some left, 0⟩ → d = e) :
    (s.analyze caseLevels).registry.get? e.token = some e := by
  have g := horderly.grammatical
  have hkl := hslot.lt
  have hlm := hslot.le
  obtain ⟨construct, hrule⟩ := harranged.exists_rule
  have hvisited := Node.visited_of_ofKind? hrule ancestors
  obtain ⟨places, rest, hsplit⟩ := List.append_of_mem hp
  obtain ⟨below, behind, rfl, hbelow, hbehind⟩ := Node.visited_cut g.nested hsplit
  refine get?_analyze_of_records g hsplit hdraft hrecords fun q hq draft' hdraft' d hd htoken => ?_
  have hdl : s.At l d.token := htoken ▸ hl
  have hin {below : List Node.Placed} (hbelow : list.visited ancestors = ⟨list, ancestors⟩ :: below)
      (hq : q ∈ below) : d = e :=
    hsame d htoken (h.eq_of_mem_writes hlist harranged horderly hplace hdraft' hd hdl hbelow hq
      hslot fun hkind => htoken ▸ hsemicolon hkind)
  have hqVisited : q ∈ s.root.visited [] := by simp [hsplit, hq]
  obtain ⟨x, y, -, hm, hxy, -⟩ := (Rule.visit?_reaches g hqVisited caseLevels hdraft').1 d hd
  have hdrafted := Rule.visit?_drafted g hqVisited hm hxy hdraft' d hd
  have hapart (hapart : y ≤ k ∨ m + 1 ≤ x) : d = e :=
    (h.not_drafted hxy hapart hdrafted hdl hkl hlm).elim
  cases howns with
  | itself =>
    rcases List.mem_append.1 hq with hq | hq
    · exact hin hbelow hq
    · exact hapart (.inr (h.stands.le_of_stop_le (by omega) hm hxy (hbehind q hq)))
  | @parent n above ancestors_eq mem silent =>
    obtain ⟨a, b, hia, hab, hbj, hstands⟩ := hn.child hcompound mem
    obtain ⟨rfl, rfl⟩ := h.stands.unique (by omega) hstands
    rcases List.mem_append.1 hq with hq | hq
    · obtain ⟨c, hc, hqc⟩ := Node.exists_codeChild_of_mem_visited hbelow hq
      by_cases heq : c = list
      · subst heq
        rw [show (⟨n, above⟩ : Node.Placed).node :: (⟨n, above⟩ : Node.Placed).ancestors = ancestors
          from ancestors_eq.symm, hvisited] at hqc
        rcases List.mem_cons.1 hqc with rfl | hqc
        · simp [writes_of_isSilent silent hdraft'] at hd
        · exact hin hvisited hqc
      · obtain ⟨u, v, -, -, -, hcs⟩ := hn.child hcompound hc
        have := hcs.le_of_within hm hxy (Node.within_of_mem_visited hqc)
        have := hn.apart hcompound hc mem heq hcs h.stands
        exact hapart (by omega)
    · have := hn.le_of_stop_le (by omega) hm hxy (hbehind q hq)
      exact hapart (by omega)

/-! ## what the owner records -/

/-- A body that is placed by its first token places no token within a list beside it. -/
theorem Stands.body_elsewhere {n body : Node} {i j l : Nat} (hn : s.Stands n i j)
    (hcompound : n.IsCompound) (hbody : n.IsPart "body" body) (hmem : list ∈ n.codeChildren)
    (hlist : s.Stands list k m) (hkl : k < l) (hlm : l < m) (keyword : Token) :
    (do Draft.offset (← Draft.firstOf s (n.field? "body")) 0 keyword : Draft Unit).Meets
      (Entry.Elsewhere s l) fun _ => True := by
  obtain ⟨a, b, -, hab, -, hstands⟩ := hn.child hcompound hbody.2
  have hne : a ≠ l := by
    by_cases heq : body = list
    · subst heq
      have := hlist.unique (by omega) hstands
      omega
    · have := hn.apart hcompound hbody.2 hmem heq hstands hlist
      omega
  exact (Draft.meets_firstOf hbody.1 hstands hab).bind fun _ htoken =>
    Draft.meets_offset_elsewhere hne htoken

section Owner

variable (h : s.Delimits list items k m left right)
  (hlist : list.Delimited s.buffer opening closing items)

include h

/-- The delimiters are those of the grammar. -/
theorem Delimits.of_enclosed {first last : String} (henclosed : list.Enclosed s.buffer first last)
    (hfirst : Node.IsSpelling first) (hlast : Node.IsSpelling last)
    (hfirstSign : TokenKind.ofLeaf first false first = .punctuator)
    (hlastSign : TokenKind.ofLeaf last false last = .punctuator) :
    left.isPunctuator first = true ∧ right.isPunctuator last = true := by
  obtain ⟨-, ⟨t, ht, htvalue, htkind⟩, ⟨u, hu, huvalue, hukind⟩, -⟩ :=
    h.stands.enclosed henclosed hfirst hlast
  obtain rfl := Option.mem_unique h.left_at ht
  obtain rfl := Option.mem_unique h.right_at hu
  exact ⟨Rule.isPunctuator_of_value htvalue htkind hfirstSign,
    Rule.isPunctuator_of_value huvalue hukind hlastSign⟩

include hlist

/-- Behind the last element nothing but separators stand before the closing delimiter. -/
theorem Delimits.afterWhere?_eq (hclosing : right.isClosingParen = true) :
    s.afterWhere? Token.isClosingParen (list.codeChildren.getLast?.elim left .node) =
      some right := by
  have hscan {l : Nat} {ys : List Node} (hys : s.SpanRun ys l m)
      (hseparators : ∀ c ∈ ys, c ∈ items ∧ c.isNamed = false) :
      Source.scanUp s.tokens Token.isClosingParen l = some right := by
    have hlm := (hys.chain (List.nil_sublist _)).le
    obtain ⟨a, t, hla, ham, ht, hparen, hscan⟩ := Source.exists_scanUp hlm h.right_at hclosing
    rcases Nat.eq_or_lt_of_le ham with rfl | ham
    · rw [hscan]
      exact ht.symm.trans h.right_at
    · obtain ⟨c, hc, p, q, hspans, -, hpa, haq, -⟩ := hys.exists_mem hla ham
      obtain ⟨hitem, hnamed⟩ := hseparators c hc
      have hseparator := (hlist.item_cases c hitem).resolve_left fun hcode => by
        simp [hcode.1] at hnamed
      obtain ⟨rfl, u, hu, -, hu'⟩ := (h.item hlist hitem hspans).of_isSeparator hseparator
      obtain rfl : p = a := by omega
      obtain rfl := Option.mem_unique ht hu
      simp [hu'] at hparen
  have hkm := h.lt
  rw [hlist.codeChildren_eq]
  cases hlast : (items.filter (·.isNamed)).getLast? with
  | none =>
    rw [Option.elim_none, (s.ends_token h.left_at).afterWhere?_eq]
    refine hscan h.run fun c hc => ⟨hc, ?_⟩
    simpa using List.filter_eq_nil_iff.1 (List.getLast?_eq_none_iff.1 hlast) c hc
  | some tail =>
    obtain ⟨before, hbefore⟩ := List.getLast?_eq_some_iff.1 hlast
    obtain ⟨xs, behind, hitems, -, hbehind⟩ := List.filter_eq_append_iff.1 hbefore
    obtain ⟨more, ys, rfl, -, hnamed, hys⟩ := List.filter_eq_cons_iff.1 hbehind
    have htail : tail ∈ items := by simp [hitems]
    have hrun := h.run
    rw [hitems] at hrun
    obtain ⟨_, -, hrun⟩ := hrun.append
    obtain ⟨a, -, b, hspans, hrest⟩ := hrun.append
    have hcode := (hlist.item_cases tail htail).resolve_right fun hseparator => by
      simp [hseparator.anonymous] at hnamed
    have hab := h.item_lt hlist htail hcode hspans
    rw [Option.elim_some, ((h.item hlist htail hspans).ends hab).afterWhere?_eq]
    exact hscan hrest fun c hc =>
      ⟨by simp [hitems, hc], by simpa using List.filter_eq_nil_iff.1 hys c hc⟩

variable (harranged : list.Arranged ancestors) (g : s.root.Grammatical s.buffer)
  (hplace : ⟨list, ancestors⟩ ∈ s.root.visited []) {caseLevels : Int}

include harranged g hplace

omit hlist in
/-- The elements of a list in parentheses are one level deeper. -/
theorem Delimits.elementLevels_eq (hopening : left.isOpeningParen = true) :
    Node.elementLevels caseLevels list = 1 := by
  refine if_neg fun hkind => ?_
  cases harranged with
  | itself kind_mem =>
    rw [hkind] at kind_mem
    exact absurd kind_mem (by decide)
  | parameters _ kind_eq => exact absurd (kind_eq.symm.trans hkind) (by decide)
  | arguments _ kind_eq => exact absurd (kind_eq.symm.trans hkind) (by decide)
  | exported _ kind_eq => exact absurd (kind_eq.symm.trans hkind) (by decide)
  | @clauses n above parent_kind _ field_eq =>
    obtain ⟨hparent, hmem⟩ := parent_mem_visited hplace
    obtain ⟨body, hbody, henclosed, -⟩ := shape_of_visited g hparent
      (show Construct.ofKind? n.kind = some .switch by rw [parent_kind]; decide)
    obtain rfl := Option.mem_unique field_eq hbody.1
    have hbrace := (h.of_enclosed henclosed (by decide) (by decide) (by decide) (by decide)).1
    rw [Token.isPunctuator, Bool.and_eq_true, beq_iff_eq, beq_iff_eq] at hbrace
    simp [Token.isOpeningParen, Token.isPunctuator, hbrace.2] at hopening

variable {l : Nat} {e : Entry} (hl : s.At l e.token) (hkl : k < l) (hlm : l ≤ m)
  (helements : (Draft.elements s list.codeChildren left right
    (Node.elementLevels caseLevels list)).Records e)

include hl hkl hlm helements

omit h hlist harranged hl hkl hlm helements in
/-- The construct around a list owns it, if its rule records what the list would. -/
theorem exists_records_of_parent {n : Node} {above : List Node}
    (hancestors : ancestors = n :: above) (hkind : list.kind ∈ Node.placedKinds)
    {construct : Construct} (hrule : Construct.ofKind? n.kind = some construct)
    (hconstruct : construct ≠ .plain ∧ construct ≠ .templateLiteral ∧ construct ≠ .program)
    (hrecords : ∀ i j, s.Stands n i j → n.IsCompound → n.Shape s.buffer construct →
      list ∈ n.codeChildren →
      (∃ b, (Rule.ofConstruct s caseLevels above n construct).result = .ok b) →
      (Rule.ofConstruct s caseLevels above n construct).Records e) :
    ∃ (p : Node.Placed) (construct : Construct) (i j : Nat), p ∈ s.root.visited [] ∧
      Owns list ancestors p ∧ s.Stands p.node i j ∧ p.node.IsCompound ∧
      Construct.ofKind? p.node.kind = some construct ∧
      (Rule.ofConstruct s caseLevels p.ancestors p.node construct).Records e := by
  have hsilent : ∀ kind ∈ Node.placedKinds,
      Construct.ofKind? kind = some .plain ∧ Construct.isStatementKind kind = false ∧
        Construct.isExpressionKind kind = false := by decide
  obtain ⟨hparent, hmem⟩ := parent_mem_visited (hancestors ▸ hplace)
  obtain ⟨i, j, hn⟩ := (found_of_visited g hparent).exists_stands hrule hconstruct.1
  have hcompound := Node.isCompound_of_ofKind? hrule hconstruct.1 hconstruct.2.1
  obtain ⟨-, a, hok, -⟩ :=
    Rule.ofConstruct_staysInside g hparent hn hrule hconstruct.2.2 caseLevels
  exact ⟨⟨n, above⟩, construct, i, j, hparent, .parent hancestors hmem (hsilent _ hkind), hn,
    hcompound, hrule, hrecords i j hn hcompound (shape_of_visited g hparent hrule) hmem ⟨a, hok⟩⟩

/-- What is recorded for the elements of a list, its owner records. -/
theorem Delimits.exists_records : ∃ (p : Node.Placed) (construct : Construct) (i j : Nat),
    p ∈ s.root.visited [] ∧ Owns list ancestors p ∧ s.Stands p.node i j ∧ p.node.IsCompound ∧
      Construct.ofKind? p.node.kind = some construct ∧
      (Rule.ofConstruct s caseLevels p.ancestors p.node construct).Records e := by
  have hkm := h.lt
  have hends := h.stands.ends (by omega)
  have hleft : s.firstOfNode? list = some left := hends.first?_eq.trans h.left_at
  have hright : s.lastOfNode? list Token.isAny = some right := hends.last?_eq.trans h.right_at
  have hbody {n body : Node} {i j : Nat} (hn : s.Stands n i j) (hcompound : n.IsCompound)
      (hbody : n.IsPart "body" body) (hmem : list ∈ n.codeChildren) (keyword : Token) :=
    hn.body_elsewhere hcompound hbody hmem h.stands hkl (by omega) keyword
  have hone (hkind : list.kind ≠ "switch_body") :
      (Draft.elements s list.codeChildren left right 1).Records e := by
    rwa [Node.elementLevels, if_neg hkind] at helements
  cases id harranged with
  | itself kind_mem =>
    have helements := hone fun hkind => by
      rw [hkind] at kind_mem
      exact absurd kind_mem (by decide)
    have hall : ∀ kind ∈ Node.listKinds,
        Construct.ofKind? kind = some .arrayList ∨ Construct.ofKind? kind = some .objectList ∨
          Construct.ofKind? kind = some .block := by decide
    rcases hall list.kind kind_mem with hrule | hrule | hrule <;>
      refine ⟨⟨list, ancestors⟩, _, k, m + 1, hplace, .itself, h.stands, harranged.isCompound, hrule,
        ?_⟩
    · have henclosed : list.Enclosed s.buffer "[" "]" := shape_of_visited g hplace hrule
      exact Rule.arrayList_records hleft helements h.stands h.right_at
        (h.of_enclosed henclosed (by decide) (by decide) (by decide) (by decide)).2 hkm
    · have henclosed : list.Enclosed s.buffer "\x7b" "\x7d" := shape_of_visited g hplace hrule
      exact Rule.objectList_records hleft helements h.stands h.right_at
        (h.of_enclosed henclosed (by decide) (by decide) (by decide) (by decide)).2 hkm
    · exact Rule.block_records hleft hright helements
  | @parameters n above parent_kind kind_eq field_eq =>
    have helements := hone (by rw [kind_eq]; decide)
    have hall : ∀ kind ∈ Node.functionKinds, Construct.ofKind? kind = some .function ∨
        Construct.ofKind? kind = some .arrow ∨ Construct.ofKind? kind = some .method := by decide
    rcases hall n.kind parent_kind with hrule | hrule | hrule
    · refine exists_records_of_parent g hplace rfl (by rw [kind_eq]; decide) hrule (by decide)
        fun i j hn hcompound hshape hmem hok => ?_
      obtain ⟨_, body, -, -, hpart⟩ := hshape
      exact Rule.function_records hleft hright hl helements (hbody hn hcompound hpart hmem) field_eq
        hok
    · refine exists_records_of_parent g hplace rfl (by rw [kind_eq]; decide) hrule (by decide)
        fun i j hn hcompound hshape _ _ => ?_
      have hfield := hshape
      obtain ⟨_, _, _, -, -, -, -, hmatch⟩ := hfield
      rw [field_eq] at hmatch
      obtain ⟨rfl, henclosed⟩ := hmatch
      obtain ⟨hparen, hclosing⟩ :=
        h.of_enclosed henclosed (by decide) (by decide) (by decide) (by decide)
      exact Rule.arrow_records hn hcompound hshape field_eq h.stands h.left_at hparen
        (h.afterWhere?_eq hlist hclosing) hl helements hlm
    · refine exists_records_of_parent g hplace rfl (by rw [kind_eq]; decide) hrule (by decide)
        fun i j hn hcompound hshape hmem hok => ?_
      obtain ⟨_, _, body, -, -, -, hpart⟩ := hshape
      exact Rule.method_records hleft hright hl helements (hbody hn hcompound hpart hmem) field_eq
        hok
  | @arguments n above parent_kind kind_eq field_eq =>
    have helements := hone (by rw [kind_eq]; decide)
    rcases parent_kind with parent_kind | parent_kind
    · have hrule : Construct.ofKind? n.kind = some .call := by rw [parent_kind]; decide
      refine exists_records_of_parent g hplace rfl (by rw [kind_eq]; decide) hrule (by decide)
        fun _ _ _ _ _ _ hok => ?_
      exact Rule.call_records hleft hright helements field_eq (by rw [kind_eq]; decide) hok
    · have hrule : Construct.ofKind? n.kind = some .creation := by rw [parent_kind]; decide
      refine exists_records_of_parent g hplace rfl (by rw [kind_eq]; decide) hrule (by decide)
        fun _ _ _ _ _ _ hok => ?_
      exact Rule.creation_records hleft hright helements field_eq hok
  | @exported n above parent_kind kind_eq child_eq default_eq declaration_eq =>
    have hrule : Construct.ofKind? n.kind = some .exporting := by rw [parent_kind]; decide
    refine exists_records_of_parent g hplace rfl (by rw [kind_eq]; decide) hrule (by decide)
      fun i j hn hcompound hshape _ _ => ?_
    exact Rule.exporting_records hn hcompound hshape h.stands child_eq default_eq declaration_eq
      hleft hright hl (hone (by rw [kind_eq]; decide)) h.right_at hlm
  | @clauses n above parent_kind kind_eq field_eq =>
    have hrule : Construct.ofKind? n.kind = some .switch := by rw [parent_kind]; decide
    rw [Node.elementLevels, if_pos kind_eq] at helements
    refine exists_records_of_parent g hplace rfl (by rw [kind_eq]; decide) hrule (by decide)
      fun _ _ _ _ _ _ hok => ?_
    exact Rule.switch_records hleft hright field_eq helements hok

end Owner

/-! ## the entries at the end of the analysis -/

section Lasting

variable (h : s.Delimits list items k m left right)
  (hlist : list.Delimited s.buffer opening closing items) (harranged : list.Arranged ancestors)
  (horderly : s.Orderly) (hplace : ⟨list, ancestors⟩ ∈ s.root.visited []) {caseLevels : Int}

include h hlist harranged horderly hplace

/-- What the elements of a list have recorded for them by its owner lasts. -/
theorem Delimits.get?_of_elements {e : Entry}
    (he : e ∈ Entry.elements s (list.codeChildren.map .node) (some left) (some right)
      (Node.elementLevels caseLevels list)) {l : Nat} (hl : s.At l e.token)
    (hslot : s.Slot list k m l)
    (hsemicolon : e.token.isSemicolon = true → list.kind ≠ "class_body" ∧ l < m)
    (hsame : ∀ d : Entry, d.token = e.token → left.isOpeningParen = true ∧ l < m ∧
      d = ⟨d.token, some left, 1⟩ ∨ l = m ∧ d = ⟨d.token, some left, 0⟩ → d = e) :
    (s.analyze caseLevels).registry.get? e.token = some e := by
  have g := horderly.grammatical
  have hkl := hslot.lt
  have hlm := hslot.le
  have helements : (Draft.elements s list.codeChildren left right
      (Node.elementLevels caseLevels list)).Records e := by
    refine Draft.records_elements he fun t ht c hc hfirst => ?_
    obtain rfl := Option.some.inj ht
    obtain ⟨a, b, hstands, -, hab, hbm⟩ := h.element hlist hc
    have := eq_of_getElem? ((hstands.ends hab).first?_eq.symm.trans hfirst) h.right_at
    omega
  obtain ⟨p, construct, i, j, hp, howns, hn, hcompound, hrule, hrecords⟩ :=
    h.exists_records hlist harranged g hplace hl hkl hlm helements
  -- the list stands in its owner
  have hwithin : list.Within p.node := by
    cases howns with
    | itself => exact .refl list
    | parent _ mem => exact .of_mem (Node.mem_children_of_mem_codeChildren mem)
  have hij := hn.le_of_within h.stands (by omega) hwithin
  have hcommon : ∀ d ∈ Rule.common s p.node, d.Elsewhere s l := fun d hd => by
    refine Rule.common_elsewhere hn (by omega) (by omega) hl (fun _ ht => ?_) hd
    have := (hsemicolon ht).2
    omega
  obtain ⟨draft, hdraft, hrecords⟩ := Rule.visit?_records hrule hrecords hl hcommon
  refine h.get?_of_records hlist harranged horderly hplace hp howns hn hcompound hdraft hrecords hl
    hslot (fun hkind => ?_) hsame
  exact Bool.eq_false_iff.2 fun ht => (hsemicolon ht).1 hkind

variable (caseLevels) in
/-- In the end each element of a list is placed relative to the opening delimiter. -/
theorem Delimits.get?_element {c : Node} (hc : c ∈ list.codeChildren) :
    ∃ a t, k < a ∧ s.At a t ∧ s.firstOfNode? c = some t ∧
      (s.analyze caseLevels).registry.get? t =
        some ⟨t, some left, Node.elementLevels caseLevels list⟩ := by
  obtain ⟨a, b, hstands, hka, hab, -⟩ := h.element hlist hc
  obtain ⟨hslot, ham⟩ := h.slot_of_element hlist harranged horderly hplace hc hstands
  obtain ⟨t, ht, hfirst⟩ := (hstands.ends hab).exists_first?
  refine ⟨a, t, hka, ht, hfirst, ?_⟩
  have hne : t ≠ left := by
    rintro rfl
    have := eq_of_getElem? ht h.left_at
    omega
  refine h.get?_of_elements (e := ⟨t, some left, _⟩) hlist harranged horderly hplace
    (mem_elements.2 (.inl ⟨c, hc, t, hfirst, hne, rfl⟩)) ht hslot
    (fun hsemicolon => ⟨fun hkind => ?_, ham⟩) fun d htoken hcases => ?_
  · rw [Token.isSemicolon, Token.isPunctuator, Bool.and_eq_true, beq_iff_eq, beq_iff_eq]
      at hsemicolon
    obtain ⟨hitem, hcode⟩ := hlist.mem_codeChildren.1 hc
    exact hlist.begins hkind c hitem hcode (hsemicolon.2 ▸ hstands.begins hab ht)
  · rcases hcases with ⟨hopening, -, heq⟩ | ⟨ham', -⟩
    · rw [heq, htoken, h.elementLevels_eq harranged horderly.grammatical hplace hopening]
    · omega

variable (caseLevels) in
/-- In the end the closing delimiter is flush with the opening one. -/
theorem Delimits.get?_closing : (s.analyze caseLevels).registry.get? right =
    some ⟨right, some left, 0⟩ := by
  have hkm := h.lt
  have hne : right ≠ left := by
    rintro rfl
    have := eq_of_getElem? h.right_at h.left_at
    omega
  refine h.get?_of_elements (e := ⟨right, some left, 0⟩) hlist harranged horderly hplace
    (mem_elements.2 (.inr ⟨right, rfl, hne, rfl⟩)) h.right_at
    (h.slot_of_closing hlist harranged horderly hplace) (fun hsemicolon => ?_)
    fun d htoken hcases => ?_
  · simp [h.right_semicolon] at hsemicolon
  · rcases hcases with ⟨-, hlt, -⟩ | ⟨-, heq⟩
    · omega
    · rw [heq, htoken]

end Lasting

end Source

end ScriptIndent
