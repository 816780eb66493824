import ScriptIndent.Proofs.Rule.Lasting

/-!
# ScriptIndent.Proofs.Rule.Imports

Imports of names in braces.

```
the keyword and the opening brace            import {
each name is indented from the brace           a,
                                               b as c
the closing brace is flush with the keyword  } from "m";
```

Behind a default both braces are one level deeper than the keyword:

```
the keyword, the default and the brace       import d, {
                                               a
                                               } from "m";
```

The rule places the names and the closing brace relative to the opening brace first.  Then it places
anew all of what stands before `from`, the names apart, relative to the keyword: so the closing
brace as well (`Source.ImportedNames.get?_brace`).
-/

namespace ScriptIndent

namespace Node

/-- What stands before the names of an import: nothing, or a name for the default and a comma. -/
inductive IsDefault (b : Buffer) : List Node → Prop
  | none : IsDefault b []
  | name {name comma : Node} (code : name.IsCode) (kind_eq : name.kind = "identifier")
      (children_eq : name.children = []) (comma_spells : comma.Spells b ",") :
      IsDefault b [name, comma]

/-- Names in braces, one at least, with commas between them. -/
structure BracesNames (b : Buffer) (n opening closing : Node) (items : List Node) : Prop where
  kind_eq : n.kind = "named_imports"
  isNamed : n.isNamed = true
  parts_eq : n.parts = opening :: (items ++ [closing])
  opening_spells : opening.Spells b "\x7b"
  closing_spells : closing.Spells b "\x7d"
  item_cases : ∀ c ∈ items, c.IsCode ∧ c.kind = "import_specifier" ∨ c.Spells b ","
  head : ∃ c rest, items = c :: rest ∧ c.IsCode ∧ c.kind = "import_specifier"

/-- An import of names in braces. -/
structure ImportsNames (b : Buffer) (n keyword clause word module names : Node)
    (front : List Node) : Prop where
  kind_eq : n.kind = "import_statement"
  parts_eq : ∃ rest, n.parts = keyword :: clause :: word :: module :: rest
  keyword_spells : keyword.Spells b "import"
  word_spells : word.Spells b "from"
  source : n.IsPart "source" module
  clause_kind : clause.kind = "import_clause"
  clause_named : clause.isNamed = true
  clause_parts : clause.parts = front ++ [names]
  front_default : IsDefault b front

/-- How many levels deeper than the keyword the braces are. -/
def braceLevels (front : List Node) : Int := if front.isEmpty then 0 else 1

variable {b : Buffer} {n keyword clause word module names opening closing : Node}
  {front items : List Node}

theorem BracesNames.isCompound (h : names.BracesNames b opening closing items) :
    names.IsCompound := by
  rw [IsCompound, isComment, h.kind_eq]
  decide

theorem ImportsNames.isCompound (h : n.ImportsNames b keyword clause word module names front) :
    n.IsCompound := by
  rw [IsCompound, isComment, h.kind_eq]
  decide

theorem ImportsNames.clause_isCompound
    (h : n.ImportsNames b keyword clause word module names front) : clause.IsCompound := by
  rw [IsCompound, isComment, h.clause_kind]
  decide

theorem ImportsNames.clause_mem (h : n.ImportsNames b keyword clause word module names front) :
    clause ∈ n.codeChildren := by
  obtain ⟨rest, hparts⟩ := h.parts_eq
  rw [codeChildren_eq_filter, List.mem_filter]
  exact ⟨by simp [hparts], h.clause_named⟩

theorem ImportsNames.names_mem (h : n.ImportsNames b keyword clause word module names front)
    (hbraces : names.BracesNames b opening closing items) : names ∈ clause.codeChildren := by
  rw [codeChildren_eq_filter, List.mem_filter]
  exact ⟨by simp [h.clause_parts], hbraces.isNamed⟩

end Node

namespace Source

variable {s : Source} {n keyword clause word module names opening closing : Node}
  {front items : List Node} {i p q j : Nat} {start left right sign token : Token}

/-! ## where the parts of an import stand -/

/-- The name of the default at place `i`, if there is one, and the comma behind it. -/
inductive DefaultStands (s : Source) : List Node → Nat → Nat → Prop
  | none {i : Nat} : s.DefaultStands [] i i
  | name {name comma : Node} {i : Nat} {t u : Token} (name_stands : s.Stands name i (i + 1))
      (name_at : s.At i t) (name_kind : t.kind = .identifier)
      (comma_stands : s.Stands comma (i + 1) (i + 2)) (comma_at : s.At (i + 1) u)
      (comma_value : u.value = ",") : s.DefaultStands [name, comma] i (i + 2)

/-- The tokens of an import of names: the keyword at place `i`, the braces at places `p` and `q`, and
`from` and the module behind them. -/
structure ImportedNames (s : Source) (n clause module names : Node) (front items : List Node)
    (i p q j : Nat) (start left right sign token : Token) : Prop where
  start_at : s.At i start
  start_value : start.value = "import"
  clause_stands : s.Stands clause (i + 1) (q + 1)
  front_stands : s.DefaultStands front (i + 1) p
  names_stands : s.Stands names p (q + 1)
  left_at : s.At p left
  left_brace : left.isOpeningBrace = true
  items_run : s.SpanRun items (p + 1) q
  right_at : s.At q right
  right_brace : right.isClosingBrace = true
  sign_at : s.At (q + 1) sign
  sign_value : sign.value = "from"
  token_at : s.At (q + 2) token
  token_first : s.firstOfNode? module = some token
  lt : q + 2 < j
  row : Rule.Row s (i + 1) (s.between start module)
  length : (s.between start module).length = q + 1 - i

/-- What stands before the names of an import. -/
theorem Stands.default (h : s.Stands clause i j) (hfront : Node.IsDefault s.buffer front)
    (hmem : ∀ c ∈ front, c ∈ clause.children) (hrun : s.SpanRun front i p) :
    s.DefaultStands front i p := by
  cases hfront with
  | none =>
    obtain rfl : i = p := hrun
    exact .none
  | @name name comma code kind_eq children_eq comma_spells =>
    obtain ⟨k, hname, l, hcomma, rfl⟩ := hrun
    have hname := h.of_spans (hmem name (by simp)) hname
    have hcomma := h.of_spans (hmem comma (by simp)) hcomma
    have hlt := h.lt_of_mem (Node.mem_codeChildren.2 ⟨hmem name (by simp), code⟩) hname
    obtain ⟨rfl, t, ht, htkind⟩ := hname.leaf hlt (by rw [kind_eq]; decide) (by simp [children_eq])
    rw [kind_eq, code.1] at htkind
    obtain ⟨rfl, u, hu, huvalue, -⟩ := hcomma.spells comma_spells (by decide)
    exact .name hname ht htkind hcomma hu huvalue

theorem exists_importedNames (hn : s.Stands n i j)
    (h : n.ImportsNames s.buffer keyword clause word module names front)
    (hbraces : names.BracesNames s.buffer opening closing items) :
    ∃ p q start left right sign token,
      s.ImportedNames n clause module names front items i p q j start left right sign token ∧
        s.firstOfNode? keyword = some start ∧ s.firstOfNode? opening = some left ∧
        s.firstOfNode? closing = some right := by
  have hmem (m : Node) : ∀ c ∈ m.parts, c ∈ m.children := fun c hc => (List.mem_filter.1 hc).1
  have hne (m c : Node) (hc : c ∈ m.parts) : m.children ≠ [] := List.ne_nil_of_mem (hmem m c hc)
  -- the parts of the statement
  obtain ⟨rest, hparts⟩ := h.parts_eq
  have hrun := hn.run_parts h.isCompound (hne n keyword (by simp [hparts]))
  rw [hparts] at hrun
  obtain ⟨a, hkeyword, c, hclause, d, hword, e, hmodule, hrest⟩ := hrun
  have hkeyword := hn.of_spans (hmem n keyword (by simp [hparts])) hkeyword
  have hclause := hn.of_spans (hmem n clause (by simp [hparts])) hclause
  have hword := hn.of_spans (hmem n word (by simp [hparts])) hword
  have hmodule := hn.of_spans (hmem n module (by simp [hparts])) hmodule
  obtain ⟨rfl, start, hstart, hstartValue, -⟩ := hkeyword.spells h.keyword_spells (by decide)
  obtain ⟨rfl, sign, hsign, hsignValue, -⟩ := hword.spells h.word_spells (by decide)
  have hlt := hn.lt_of_mem h.source.2 hmodule
  have hle := (hrest.chain (List.nil_sublist _)).le
  obtain ⟨token, htoken, hfirst⟩ := (hmodule.ends hlt).exists_first?
  -- those of the clause
  have hclauseRun := hclause.run_parts h.clause_isCompound (hne clause names (by simp [h.clause_parts]))
  rw [h.clause_parts] at hclauseRun
  obtain ⟨p, hfront, q', hnames, rfl⟩ := hclauseRun.append
  have hnames := hclause.of_spans (hmem clause names (by simp [h.clause_parts])) hnames
  -- and those of the names
  have hnamesRun := hnames.run_parts hbraces.isCompound (hne names opening (by simp [hbraces.parts_eq]))
  rw [hbraces.parts_eq] at hnamesRun
  obtain ⟨b, hopening, hinner⟩ := hnamesRun
  obtain ⟨q, hitems, q', hclosing, rfl⟩ := hinner.append
  have hopening := hnames.of_spans (hmem names opening (by simp [hbraces.parts_eq])) hopening
  have hclosing := hnames.of_spans (hmem names closing (by simp [hbraces.parts_eq])) hclosing
  obtain ⟨rfl, left, hleft, hleftValue, hleftKind⟩ :=
    hopening.spells hbraces.opening_spells (by decide)
  obtain ⟨rfl, right, hright, hrightValue, hrightKind⟩ :=
    hclosing.spells hbraces.closing_spells (by decide)
  have hfront := hclause.default h.front_default
    (fun c hc => hmem clause c (by simp [h.clause_parts, hc])) hfront
  obtain ⟨hrow, hlength⟩ := Rule.row_between (s.ends_token hstart) (hmodule.ends hlt)
  have := hclause.le
  exact ⟨p, q, start, left, right, sign, token, ⟨hstart, hstartValue, hclause, hfront, hnames, hleft,
    Rule.isPunctuator_of_value hleftValue hleftKind (by decide), hitems, hright,
    Rule.isPunctuator_of_value hrightValue hrightKind (by decide), hsign, hsignValue, htoken, hfirst,
    by omega, hrow, by omega⟩, (hkeyword.ends (by omega)).first?_eq.trans hstart,
    (hopening.ends (by omega)).first?_eq.trans hleft,
    (hclosing.ends (by omega)).first?_eq.trans hright⟩

/-! ## the names and the braces around them -/

/-- Among the items the names are the constructs. -/
theorem specifiers_eq (h : names.BracesNames s.buffer opening closing items) :
    names.codeChildren.filter (·.kind == "import_specifier") = items.filter (·.isNamed) := by
  have hparts : names.parts.filter (·.isNamed) = items.filter (·.isNamed) := by
    simp [h.parts_eq, h.opening_spells.anonymous, h.closing_spells.anonymous]
  rw [Node.codeChildren_eq_filter, hparts, List.filter_eq_self]
  intro c hc
  obtain ⟨hmem, hnamed⟩ := List.mem_filter.1 hc
  rcases h.item_cases c hmem with ⟨-, hkind⟩ | hspells
  · simp [hkind]
  · simp [hspells.anonymous] at hnamed

/-- The tokens of commas. -/
theorem value_of_commas {m : Node} {a b : Nat} (hm : s.Stands m a b) {cs : List Node}
    (hmem : ∀ c ∈ cs, c ∈ m.children) (hcommas : ∀ c ∈ cs, c.Spells s.buffer ",")
    (hrun : s.SpanRun cs i j) {k : Nat} (hik : i ≤ k) (hkj : k < j) {t : Token} (ht : s.At k t) :
    t.value = "," := by
  induction cs generalizing i with
  | nil =>
    obtain rfl : i = j := hrun
    omega
  | cons c rest ih =>
    obtain ⟨l, hc, hrest⟩ := hrun
    obtain ⟨rfl, u, hu, hvalue, -⟩ :=
      (hm.of_spans (hmem c (by simp)) hc).spells (hcommas c (by simp)) (by decide)
    rcases Nat.eq_or_lt_of_le hik with rfl | hlt
    · rw [Option.mem_unique ht hu, hvalue]
    · exact ih (fun x hx => hmem x (List.mem_cons_of_mem c hx))
        (fun x hx => hcommas x (List.mem_cons_of_mem c hx)) hrest hlt

theorem mem_children_of_items (h : names.BracesNames s.buffer opening closing items) {c : Node}
    (hc : c ∈ items) : c ∈ names.children :=
  (List.mem_filter.1 (show c ∈ names.parts by simp [h.parts_eq, hc])).1

namespace ImportedNames

variable (h : s.ImportedNames n clause module names front items i p q j start left right sign token)
  (hbraces : names.BracesNames s.buffer opening closing items)

include h

theorem lt_left : i < p := by
  cases h.front_stands <;> omega

theorem left_lt : p < q := by
  have := (h.items_run.chain (List.nil_sublist _)).le
  omega

/-- The tokens between the keyword and `from`. -/
theorem exists_before : ∃ before, s.between start module = before ++ [sign] ∧
    Rule.Row s (i + 1) before ∧ i + 1 + before.length = q + 1 := by
  have hip := h.lt_left
  have hpq := h.left_lt
  have hlength := h.length
  have hlast : (s.between start module).getLast? = some sign := by
    rw [List.getLast?_eq_getElem?, hlength, ← h.row.mem_of_at h.sign_at (by omega) (by omega)]
    congr 1
  obtain ⟨before, hbefore⟩ := List.getLast?_eq_some_iff.1 hlast
  have hrow := h.row
  rw [hbefore] at hrow hlength
  simp only [List.length_append, List.length_singleton] at hlength
  exact ⟨before, hbefore, hrow.append.1, by omega⟩

/-- The tokens between the braces. -/
theorem mem_between {k : Nat} {t : Token} (ht : s.At k t) :
    t ∈ s.between left right ↔ p < k ∧ k < q := by
  have hpq := h.left_lt
  obtain ⟨hrow, hlength⟩ := Rule.row_between (s.ends_token h.left_at) (s.ends_token h.right_at)
  constructor
  · intro hmem
    obtain ⟨l, hpl, hlq, hl⟩ := hrow.mem hmem
    obtain rfl := eq_of_getElem? ht hl
    omega
  · rintro ⟨hpk, hkq⟩
    exact List.mem_of_getElem? (hrow.mem_of_at ht (by omega) (by omega))

include hbraces

/-- The first brace behind the last name is the closing one: only commas stand between. -/
theorem afterWhere?_last {tail : Node} (htail : (items.filter (·.isNamed)).getLast? = some tail) :
    s.afterWhere? Token.isClosingBrace tail = some right := by
  obtain ⟨before, hbefore⟩ := List.getLast?_eq_some_iff.1 htail
  obtain ⟨xs, behind, hitems, -, hbehind⟩ := List.filter_eq_append_iff.1 hbefore
  obtain ⟨more, ys, rfl, -, hnamed, hys⟩ := List.filter_eq_cons_iff.1 hbehind
  have hmem : ∀ c ∈ xs ++ (more ++ tail :: ys), c ∈ names.children :=
    fun c hc => mem_children_of_items hbraces (hitems ▸ hc)
  have hcommas : ∀ c ∈ ys, c.Spells s.buffer "," := by
    intro c hc
    refine (hbraces.item_cases c (by simp [hitems, hc])).resolve_left fun hcode => ?_
    exact List.filter_eq_nil_iff.1 hys c hc hcode.1.1
  have hrun := h.items_run
  rw [hitems] at hrun
  obtain ⟨_, -, hrun⟩ := hrun.append
  obtain ⟨a, -, b, htail, hys⟩ := hrun.append
  have hstands := h.names_stands.of_spans (hmem tail (by simp)) htail
  have hcode := ((hbraces.item_cases tail (by simp [hitems])).resolve_right fun hspells => by
    simp [hspells.anonymous] at hnamed).1
  have hab := h.names_stands.lt_of_mem (Node.mem_codeChildren.2 ⟨hmem tail (by simp), hcode⟩) hstands
  have hbq := (hys.chain (List.nil_sublist _)).le
  obtain ⟨l, u, hbl, hlq, hu, hbrace, hscan⟩ := Source.exists_scanUp hbq h.right_at h.right_brace
  rw [(hstands.ends hab).afterWhere?_eq, hscan]
  rcases Nat.eq_or_lt_of_le hlq with rfl | hlt
  · exact hu.symm.trans h.right_at
  · have hvalue := value_of_commas h.names_stands (fun c hc => hmem c (by simp [hc])) hcommas hys hbl
      hlt hu
    simp [Token.isClosingBrace, Token.isPunctuator, hvalue] at hbrace

/-- The rule places the names, and the closing brace, relative to the opening brace. -/
theorem importPart_eq : Rule.importPart s n names =
    (Draft.elements s (items.filter (·.isNamed)) left (some right) 1 >>= fun _ =>
      pure (s.between left right)) := by
  obtain ⟨head, rest, hitems, hcode, -⟩ := hbraces.head
  obtain ⟨tail, htail⟩ : ∃ tail, (items.filter (·.isNamed)).getLast? = some tail := by
    rw [← Option.isSome_iff_exists, List.getLast?_isSome, hitems, List.filter_cons_of_pos hcode.1]
    exact List.cons_ne_nil _ _
  have hhead : (items.filter (·.isNamed)).head? = some head := by
    rw [hitems, List.filter_cons_of_pos hcode.1, List.head?_cons]
  have hrun := h.items_run
  rw [hitems] at hrun
  obtain ⟨b, hspans, -⟩ := hrun
  have hmem := mem_children_of_items hbraces (show head ∈ items by simp [hitems])
  have hstands := h.names_stands.of_spans hmem hspans
  obtain ⟨t, hbefore, ht⟩ := Rule.before?_eq_at hstands
    (h.names_stands.lt_of_mem (Node.mem_codeChildren.2 ⟨hmem, hcode⟩) hstands) (by omega)
  obtain rfl := Option.mem_unique ht h.left_at
  rw [Rule.importPart, if_neg (by simp [hbraces.kind_eq]), if_pos (by simp [hbraces.kind_eq]),
    specifiers_eq hbraces]
  simp only [hhead, htail, hbefore, h.afterWhere?_last hbraces htail, Draft.require, pure_bind]

/-- The parts of the clause are placed as the names are. -/
theorem importParts_eq (himports : n.ImportsNames s.buffer keyword clause word module names front) :
    Rule.importParts s n clause.codeChildren =
      (Draft.elements s (items.filter (·.isNamed)) left (some right) 1 >>= fun _ =>
        pure (s.between left right)) := by
  have hpart := h.importPart_eq hbraces
  have hrest : Rule.importParts s n [names] =
      (Draft.elements s (items.filter (·.isNamed)) left (some right) 1 >>= fun _ =>
        pure (s.between left right)) := by
    rw [Rule.importParts, Rule.importParts, hpart]
    simp only [bind_assoc, pure_bind, List.append_nil]
  have hdefault := himports.front_default
  rw [Node.codeChildren_eq_filter, himports.clause_parts]
  cases hdefault with
  | none => rw [List.nil_append, List.filter_cons_of_pos hbraces.isNamed, List.filter_nil, hrest]
  | @name name comma code kind_eq _ comma_spells =>
    have hname : Rule.importPart s n name = pure [] := by
      rw [Rule.importPart, if_neg (by simp [kind_eq]), if_neg (by simp [kind_eq])]
    have hfilter : ([name, comma] ++ [names]).filter (·.isNamed) = [name, names] := by
      simp [code.1, comma_spells.anonymous, hbraces.isNamed]
    rw [hfilter, Rule.importParts, hname, hrest]
    simp only [bind_assoc, pure_bind, List.nil_append]

omit hbraces in
/-- What stands before the opening brace, behind the keyword, is no brace. -/
theorem exists_default (hfront : front ≠ []) :
    ∃ t, s.At (i + 1) t ∧ i + 1 < p ∧ t.isBrace = false := by
  cases h.front_stands with
  | none => exact absurd rfl hfront
  | name _ name_at name_kind =>
    refine ⟨_, name_at, by omega, ?_⟩
    simp [Token.isBrace, Token.isOpeningBrace, Token.isClosingBrace, Token.isPunctuator, name_kind]

omit hbraces in
/-- Of the tokens before `from`, those that do not stand between the braces. -/
theorem mem_around {before : List Token} (hrow : Rule.Row s (i + 1) before)
    (hlength : i + 1 + before.length = q + 1) {t : Token} :
    t ∈ before.filter (!(s.between left right).contains ·) ↔
      ∃ k, s.At k t ∧ (i < k ∧ k ≤ p ∨ k = q) := by
  have hip := h.lt_left
  have hpq := h.left_lt
  simp only [List.mem_filter, Bool.not_eq_true', ← Bool.not_eq_true, List.contains_iff_mem]
  constructor
  · rintro ⟨ht, hbetween⟩
    obtain ⟨k, hik, hkq, hk⟩ := hrow.mem ht
    rw [h.mem_between hk] at hbetween
    exact ⟨k, hk, by omega⟩
  · rintro ⟨k, hk, hcases⟩
    rw [h.mem_between hk]
    exact ⟨List.mem_of_getElem? (hrow.mem_of_at hk (by omega) (by omega)), by omega⟩

omit hbraces in
/-- Without a default these are the braces, and nothing else. -/
theorem all_isBrace_iff {tokens : List Token}
    (hmem : ∀ t, t ∈ tokens ↔ ∃ k, s.At k t ∧ (i < k ∧ k ≤ p ∨ k = q)) :
    tokens.all Token.isBrace = true ↔ front = [] := by
  rw [List.all_eq_true]
  constructor
  · intro hall
    by_contra hfront
    obtain ⟨t, ht, htp, hbrace⟩ := h.exists_default hfront
    simp [hall t ((hmem t).2 ⟨_, ht, by omega⟩)] at hbrace
  · rintro rfl t ht
    have hp : p = i + 1 := by
      cases h.front_stands
      rfl
    obtain ⟨k, hk, ⟨hik, hkp⟩ | rfl⟩ := (hmem t).1 ht
    · obtain rfl : k = p := by omega
      obtain rfl := Option.mem_unique hk h.left_at
      simp [Token.isBrace, h.left_brace]
    · obtain rfl := Option.mem_unique hk h.right_at
      simp [Token.isBrace, h.right_brace]

/-- Then the rule places what stands before the names, and both braces, relative to the keyword. -/
theorem exists_importing_eq (hn : s.Stands n i j)
    (himports : n.ImportsNames s.buffer keyword clause word module names front) :
    ∃ tokens, (∀ t, t ∈ tokens ↔ ∃ k, s.At k t ∧ (i < k ∧ k ≤ p ∨ k = q)) ∧ Rule.importing s n =
      (Draft.elements s (items.filter (·.isNamed)) left (some right) 1 >>= fun _ =>
        Draft.offsets tokens (Node.braceLevels front) start >>= fun _ =>
          Draft.offset sign 0 start >>= fun _ => Draft.offsets [token] 1 sign) := by
  have hpq := h.left_lt
  have hlt := h.lt
  obtain ⟨before, hbefore, hrow, hlength⟩ := h.exists_before
  have hmem (t : Token) := h.mem_around (t := t) hrow hlength
  have hlevels : (if (before.filter (!(s.between left right).contains ·)).all Token.isBrace
      then (0 : Int) else 1) = Node.braceLevels front := by
    simp only [h.all_isBrace_iff hmem, Node.braceLevels, List.isEmpty_iff]
  refine ⟨_, hmem, ?_⟩
  have hfirst : s.firstOfNode? n = some start := (hn.ends (by omega)).first?_eq.trans h.start_at
  have hclause : n.childOfKind? "import_clause" = some clause := by
    obtain ⟨rest, hparts⟩ := himports.parts_eq
    refine Node.childOfKind?_of_parts (show n.parts = [keyword] ++ clause :: _ from hparts) ?_
      himports.clause_kind (by decide)
    simp [himports.keyword_spells.kind_eq]
  have hsign : Rule.isFrom sign = true := by rw [Rule.isFrom, h.sign_value]; rfl
  rw [Rule.importing, Draft.first_bind hfirst, himports.source.1, Draft.part, pure_bind,
    Draft.first_bind h.token_first, hbefore, Rule.ImportHead.of_append hsign, hclause,
    Option.elim_some]
  dsimp only
  rw [h.importParts_eq hbraces himports, bind_assoc]
  simp only [pure_bind]
  rw [hlevels]

variable (hn : s.Stands n i j)
  (himports : n.ImportsNames s.buffer keyword clause word module names front)

include hn himports

/-- The rule records the names below the opening brace. -/
theorem records_name {c : Node} (hc : c ∈ items) (hkind : c.kind = "import_specifier") {k : Nat}
    {t : Token} (hfirst : s.firstOfNode? c = some t) (ht : s.At k t) (hpk : p < k) (hkq : k < q) :
    (Rule.importing s n).Records ⟨t, some left, 1⟩ := by
  have hip := h.lt_left
  obtain ⟨tokens, hmem, himporting⟩ := h.exists_importing_eq hbraces hn himports
  have hcode := ((hbraces.item_cases c hc).resolve_right fun hspells =>
    absurd (hkind.symm.trans hspells.kind_eq) (by decide)).1
  have hleft : t ≠ left := by
    rintro rfl
    have := eq_of_getElem? ht h.left_at
    omega
  have helements : (Draft.elements s (items.filter (·.isNamed)) left (some right) 1).Records
      ⟨t, some left, 1⟩ := by
    refine Draft.records_write
      (mem_elements.2 (.inl ⟨c, List.mem_filter.2 ⟨hc, hcode.1⟩, t, hfirst, hleft, rfl⟩)) ?_
    intro d hd heq
    rcases mem_elements.1 hd with ⟨c', -, t', -, -, rfl⟩ | ⟨t', hright, -, rfl⟩
    · obtain rfl : t' = t := heq
      rfl
    · obtain rfl : t' = t := heq
      obtain rfl := Option.some.inj hright
      have := eq_of_getElem? ht h.right_at
      omega
  rw [himporting]
  refine helements.elsewhere ht (Draft.Meets.next ?_ (Draft.Meets.next ?_ ?_))
  · refine Draft.meets_offsets_elsewhere fun u hu => ?_
    obtain ⟨l, hl, hcases⟩ := (hmem u).1 hu
    exact ⟨l, by omega, hl⟩
  · exact Draft.meets_offset_elsewhere (by omega) h.sign_at
  · exact Draft.meets_offset_elsewhere (by omega) h.token_at

/-- The rule records the braces, and what stands before them, below the keyword. -/
theorem records_brace {k : Nat} {t : Token} (ht : s.At k t) (hk : i < k ∧ k ≤ p ∨ k = q) :
    (Rule.importing s n).Records ⟨t, some start, Node.braceLevels front⟩ := by
  have hip := h.lt_left
  have hpq := h.left_lt
  obtain ⟨tokens, hmem, himporting⟩ := h.exists_importing_eq hbraces hn himports
  have hne : t ≠ start := by
    rintro rfl
    have := eq_of_getElem? ht h.start_at
    omega
  rw [himporting]
  refine (Draft.meets_write (E := fun _ => True) fun _ _ => trivial).records fun _ _ => ?_
  refine (Draft.records_offsets ((hmem t).2 ⟨k, ht, hk⟩) hne).elsewhere ht (Draft.Meets.next ?_ ?_)
  · exact Draft.meets_offset_elsewhere (by omega) h.sign_at
  · exact Draft.meets_offset_elsewhere (by omega) h.token_at

omit hbraces in
/-- Where the parts of the clause are cut, nothing in the import reaches over. -/
theorem outside_of_clause {k : Nat} (hik : i < k) (hkq : k ≤ q + 1) (hout : s.Outside clause k) :
    s.Outside n k := by
  refine hn.outside_of_child himports.isCompound himports.clause_mem ?_ h.clause_stands (by omega)
    hkq hout
  refine ⟨?_, ?_, ?_⟩ <;> rw [himports.clause_kind] <;> decide

/-- Where the items are cut, nothing in the import reaches over. -/
theorem exists_cut {xs ys : List Node} (hitems : items = xs ++ ys) :
    ∃ k, s.SpanRun xs (p + 1) k ∧ s.SpanRun ys k q ∧ s.Outside n k := by
  have hip := h.lt_left
  have hmem (c : Node) (hc : c ∈ names.parts) : c ∈ names.children := (List.mem_filter.1 hc).1
  have hopening := hmem opening (by simp [hbraces.parts_eq])
  have hclosing := hmem closing (by simp [hbraces.parts_eq])
  have hparts : names.parts = (opening :: xs) ++ (ys ++ [closing]) := by
    simp [hbraces.parts_eq, hitems]
  have hrun := h.names_stands.run_parts hbraces.isCompound (List.ne_nil_of_mem hopening)
  rw [hparts] at hrun
  obtain ⟨k, hxs, hys⟩ := hrun.append
  have hpk := (hxs.chain (List.nil_sublist _)).le
  have hkq := (hys.chain (List.nil_sublist _)).le
  have hout := h.names_stands.outside_of_parts hbraces.isCompound (List.ne_nil_of_mem hopening) hparts
    hxs hys
  obtain ⟨b, hspans, hxs⟩ := hxs
  obtain ⟨rfl, -⟩ :=
    (h.names_stands.of_spans hopening hspans).spells hbraces.opening_spells (by decide)
  obtain ⟨q', hys, e, hspans, rfl⟩ := hys.append
  obtain ⟨hq, -⟩ := (h.names_stands.of_spans hclosing hspans).spells hbraces.closing_spells (by decide)
  obtain rfl : q = q' := by omega
  have hsilent : names.IsSilent := by
    refine ⟨?_, ?_, ?_⟩ <;> rw [hbraces.kind_eq] <;> decide
  refine ⟨k, hxs, hys, h.outside_of_clause hn himports (by omega) hkq ?_⟩
  exact h.clause_stands.outside_of_child himports.clause_isCompound (himports.names_mem hbraces)
    hsilent h.names_stands hpk hkq hout

omit hbraces in
/-- Before the names, nothing in the import reaches over a place. -/
theorem outside_of_front {k : Nat} (hik : i < k) (hkp : k ≤ p) : s.Outside n k := by
  have hpq := h.left_lt
  have hcut {xs ys : List Node} (hparts : clause.parts = xs ++ ys) (hxs : s.SpanRun xs (i + 1) k)
      (hys : s.SpanRun ys k (q + 1)) : s.Outside n k := by
    have hmem : names ∈ clause.children :=
      (List.mem_filter.1 (show names ∈ clause.parts by simp [himports.clause_parts])).1
    exact h.outside_of_clause hn himports hik (by omega) (h.clause_stands.outside_of_parts
      himports.clause_isCompound (List.ne_nil_of_mem hmem) hparts hxs hys)
  have hnames : s.SpanRun [names] p (q + 1) := ⟨_, h.names_stands.spans, rfl⟩
  have hparts := himports.clause_parts
  obtain ⟨m, hm⟩ : ∃ m, k = i + 1 + m := ⟨k - (i + 1), by omega⟩
  cases h.front_stands with
  | none =>
    obtain rfl : k = i + 1 := by omega
    exact hcut (show _ = [] ++ [names] from hparts) rfl hnames
  | @name name comma _ _ _ name_stands _ _ comma_stands =>
    match m, hm with
    | 0, hm =>
      obtain rfl := hm
      exact hcut (show _ = [] ++ [name, comma, names] from hparts) rfl
        ⟨_, name_stands.spans, _, comma_stands.spans, hnames⟩
    | 1, hm =>
      obtain rfl := hm
      exact hcut (show _ = [name] ++ [comma, names] from hparts) ⟨_, name_stands.spans, rfl⟩
        ⟨_, comma_stands.spans, hnames⟩
    | m + 2, hm =>
      obtain rfl : k = i + 1 + 2 := by omega
      exact hcut (show _ = [name, comma] ++ [names] from hparts)
        ⟨_, name_stands.spans, _, comma_stands.spans, rfl⟩ hnames

omit hbraces hn himports in
/-- There are no parentheses before the names. -/
theorem calm_of_front {k : Nat} (hik : i < k) (hkp : k ≤ p) : s.Calm k := by
  have hparen {l : Nat} {t : Token} (hil : i ≤ l) (hlp : l ≤ p) (ht : s.At l t) :
      t.isOpeningParen = false ∧ t.isClosingParen = false := by
    have hvalue : t.value = "import" ∨ t.kind = .identifier ∨ t.value = "," ∨ t.value = "\x7b" := by
      rcases Nat.eq_or_lt_of_le hil with rfl | hil
      · exact .inl (Option.mem_unique ht h.start_at ▸ h.start_value)
      rcases Nat.eq_or_lt_of_le hlp with rfl | hlp
      · obtain rfl := Option.mem_unique ht h.left_at
        have hbrace := h.left_brace
        simp only [Token.isOpeningBrace, Token.isPunctuator, Bool.and_eq_true, beq_iff_eq] at hbrace
        exact .inr (.inr (.inr hbrace.2))
      cases h.front_stands with
      | none => omega
      | name _ name_at name_kind _ comma_at comma_value =>
        rcases Nat.eq_or_lt_of_le (show i + 1 ≤ l from hil) with rfl | hil
        · exact .inr (.inl (Option.mem_unique ht name_at ▸ name_kind))
        · obtain rfl : l = i + 1 + 1 := by omega
          exact .inr (.inr (.inl (Option.mem_unique ht comma_at ▸ comma_value)))
    rcases hvalue with hvalue | hkind | hvalue | hvalue
    · simp [Token.isOpeningParen, Token.isClosingParen, Token.isPunctuator, hvalue]
    · simp [Token.isOpeningParen, Token.isClosingParen, Token.isPunctuator, hkind]
    · simp [Token.isOpeningParen, Token.isClosingParen, Token.isPunctuator, hvalue]
    · simp [Token.isOpeningParen, Token.isClosingParen, Token.isPunctuator, hvalue]
  exact ⟨fun ht => (hparen (by omega) hkp ht).2,
    fun hl ht => (hparen (by omega) (by omega) ht).1⟩

end ImportedNames

/-! ## the entries at the end of the analysis -/

section Lasting

variable {ancestors : List Node} {caseLevels : Int}
  (h : s.ImportedNames n clause module names front items i p q j start left right sign token)
  (hbraces : names.BracesNames s.buffer opening closing items) (hn : s.Stands n i j)
  (himports : n.ImportsNames s.buffer keyword clause word module names front)
  (horderly : s.Orderly) (hplace : ⟨n, ancestors⟩ ∈ s.root.visited [])

/-- The names are visited. -/
theorem exists_visited_of_items {n names : Node}
    (hbraces : names.BracesNames s.buffer opening closing items)
    (himports : n.ImportsNames s.buffer keyword clause word module names front)
    (hplace : ⟨n, ancestors⟩ ∈ s.root.visited []) {c : Node} (hc : c ∈ items) (hcode : c.IsCode) :
    ⟨c, names :: clause :: n :: ancestors⟩ ∈ s.root.visited [] := by
  have hrule : Construct.ofKind? n.kind = some .importing := by rw [himports.kind_eq]; decide
  have hclauseRule : Construct.ofKind? clause.kind = some .plain := by
    rw [himports.clause_kind]; decide
  have hnamesRule : Construct.ofKind? names.kind = some .plain := by rw [hbraces.kind_eq]; decide
  have hclause := Node.child_mem_visited hplace hrule himports.clause_mem
  have hnames := Node.child_mem_visited hclause hclauseRule (himports.names_mem hbraces)
  exact Node.child_mem_visited hnames hnamesRule
    (Node.mem_codeChildren.2 ⟨mem_children_of_items hbraces hc, hcode⟩)

include h hbraces himports horderly hplace

/-- Where the items are cut, no parenthesis opens or closes. -/
theorem ImportedNames.calm {xs ys : List Node} (hitems : items = xs ++ ys) {k : Nat}
    (hxs : s.SpanRun xs (p + 1) k) (hys : s.SpanRun ys k q) : s.Calm k := by
  have hvisited {c : Node} (hc : c ∈ items) (hcode : c.IsCode) :=
    horderly.balanced _ (exists_visited_of_items hbraces himports hplace hc hcode)
  have hstands {c : Node} (hc : c ∈ items) {a b : Nat} (hspans : s.Spans c a b) : s.Stands c a b :=
    h.names_stands.of_spans (mem_children_of_items hbraces hc) hspans
  have hlt {c : Node} (hc : c ∈ items) (hcode : c.IsCode) {a b : Nat} (hc' : s.Stands c a b) : a < b :=
    h.names_stands.lt_of_mem
      (Node.mem_codeChildren.2 ⟨mem_children_of_items hbraces hc, hcode⟩) hc'
  refine ⟨fun {t} ht => ?_, fun {l t} hl ht => ?_⟩
  · cases ys with
    | nil =>
      obtain rfl : k = q := hys
      obtain rfl := Option.mem_unique ht h.right_at
      have hbrace := h.right_brace
      simp only [Token.isClosingBrace, Token.isPunctuator, Bool.and_eq_true, beq_iff_eq] at hbrace
      simp [Token.isClosingParen, Token.isPunctuator, hbrace.2]
    | cons c rest =>
      have hc : c ∈ items := by simp [hitems]
      obtain ⟨b, hspans, -⟩ := hys
      rcases hbraces.item_cases c hc with ⟨hcode, -⟩ | hspells
      · exact (hstands hc hspans).isClosingParen (hlt hc hcode (hstands hc hspans)) (hvisited hc hcode) ht
      · obtain ⟨rfl, u, hu, hvalue, -⟩ := (hstands hc hspans).spells hspells (by decide)
        obtain rfl := Option.mem_unique ht hu
        simp [Token.isClosingParen, Token.isPunctuator, hvalue]
  · obtain rfl | ⟨front', c, rfl⟩ := List.eq_nil_or_concat' xs
    · obtain rfl : p + 1 = k := hxs
      obtain rfl : l = p := by omega
      obtain rfl := Option.mem_unique ht h.left_at
      have hbrace := h.left_brace
      simp only [Token.isOpeningBrace, Token.isPunctuator, Bool.and_eq_true, beq_iff_eq] at hbrace
      simp [Token.isOpeningParen, Token.isPunctuator, hbrace.2]
    · have hc : c ∈ items := by simp [hitems]
      obtain ⟨a, -, b, hspans, rfl⟩ := hxs.append
      obtain rfl : l = b - 1 := by omega
      rcases hbraces.item_cases c hc with ⟨hcode, -⟩ | hspells
      · exact (hstands hc hspans).isOpeningParen (hlt hc hcode (hstands hc hspans)) (hvisited hc hcode) ht
      · obtain ⟨rfl, u, hu, hvalue, -⟩ := (hstands hc hspans).spells hspells (by decide)
        obtain rfl := Option.mem_unique ht hu
        simp [Token.isOpeningParen, Token.isPunctuator, hvalue]

include hn

omit hbraces in
/-- What the rule records behind the keyword, and before `from`, lasts. -/
theorem ImportedNames.get?_of_records {k : Nat} {e : Entry} (hk : s.At k e.token) (hik : i < k)
    (hkq : k ≤ q) (hrecords : (Rule.importing s n).Records e) (hcalm : s.Calm k)
    (hout : s.Outside n k) : (s.analyze caseLevels).registry.get? e.token = some e := by
  have hlt := h.lt
  have hrule : Construct.ofKind? n.kind = some .importing := by rw [himports.kind_eq]; decide
  have hkind : n.kind ≠ "class_body" := by rw [himports.kind_eq]; decide
  exact horderly.get?_of_rule hplace hn hrule hkind hrecords hk hik (by omega)
    (fun d hd => Rule.common_elsewhere hn hik (by omega) hk (fun _ _ => by omega) hd) hcalm hout

/-- In the end each name is one level deeper than the opening brace. -/
theorem ImportedNames.get?_name {c : Node} (hc : c ∈ items) (hkind : c.kind = "import_specifier") :
    ∃ t, s.firstOfNode? c = some t ∧
      (s.analyze caseLevels).registry.get? t = some ⟨t, some left, 1⟩ := by
  have hip := h.lt_left
  obtain ⟨xs, ys, hitems⟩ := List.append_of_mem hc
  obtain ⟨k, hxs, hys, hout⟩ := h.exists_cut hbraces hn himports hitems
  have hcalm := h.calm hbraces himports horderly hplace hitems hxs hys
  have hpk := (hxs.chain (List.nil_sublist _)).le
  obtain ⟨b, hspans, hys⟩ := hys
  have hbq := (hys.chain (List.nil_sublist _)).le
  have hcode := ((hbraces.item_cases c hc).resolve_right fun hspells =>
    absurd (hkind.symm.trans hspells.kind_eq) (by decide)).1
  have hmem := mem_children_of_items hbraces hc
  have hstands := h.names_stands.of_spans hmem hspans
  have hkb := h.names_stands.lt_of_mem (Node.mem_codeChildren.2 ⟨hmem, hcode⟩) hstands
  obtain ⟨t, ht, hfirst⟩ := (hstands.ends hkb).exists_first?
  refine ⟨t, hfirst, ?_⟩
  exact h.get?_of_records hn himports horderly hplace (e := ⟨t, some left, 1⟩) ht (by omega)
    (by omega) (h.records_name hbraces hn himports hc hkind hfirst ht (by omega) (by omega)) hcalm hout

/-- In the end the braces, and what stands before them, are placed relative to the keyword. -/
theorem ImportedNames.get?_brace {k : Nat} {t : Token} (ht : s.At k t)
    (hk : i < k ∧ k ≤ p ∨ k = q) : (s.analyze caseLevels).registry.get? t =
      some ⟨t, some start, Node.braceLevels front⟩ := by
  have hip := h.lt_left
  have hpq := h.left_lt
  have hrecords := h.records_brace hbraces hn himports ht hk
  obtain ⟨hcalm, hout⟩ : s.Calm k ∧ s.Outside n k := by
    rcases hk with ⟨hik, hkp⟩ | rfl
    · exact ⟨h.calm_of_front hik hkp, h.outside_of_front hn himports hik hkp⟩
    · have hitems := (List.append_nil items).symm
      obtain ⟨l, hxs, hys, hout⟩ := h.exists_cut hbraces hn himports hitems
      have heq : l = k := hys
      subst heq
      exact ⟨h.calm hbraces himports horderly hplace hitems hxs hys, hout⟩
  exact h.get?_of_records hn himports horderly hplace (e := ⟨t, some start, _⟩) ht (by omega)
    (by omega) hrecords hcalm hout

end Lasting

end Source

end ScriptIndent
