import ScriptIndent.Proofs.Account.Access
import ScriptIndent.Proofs.Account.Clauses
import ScriptIndent.Proofs.Account.Modules
import ScriptIndent.Proofs.Account.Operators

/-!
# ScriptIndent.Proofs.Account.Tree

All tokens of a program are accounted for.

Each construct accounts for the tokens with which its parts begin, or the construct around it does
(`Source.partsBegin_child`).  So by induction on the tree all tokens are accounted for behind
the first (`Source.accountsFor`).
-/

namespace ScriptIndent

namespace Source

variable {s : Source} {caseLevels : Int} {n c : Node} {ancestors : List Node} {construct : Construct}
  {i j a b : Nat}

namespace Occurs

/-! ## constructs with a rule of their own -/

theorem partsBegin_program (h : s.Occurs n ancestors .program i j) :
    s.PartsBegin (s.Accounted caseLevels) n i := by
  intro c hc a b hstands _ _
  have hcode : ∀ c ∈ n.parts, c.IsCode := h.production
  exact h.accounted_program (Node.mem_codeChildren_of_parts hc (hcode c hc)) hstands

theorem partsBegin (h : s.Occurs n ancestors construct i j) (hplain : construct ≠ .plain)
    (htemplate : construct ≠ .templateLiteral) : s.PartsBegin (s.Accounted caseLevels) n i := by
  cases construct with
  | plain => exact absurd rfl hplain
  | templateLiteral => exact absurd rfl htemplate
  | program => exact h.partsBegin_program
  | arrayList => exact h.partsBegin_arrayList
  | objectList => exact h.partsBegin_objectList
  | block => exact h.partsBegin_block
  | staticBlock => exact h.partsBegin_staticBlock
  | sequence => exact h.partsBegin_sequence
  | declaration => exact h.partsBegin_declaration
  | declarator => exact h.partsBegin_declarator
  | chain => exact h.partsBegin_chain
  | ternary => exact h.partsBegin_ternary
  | operand => exact h.partsBegin_operand
  | yielding => exact h.partsBegin_yielding
  | conditional => exact h.partsBegin_conditional
  | headed => exact h.partsBegin_headed
  | doLoop => exact h.partsBegin_doLoop
  | forLoop => exact h.partsBegin_forLoop
  | forInLoop => exact h.partsBegin_forInLoop
  | switch => exact h.partsBegin_switch.1
  | clause => exact h.partsBegin_clause
  | guarded => exact h.partsBegin_guarded.1
  | handler => exact h.partsBegin_handler
  | labeled => exact h.partsBegin_labeled
  | jump => exact h.partsBegin_jump
  | exit => exact h.partsBegin_exit
  | function => exact h.partsBegin_function.1
  | arrow => exact h.partsBegin_arrow.1
  | method => exact h.partsBegin_method.1
  | classDefinition => exact h.partsBegin_classDefinition.1
  | fieldDefinition => exact h.partsBegin_fieldDefinition.1
  | pair => exact h.partsBegin_pair.1
  | member => exact h.partsBegin_access
  | subscript => exact h.partsBegin_subscript
  | metaProperty => exact h.partsBegin_metaProperty
  | call => exact h.partsBegin_call.1
  | creation => exact h.partsBegin_creation.1
  | importing => exact h.partsBegin_importing.1
  | importSpecifier => exact h.partsBegin_importSpecifier
  | aliased => exact h.partsBegin_aliased
  | exporting => exact h.partsBegin_exporting.1

/-! ## constructs whose tokens are placed by a construct around them -/

/-- The parts of a construct that answers to a field of the construct around it. -/
theorem partsBegin_of_field {home : String × Construct × String} (hhome : home ∈ Node.fieldHomes)
    (h : s.Occurs n ancestors home.2.1 i j) (hfield : n.field? home.2.2 = some c)
    (hkind : c.kind = home.1) (hc : s.Occurs c (n :: ancestors) .plain a b) :
    s.PartsBegin (s.Accounted caseLevels) c a := by
  simp only [Node.fieldHomes, List.mem_cons, List.not_mem_nil, or_false] at hhome
  rcases hhome with rfl | rfl | rfl | rfl | rfl | rfl | rfl | rfl | rfl | rfl | rfl
  · exact h.partsBegin_alternative hfield hkind hc
  · exact h.partsBegin_guarded.2 c a b hfield hkind hc
  · exact h.partsBegin_switch.2 c a b hfield hkind hc
  · exact h.partsBegin_call.2 c a b hfield hkind hc
  · exact h.partsBegin_creation.2 c a b hfield hkind hc
  · exact h.partsBegin_function.2 c a b hfield hkind hc
  · exact h.partsBegin_arrow.2 c a b hfield hkind hc
  · exact h.partsBegin_method.2.1 c a b hfield hkind hc
  · exact h.partsBegin_method.2.2 c a b hfield hkind hc
  · exact h.partsBegin_fieldDefinition.2 c a b hfield hkind hc
  · exact h.partsBegin_pair.2 c a b hfield hkind hc

/-- The parts of a construct that is the first of its kind in the construct around it. -/
theorem partsBegin_of_kind {home : String × Construct} (hhome : home ∈ Node.kindHomes)
    (h : s.Occurs n ancestors home.2 i j) (hkind : c.kind = home.1)
    (hchild : n.childOfKind? c.kind = some c) (hc : s.Occurs c (n :: ancestors) .plain a b) :
    s.PartsBegin (s.Accounted caseLevels) c a := by
  rw [hkind] at hchild
  simp only [Node.kindHomes, List.mem_cons, List.not_mem_nil, or_false] at hhome
  rcases hhome with rfl | rfl | rfl | rfl
  · exact h.partsBegin_classDefinition.2 c a b hchild hc
  · exact (h.partsBegin_importing.2 c a b hchild hc).1
  · exact h.partsBegin_exporting.2.2 c a b hchild hc
  · exact h.partsBegin_exporting.2.1 c a b hchild hc

/-- A statement of one part, and perhaps a semicolon. -/
theorem partsBegin_of_terminated (h : s.Occurs n ancestors .plain i j) (hn : n.IsCompound)
    (hstatement : Construct.isStatementKind n.kind = true) (hfield : n.kind ≠ "field_definition")
    (hparts : n.Terminated s.buffer [c]) (hlt : ∀ a b, s.Stands c a b → a < b) :
    s.PartsBegin (s.Accounted caseLevels) n i := by
  obtain ⟨e, -, ⟨k, hk, rfl⟩, hbegins⟩ := h.terminated caseLevels hn hstatement hfield hparts
  exact hbegins _ hk (hlt _ _ hk) rfl

/-- An expression in parentheses, and the closing parenthesis. -/
theorem partsBegin_of_parenthesizes (h : s.Occurs n ancestors .plain i j) {inner : Node}
    (hparts : n.Parenthesizes s.buffer inner) (hkind : Construct.isExpressionKind inner.kind = true) :
    s.PartsBegin (s.Accounted caseLevels) n i := by
  obtain ⟨left, right, hpair⟩ := h.stands.exists_pair hparts
  obtain ⟨hfirst, hlast⟩ := accounted_wrapped h.grammatical
    (Node.child_mem_visited h.place h.rule hparts.mem_codeChildren) caseLevels hkind hpair
  obtain ⟨hkind, -, opening, closing, hparts, hopening, hclosing⟩ := hparts
  obtain ⟨k, hk, l, hl, m, hm, rfl⟩ :=
    h.stands.standRun (isCompound_of_wrapper (by rw [hkind]; decide)) hparts (by simp)
  obtain rfl := (hk.spells hopening (by decide)).1
  obtain rfl := (hm.spells hclosing (by decide)).1
  exact .of_run hparts hk ⟨_, hl, hfirst, _, hm, hlast, rfl⟩

/-- The wrappers that account for their tokens by themselves. -/
theorem partsBegin_of_plain (h : s.Occurs n ancestors .plain i j) (hn : n.IsCompound)
    (hother : n.kind ∉ Node.wrapperKinds ∨ n.kind ∈
      ["expression_statement", "debugger_statement", "parenthesized_expression"]) :
    s.PartsBegin (s.Accounted caseLevels) n i := by
  have hplain : n.PlainProduction s.buffer := h.production
  rcases hother with hother | hkind
  · refine h.partsBegin_of_length_le hn ((hplain.leaf hother).resolve_left fun hatomic => ?_)
    simpa [Node.isLiteralKind, hatomic] using hn.2
  · simp only [List.mem_cons, List.not_mem_nil, or_false] at hkind
    rcases hkind with hkind | hkind | hkind
    · obtain ⟨c, hcode, hparts⟩ := hplain.expression hkind
      have hmem : c ∈ n.parts := by
        rcases hparts with hparts | ⟨_, -, hparts⟩ <;> simp [hparts]
      exact h.partsBegin_of_terminated hn (by rw [hkind]; decide) (by rw [hkind]; decide) hparts
        fun _ _ hstands => h.lt_of_isCode hmem hcode hstands
    · obtain ⟨word, hword, hparts⟩ := hplain.debugger hkind
      refine h.partsBegin_of_terminated hn (by rw [hkind]; decide) (by rw [hkind]; decide) hparts
        fun _ _ hstands => ?_
      have := hstands.lexeme hword
      omega
    · obtain ⟨inner, hparts, hkind⟩ := hplain.parenthesized hkind
      exact h.partsBegin_of_parenthesizes hparts hkind

/-! ## all constructs -/

end Occurs

/-- A construct with a rule of its own occurs where it is visited. -/
theorem exists_occurs (g : s.root.Grammatical s.buffer) (hproduced : s.root.Produced s.buffer)
    (hplace : ⟨n, ancestors⟩ ∈ s.root.visited []) (hrule : Construct.ofKind? n.kind = some construct)
    (hplain : construct ≠ .plain) : ∃ i j, s.Occurs n ancestors construct i j := by
  rcases (found_of_visited g hplace).stands_or_isSilent (by simp [hrule]) with ⟨i, j, h⟩ | hsilent
  · exact ⟨i, j, g, hproduced, hplace, hrule, h⟩
  · exact absurd (Option.mem_unique hrule hsilent.1) hplain

/-- The names of an import in braces begin at places that are accounted for. -/
def NamesBegin (s : Source) (caseLevels : Int) (n : Node) (ancestors : List Node) : Prop :=
  ∀ c ∈ n.codeChildren, c.kind = "named_imports" → ∀ a b, s.Occurs c (n :: ancestors) .plain a b →
    s.PartsBegin (s.Accounted caseLevels) c a

/-- Where the wrappers stand. -/
theorem wrapper_cases {kind : String} (h : kind ∈ Node.wrapperKinds) :
    kind ∈ Node.fieldHomes.map (·.1) ∨ kind ∈ Node.kindHomes.map (·.1) ∨ kind = "named_imports" ∨
      kind = "template_substitution" ∨
      kind ∈ ["expression_statement", "debugger_statement", "parenthesized_expression"] := by
  have hall : ∀ kind ∈ Node.wrapperKinds,
      kind ∈ Node.fieldHomes.map (·.1) ∨ kind ∈ Node.kindHomes.map (·.1) ∨ kind = "named_imports" ∨
        kind = "template_substitution" ∨
        kind ∈ ["expression_statement", "debugger_statement", "parenthesized_expression"] := by decide
  exact hall kind h

/-- The parts of a construct in another one begin at places that are accounted for. -/
theorem partsBegin_child (hplace : ⟨n, ancestors⟩ ∈ s.root.visited [])
    (hnames : s.NamesBegin caseLevels n ancestors) (hc : c ∈ n.codeChildren)
    (hother : c.kind ≠ "template_substitution") (hoccurs : s.Occurs c (n :: ancestors) construct a b)
    (hcompound : c.IsCompound) : s.PartsBegin (s.Accounted caseLevels) c a := by
  have g := hoccurs.grammatical
  have hproduced := hoccurs.produced
  have hhoused := hproduced.housed n (Node.within_of_mem_visited hplace) c hc
  rcases eq_or_ne construct .plain with rfl | hplain
  · by_cases hwrapper : c.kind ∈ Node.wrapperKinds
    · rcases wrapper_cases hwrapper with hfield | hkind | hkind | hkind | hkind
      · obtain ⟨home, hhome, hkind, hrule, hfield⟩ := hhoused.field hfield
        have hall : ∀ home ∈ Node.fieldHomes, home.2.1 ≠ .plain := by decide
        obtain ⟨i, j, h⟩ := exists_occurs g hproduced hplace hrule (hall home hhome)
        exact h.partsBegin_of_field hhome hfield hkind.symm hoccurs
      · obtain ⟨home, hhome, hkind, hrule, hchild⟩ := hhoused.kind hkind
        have hall : ∀ home ∈ Node.kindHomes, home.2 ≠ .plain := by decide
        obtain ⟨i, j, h⟩ := exists_occurs g hproduced hplace hrule (hall home hhome)
        exact h.partsBegin_of_kind hhome hkind.symm hchild hoccurs
      · exact hnames c hc hkind a b hoccurs
      · exact absurd hkind hother
      · exact hoccurs.partsBegin_of_plain hcompound (.inr hkind)
    · exact hoccurs.partsBegin_of_plain hcompound (.inl hwrapper)
  · refine hoccurs.partsBegin hplain ?_
    rintro rfl
    have hkind : c.kind = "template_string" := by
      simpa [Construct.ruledKinds] using Rule.mem_ruledKinds hoccurs.rule (by simp)
    simp [Node.IsCompound, Node.isLiteralKind, hkind] at hcompound

/-- The names of an import in braces stand in the clause of the import. -/
theorem namesBegin_child (hplace : ⟨n, ancestors⟩ ∈ s.root.visited []) (hc : c ∈ n.codeChildren)
    (hoccurs : s.Occurs c (n :: ancestors) construct a b) :
    s.NamesBegin caseLevels c (n :: ancestors) := by
  intro names hmem hkind k l hnames
  have hproduced := hoccurs.produced
  have hwithin := Node.within_of_mem_visited hplace
  have hclause := (hproduced.housed c hoccurs.within names hmem).names hkind
  obtain ⟨home, hhome, hhomeKind, hrule, hchild⟩ :=
    (hproduced.housed n hwithin c hc).kind (by rw [hclause]; decide)
  have hall : ∀ home ∈ Node.kindHomes, home.1 = "import_clause" → home.2 = .importing := by decide
  rw [hall home hhome (hhomeKind.trans hclause)] at hrule
  obtain ⟨i, j, h⟩ := exists_occurs hoccurs.grammatical hproduced hplace hrule (by decide)
  obtain rfl : construct = .plain := by
    have hother := hoccurs.rule
    rw [hclause, show Construct.ofKind? "import_clause" = some .plain by decide] at hother
    exact (Option.some.inj hother).symm
  exact (h.partsBegin_importing.2 c a b (hclause ▸ hchild) hoccurs).2 names k l hmem hkind hnames

/-! ## all tokens -/

/-- The tokens of a construct behind its first are accounted for, if those are with which its parts
begin. -/
def AccountsFor (s : Source) (caseLevels : Int) (n : Node) : Prop :=
  ∀ ancestors construct i j, s.Occurs n ancestors construct i j →
    (n.IsCompound → s.PartsBegin (s.Accounted caseLevels) n i) →
    s.NamesBegin caseLevels n ancestors → ∀ k, i < k → k < j → s.Accounted caseLevels k

/-- By induction on the tree.  A template literal needs what its substitutions put in, so the
constructs in the constructs of a node are taken along. -/
theorem accountsFor (s : Source) (caseLevels : Int) (n : Node) :
    s.AccountsFor caseLevels n ∧ ∀ c ∈ n.children, s.AccountsFor caseLevels c := by
  induction n using Node.induct with
  | step n ih =>
    refine ⟨fun ancestors construct i j h hbegin hnames => ?_, fun c hc => (ih c hc).1⟩
    rcases Node.isCompound_or h.rule with hn | ⟨rfl, hatomic⟩ | ⟨rfl, hkind⟩
    · refine (hbegin hn).forall hn h.stands fun c hc a b hstands => ?_
      have hmem := (List.mem_filter.1 hc).1
      cases hnamed : c.isNamed with
      | true =>
        have hcode : c ∈ n.codeChildren := Node.mem_codeChildren_of_parts hc ⟨hnamed, by
          simpa using (List.mem_filter.1 hc).2⟩
        obtain ⟨other, hoccurs⟩ := h.child hcode hstands
        refine (ih c hmem).1 _ _ a b hoccurs
          (partsBegin_child h.place hnames hcode (fun hkind => ?_) hoccurs)
          (namesBegin_child h.place hcode hoccurs)
        have hparent := (h.produced.housed n h.within c hcode).substitution hkind
        simp [Node.IsCompound, Node.isLiteralKind, hparent] at hn
      | false =>
        intro k hak hkb
        have hleaf := h.produced.leaf c ((Node.Within.of_mem hmem).trans h.within) hnamed
          (by simpa using (List.mem_filter.1 hc).2)
        have := hstands.stop_le (by simp [hleaf])
        omega
    · intro k hik hkj
      have := h.stands.stop_le (by simp [hatomic])
      omega
    · refine h.accounted_templateLiteral fun c hc e he a b hstands => ?_
      obtain ⟨hmem, hckind⟩ := List.mem_filter.1 hc
      have hckind : c.kind = "template_substitution" := by simpa using hckind
      have hcode := Node.mem_codeChildren.2 ⟨hmem, he.code⟩
      have hplace := Node.child_mem_visited h.place h.rule hcode
      have hcrule : Construct.ofKind? c.kind = some .plain := by rw [hckind]; decide
      have hwithin := Node.within_of_mem_visited hplace
      have hhoused := h.produced.housed c hwithin e he.mem_codeChildren
      obtain ⟨hemem, hecode⟩ := Node.mem_codeChildren.1 he.mem_codeChildren
      obtain ⟨other, hother⟩ := Option.isSome_iff_exists.1
        (h.produced.ruled e ((Node.Within.of_mem hemem).trans hwithin) (.inr hecode))
      have hoccurs : s.Occurs e (c :: n :: ancestors) other a b :=
        ⟨h.grammatical, h.produced, Node.child_mem_visited hplace hcrule he.mem_codeChildren, hother,
        hstands⟩
      refine (ih c hmem).2 e hemem _ _ a b hoccurs
        (partsBegin_child hplace (fun names hnames hkind => ?_) he.mem_codeChildren (fun hkind => ?_)
          hoccurs) (namesBegin_child hplace he.mem_codeChildren hoccurs)
      · have hparent := (h.produced.housed c hwithin names hnames).names hkind
        simp [hckind] at hparent
      · have hparent := hhoused.substitution hkind
        simp [hckind] at hparent

/-- All code tokens of a produced program have entries in the end, or the rules leave them out. -/
theorem accounted (g : s.root.Grammatical s.buffer) (hproduced : s.root.Produced s.buffer)
    (hkind : s.root.kind = "program") (hblank : s.root.children = [] → s.root.start = s.root.stop)
    (caseLevels : Int) {k : Nat} (hk : k < s.tokens.size) :
    s.Accounted caseLevels k := by
  have hrule : Construct.ofKind? s.root.kind = some .program := by rw [hkind]; decide
  have hplace : ⟨s.root, []⟩ ∈ s.root.visited [] := by
    rw [Node.visited_of_ofKind? hrule]
    exact List.mem_cons_self
  have h : s.Occurs s.root [] .program 0 s.tokens.size :=
    ⟨g, hproduced, hplace, hrule, stands_root g⟩
  have hne : s.root.children ≠ [] := by
    intro hnil
    have hempty : s.root.pieces s.buffer = [] := by rw [Node.pieces_eq, if_pos (hblank hnil)]
    have := h.stands.spans.stop_eq
    rw [hempty, Piece.codeCount_nil] at this
    omega
  rcases Nat.eq_zero_or_pos k with rfl | hpos
  · have hcode : ∀ c ∈ s.root.parts, c.IsCode := h.production
    obtain ⟨c, hc, a, b, hstands, ha, -⟩ := (h.stands.standRun_parts
      (h.isCompound (by simp) (by simp)) hne).exists_mem (Nat.le_refl 0) hk
    obtain rfl : a = 0 := Nat.le_zero.1 ha
    exact h.accounted_program (Node.mem_codeChildren_of_parts hc (hcode c hc)) hstands
  · refine (s.accountsFor caseLevels s.root).1 [] .program 0 _ h (fun _ => h.partsBegin_program)
      (fun names hnames hnamesKind => ?_) k hpos hk
    have hparent := (hproduced.housed s.root (.refl _) names hnames).names hnamesKind
    simp [hkind] at hparent

end Source

end ScriptIndent
