import ScriptIndent.Proofs.Rule.Modules
import ScriptIndent.Proofs.Rule.Unwrap

/-!
# ScriptIndent.Proofs.Rule.Visit

Visits to the nodes of a grammatical tree.

1. A node's own rule goes through, and what it drafts stays inside the node
   (`ofConstruct_staysInside`), except that a program places its statements at
   absolute levels (`program_meets`).
2. A semicolon at the end of a statement is placed relative to its first token
   (`trailingSemicolon_entry`).
3. What parentheses wrap is placed relative to a parenthesis directly before it,
   and a closing parenthesis relative to an opening one before it
   (`wrappingParentheses_entry`).

So no visit stops short, and all entries point backwards (`visit?_meets`).
-/

namespace ScriptIndent

namespace Entry

/-- The entry places a token relative to a token that stands before it. -/
def Backward (s : Source) (e : Entry) : Prop :=
  ∃ k l base, k < l ∧ e.base = some base ∧ s.At k base ∧ s.At l e.token

theorem Inside.backward {s : Source} {i j : Nat} {e : Entry} (h : e.Inside s i j) :
    e.Backward s := by
  obtain ⟨k, l, base, -, -, hkl, hbase, hk, hl⟩ := h
  exact ⟨k, l, base, hkl, hbase, hk, hl⟩

theorem mem_offsets_singleton {t base : Token} {levels : Int} {e : Entry} :
    e ∈ offsets [t] levels (some base) ↔ t ≠ base ∧ e = ⟨t, some base, levels⟩ := by
  by_cases h : t = base <;> simp [offsets, h]

theorem eq_of_mem_offsets_singleton {t : Token} {levels : Int} {base : Option Token} {e : Entry}
    (h : e ∈ offsets [t] levels base) : e = ⟨t, base, levels⟩ ∧ ∃ b, base = some b ∧ t ≠ b := by
  cases base with
  | none => simp [offsets] at h
  | some b =>
    obtain ⟨hne, rfl⟩ := mem_offsets_singleton.1 h
    exact ⟨rfl, b, rfl, hne⟩

end Entry

namespace Rule

open Draft

variable {s : Source} {n : Node} {ancestors : List Node} {i j : Nat}

/-! ## rules of constructs -/

/-- The kinds of a construct with a rule of its own are listed. -/
theorem mem_ruledKinds {kind : String} {construct : Construct}
    (h : Construct.ofKind? kind = some construct) (hplain : construct ≠ .plain) :
    (kind, construct) ∈ Construct.ruledKinds := by
  unfold Construct.ofKind? at h
  split at h
  · exact absurd (Option.some.inj h).symm hplain
  · obtain ⟨before, after, hsplit, -⟩ := List.lookup_eq_some_iff.1 h
    rw [hsplit]
    simp

/-- A rule that looks at no node above its construct goes through, and what it drafts stays
inside the construct. -/
theorem ofConstruct_staysInside_of_ne (h : s.Stands n i j) {construct : Construct}
    (hrule : Construct.ofKind? n.kind = some construct) (hshape : n.Shape s.buffer construct)
    (hprogram : construct ≠ .program) (hchain : construct ≠ .chain) (hternary : construct ≠ .ternary)
    (caseLevels : Int) (ancestors : List Node) :
    (ofConstruct s caseLevels ancestors n construct).StaysInside s i j := by
  have hcompound := Node.isCompound_of_ofKind? hrule
  have hlt : n.HasToken s.buffer → i < j := h.spans.lt
  cases construct with
  | plain => exact meets_pure trivial
  | program => exact absurd rfl hprogram
  | arrayList => exact arrayList_staysInside h hshape
  | objectList => exact objectList_staysInside h hshape
  | block => exact block_staysInside h hshape
  | staticBlock =>
    obtain ⟨body, hbody⟩ := hshape
    exact staticBlock_staysInside h (hcompound (by simp) (by simp)) hbody
  | sequence => exact sequence_staysInside h (hcompound (by simp) (by simp)) hshape
  | declaration => exact declaration_staysInside h (hcompound (by simp) (by simp)) hshape
  | declarator => exact declarator_staysInside h (hcompound (by simp) (by simp)) hshape
  | chain => exact absurd rfl hchain
  | ternary => exact absurd rfl hternary
  | operand => exact operand_staysInside h (hcompound (by simp) (by simp)) hshape
  | yielding => exact yielding_staysInside h (hcompound (by simp) (by simp)) hshape
  | conditional => exact conditional_staysInside h (hcompound (by simp) (by simp)) hshape
  | headed => exact headed_staysInside h (hcompound (by simp) (by simp)) hshape
  | doLoop => exact doLoop_staysInside h (hcompound (by simp) (by simp)) hshape
  | forLoop => exact forLoop_staysInside h (hcompound (by simp) (by simp)) hshape
  | forInLoop => exact forInLoop_staysInside h (hcompound (by simp) (by simp)) hshape
  | switch => exact switch_staysInside h (hcompound (by simp) (by simp)) hshape caseLevels
  | clause => exact clause_staysInside h (hcompound (by simp) (by simp)) hshape
  | guarded => exact guarded_staysInside h (hcompound (by simp) (by simp)) hshape
  | handler => exact handler_staysInside h (hcompound (by simp) (by simp)) hshape
  | labeled => exact labeled_staysInside h (hcompound (by simp) (by simp)) hshape
  | jump => exact jump_staysInside h (hcompound (by simp) (by simp)) hshape
  | exit => exact exit_staysInside h (hcompound (by simp) (by simp)) hshape
  | function => exact function_staysInside h (hcompound (by simp) (by simp)) hshape
  | arrow => exact arrow_staysInside h (hcompound (by simp) (by simp)) hshape
  | method => exact method_staysInside h (hcompound (by simp) (by simp)) hshape
  | classDefinition =>
    exact classDefinition_staysInside h (hcompound (by simp) (by simp)) hshape
  | fieldDefinition =>
    exact fieldDefinition_staysInside h (hcompound (by simp) (by simp)) hshape
  | pair => exact pair_staysInside h (hcompound (by simp) (by simp)) hshape
  | member => exact access_staysInside h (hcompound (by simp) (by simp)) hshape
  | subscript => exact subscript_staysInside h (hcompound (by simp) (by simp)) hshape
  | metaProperty => exact metaProperty_staysInside h (hlt hshape)
  | call => exact call_staysInside h (hcompound (by simp) (by simp)) hshape
  | creation => exact creation_staysInside h (hcompound (by simp) (by simp)) hshape
  | templateLiteral =>
    have hkind : n.kind = "template_string" := by
      simpa [Construct.ruledKinds] using mem_ruledKinds hrule (by simp)
    exact templateLiteral_staysInside h (hlt hshape.1) fun c hc hsub =>
      h.exists_substitutes hkind hc hsub
  | importing => exact importing_staysInside h (hcompound (by simp) (by simp)) hshape
  | importSpecifier => exact importSpecifier_staysInside h (hlt hshape)
  | aliased => exact aliased_staysInside h (hlt hshape)
  | exporting => exact exporting_staysInside h (hcompound (by simp) (by simp)) hshape

/-- The rule of a construct of a grammatical tree goes through, and what it drafts
stays inside the construct. -/
theorem ofConstruct_staysInside (g : s.root.Grammatical s.buffer)
    (hplace : ⟨n, ancestors⟩ ∈ s.root.visited []) (h : s.Stands n i j) {construct : Construct}
    (hrule : Construct.ofKind? n.kind = some construct) (hprogram : construct ≠ .program)
    (caseLevels : Int) :
    (ofConstruct s caseLevels ancestors n construct).StaysInside s i j := by
  have hshape := Source.shape_of_visited g hplace hrule
  by_cases hchain : construct = .chain
  · subst hchain
    exact chain_staysInside g hplace h (Node.isCompound_of_ofKind? hrule (by simp) (by simp)) hshape
  by_cases hternary : construct = .ternary
  · subst hternary
    exact ternary_staysInside g hplace h (Node.isCompound_of_ofKind? hrule (by simp) (by simp)) hshape
  exact ofConstruct_staysInside_of_ne h hrule hshape hprogram hchain hternary caseLevels ancestors

/-! ## semicolons -/

/-- A semicolon at the end of a statement is placed relative to the statement's
first token.  It is the statement's last token, or follows a class field. -/
theorem trailingSemicolon_entry (h : s.Stands n i j) (hij : i < j) {e : Entry}
    (he : e ∈ trailingSemicolon s n) :
    ∃ l base, i < l ∧ e.base = some base ∧ s.At i base ∧ s.At l e.token ∧
      e.token.isSemicolon = true ∧
      (l + 1 = j ∨ l = j ∧ n.kind = "field_definition") := by
  obtain ⟨start, hstart, hfirst⟩ := (h.ends hij).exists_first?
  obtain ⟨last, hlast, hlastq⟩ := (h.ends hij).exists_last?
  unfold trailingSemicolon at he
  rw [hfirst] at he
  split at he
  · next start' semicolon heq hclosing =>
    obtain rfl := Option.some.inj heq
    split at he
    · obtain ⟨rfl, base, hbase, hne⟩ := Entry.eq_of_mem_offsets_singleton he
      obtain rfl := Option.some.inj hbase
      rw [closingSemicolon?, Option.filter_eq_some_iff, Option.or_eq_some_iff] at hclosing
      obtain ⟨hcases, hsemicolon⟩ := hclosing
      rcases hcases with hafter | ⟨-, hcases⟩
      · rw [Option.filter_eq_some_iff] at hafter
        split at hafter
        · next hkind =>
          rw [(h.ends hij).after?_eq] at hafter
          exact ⟨j, start, hij, rfl, hstart, hafter.1, hsemicolon, .inr ⟨rfl, by simpa using hkind⟩⟩
        · simp at hafter
      · obtain rfl := Option.mem_unique hlastq hcases
        refine ⟨j - 1, start, ?_, rfl, hstart, hlast, hsemicolon, .inl (by omega)⟩
        have hji : j - 1 ≠ i := by
          intro heq
          rw [heq] at hlast
          exact hne (Option.mem_unique hlast hstart)
        omega
    · simp at he
  · simp at he

/-! ## parentheses -/

/-- The `m`th opening parenthesis below an index stands `m` places below it. -/
theorem getElem?_openersBelow {tokens : Array Token} {k m : Nat} {t : Token}
    (h : (openersBelow tokens k)[m]? = some t) :
    m < k ∧ tokens[k - 1 - m]? = some t ∧ t.isOpeningParen = true := by
  induction k generalizing m with
  | zero => simp [openersBelow] at h
  | succ k ih =>
    rw [openersBelow] at h
    split at h
    · next u hu =>
      cases m with
      | zero =>
        obtain rfl := Option.some.inj h
        rw [Option.filter_eq_some_iff] at hu
        exact ⟨by omega, by simpa using hu.1, hu.2⟩
      | succ m =>
        obtain ⟨hlt, hget, hopening⟩ := ih h
        exact ⟨by omega, by rw [← hget]; congr 1; omega, hopening⟩
    · simp at h

/-- The `m`th closing parenthesis from an index on stands `m` places behind it. -/
theorem getElem?_closersFrom {tokens : Array Token} {k m : Nat} {t : Token}
    (h : (closersFrom tokens k)[m]? = some t) :
    tokens[k + m]? = some t ∧ t.isClosingParen = true := by
  fun_induction closersFrom tokens k generalizing m with
  | case1 k hk hclosing ih =>
    cases m with
    | zero =>
      obtain rfl := Option.some.inj h
      exact ⟨Array.getElem?_eq_getElem hk, hclosing⟩
    | succ m =>
      obtain ⟨hget, hclosing⟩ := ih h
      exact ⟨by rw [← hget]; congr 1; omega, hclosing⟩
  | case2 => simp at h
  | case3 => simp at h

/-- What pairs of parentheses place: what each pair wraps, and its closing parenthesis. -/
theorem mem_unwrap_iff {inner : Token} {pairs : List (Token × Token)} {e : Entry} :
    e ∈ unwrap inner pairs ↔ ∃ (m : Nat) (p : Token × Token) (t : Token), pairs[m]? = some p ∧
      (inner :: pairs.map Prod.fst)[m]? = some t ∧
      (t ≠ p.1 ∧ e = ⟨t, some p.1, 1⟩ ∨ p.2 ≠ p.1 ∧ e = ⟨p.2, some p.1, 0⟩) := by
  induction pairs generalizing inner with
  | nil => simp [unwrap]
  | cons p rest ih =>
    rw [unwrap, List.mem_append, List.mem_append, ih, Entry.mem_offsets_singleton,
      Entry.mem_offsets_singleton]
    constructor
    · rintro (hfirst | ⟨m, q, t, hq, ht, hcases⟩)
      · exact ⟨0, p, inner, rfl, rfl, hfirst⟩
      · exact ⟨m + 1, q, t, hq, ht, hcases⟩
    · rintro ⟨_ | m, q, t, hq, ht, hcases⟩
      · obtain rfl := Option.some.inj hq
        obtain rfl := Option.some.inj ht
        exact .inl hcases
      · exact .inr ⟨m, q, t, hq, ht, hcases⟩

/-- Around a stretch the `m`th pair of parentheses places what stands `m` places before the
stretch's first token, and its closing parenthesis, relative to the opening one before both. -/
theorem unwrap_places {inner : Token} {pairs : List (Token × Token)} (hinner : s.At i inner)
    (hpairs : ∀ m p, pairs[m]? = some p → m < i ∧ s.At (i - 1 - m) p.1 ∧
      p.1.isOpeningParen = true ∧ s.At (j + m) p.2 ∧ p.2.isClosingParen = true)
    {e : Entry} (he : e ∈ unwrap inner pairs) :
    ∃ m p, pairs[m]? = some p ∧ (s.At (i - m) e.token ∧ e = ⟨e.token, some p.1, 1⟩ ∨
      e = ⟨p.2, some p.1, 0⟩) := by
  obtain ⟨m, p, t, hp, ht, hcases⟩ := mem_unwrap_iff.1 he
  refine ⟨m, p, hp, ?_⟩
  rcases hcases with ⟨-, rfl⟩ | ⟨-, rfl⟩
  · refine .inl ⟨?_, rfl⟩
    cases m with
    | zero => exact Option.some.inj ht ▸ hinner
    | succ m =>
      rw [List.getElem?_cons_succ, List.getElem?_map, Option.map_eq_some_iff] at ht
      obtain ⟨q, hq, rfl⟩ := ht
      have hleft := (hpairs m q hq).2.1
      rwa [show i - 1 - m = i - (m + 1) by omega] at hleft
  · exact .inr rfl

/-- What pairs of parentheses wrap is placed relative to the opening one directly
before it, and each closing one relative to its opening one. -/
theorem unwrap_entry {inner : Token} {pairs : List (Token × Token)} (hinner : s.At i inner)
    (hpairs : ∀ m p, pairs[m]? = some p → m < i ∧ s.At (i - 1 - m) p.1 ∧
      p.1.isOpeningParen = true ∧ s.At (j + m) p.2 ∧ p.2.isClosingParen = true)
    {e : Entry} (he : e ∈ unwrap inner pairs) :
    ∃ k l base, e.base = some base ∧ base.isOpeningParen = true ∧ s.At k base ∧
      s.At l e.token ∧ (l = k + 1 ∧ l ≤ i ∨ k < i ∧ j ≤ l ∧ e.token.isClosingParen = true) := by
  obtain ⟨m, p, hp, ⟨ht, heq⟩ | rfl⟩ := unwrap_places hinner hpairs he <;>
    obtain ⟨hlt, hleft, hopening, hright, hclosing⟩ := hpairs m p hp
  · exact ⟨i - 1 - m, i - m, p.1, by rw [heq], hopening, hleft, ht, .inl (by omega)⟩
  · exact ⟨i - 1 - m, j + m, p.1, rfl, hopening, hleft, hright,
      .inr ⟨by omega, Nat.le_add_right j m, hclosing⟩⟩

/-- The pairs of parentheses around a node are those of the parentheses directly before it
and directly behind it. -/
theorem wrappers_eq_of_ends (h : s.Ends n i j) :
    wrappers s n = (openersBelow s.tokens i).zip (closersFrom s.tokens j) := by
  obtain ⟨start, hstart, hfirst⟩ := h.exists_first?
  obtain ⟨last, hlast, hlastq⟩ := h.exists_last?
  have hij := h.lt
  simp only [wrappers, hfirst, hlastq, Source.index_of_getElem? hstart,
    Source.index_of_getElem? hlast, Option.getD_some, Option.elim_some,
    show j - 1 + 1 = j by omega]

theorem wrappers_eq (h : s.Stands n i j) (hij : i < j) :
    wrappers s n = (openersBelow s.tokens i).zip (closersFrom s.tokens j) :=
  wrappers_eq_of_ends (h.ends hij)

theorem getElem?_wrappers (h : s.Stands n i j) (hij : i < j) {m : Nat} {p : Token × Token}
    (hp : (wrappers s n)[m]? = some p) :
    m < i ∧ s.At (i - 1 - m) p.1 ∧ p.1.isOpeningParen = true ∧ s.At (j + m) p.2 ∧
      p.2.isClosingParen = true := by
  rw [wrappers_eq h hij] at hp
  obtain ⟨hleft, hright⟩ := List.getElem?_zip_eq_some.1 hp
  obtain ⟨hlt, hleft, hopening⟩ := getElem?_openersBelow hleft
  obtain ⟨hright, hclosing⟩ := getElem?_closersFrom hright
  exact ⟨hlt, hleft, hopening, hright, hclosing⟩

/-- Around a node, what parentheses wrap is placed relative to the one directly
before it, and a closing parenthesis relative to one before the node. -/
theorem wrappingParentheses_entry (h : s.Stands n i j) (hij : i < j) {e : Entry}
    (he : e ∈ wrappingParentheses s n) :
    ∃ k l base, e.base = some base ∧ base.isOpeningParen = true ∧ s.At k base ∧
      s.At l e.token ∧ (l = k + 1 ∧ l ≤ i ∨ k < i ∧ j ≤ l ∧ e.token.isClosingParen = true) := by
  obtain ⟨start, hstart, hfirst⟩ := (h.ends hij).exists_first?
  rw [wrappingParentheses_eq, hfirst] at he
  exact unwrap_entry hstart (fun m p hp => getElem?_wrappers h hij hp) he

/-! ## visits -/

theorem mem_common {e : Entry} :
    e ∈ common s n ↔
      Construct.isStatementKind n.kind = true ∧ e ∈ trailingSemicolon s n ∨
        Construct.isExpressionKind n.kind = true ∧ e ∈ wrappingParentheses s n := by
  simp only [common, List.mem_append, List.mem_ite_nil_right]

/-- The rules common to all statements and all expressions point backwards. -/
theorem common_backward (h : s.Stands n i j) (hij : i < j) {e : Entry} (he : e ∈ common s n) :
    e.Backward s := by
  rcases mem_common.1 he with ⟨-, he⟩ | ⟨-, he⟩
  · obtain ⟨l, base, hil, hbase, hi, hl, -⟩ := trailingSemicolon_entry h hij he
    exact ⟨i, l, base, hil, hbase, hi, hl⟩
  · obtain ⟨k, l, base, hbase, -, hk, hl, hcases⟩ := wrappingParentheses_entry h hij he
    refine ⟨k, l, base, ?_, hbase, hk, hl⟩
    rcases hcases with hcases | hcases <;> omega

/-- A node without a first token gets nothing from the common rules. -/
theorem common_eq_nil (h : s.firstOfNode? n = none) : common s n = [] := by
  have hfirst : s.first? n = none := h
  simp [common, trailingSemicolon, wrappingParentheses, hfirst]

/-- Neither substitutions nor parts of literals are statements or expressions. -/
theorem common_eq_nil_of_kind (hstatement : Construct.isStatementKind n.kind = false)
    (hexpression : Construct.isExpressionKind n.kind = false) : common s n = [] := by
  simp [common, hstatement, hexpression]

/-- A statement is no expression. -/
theorem common_eq_of_isStatementKind (h : Construct.isStatementKind n.kind = true) :
    common s n = trailingSemicolon s n := by
  have hall : ∀ kind ∈ Construct.statementKinds, Construct.isExpressionKind kind = false := by decide
  have hkind := hall n.kind (by simpa [Construct.isStatementKind] using h)
  simp [common, h, hkind]

/-- An expression is no statement. -/
theorem common_eq_of_isExpressionKind (h : Construct.isExpressionKind n.kind = true) :
    common s n = wrappingParentheses s n := by
  have hkind : ¬Construct.isStatementKind n.kind = true := fun hstatement => by
    have hall : ∀ kind ∈ Construct.statementKinds, Construct.isExpressionKind kind = false := by
      decide
    simp [hall n.kind (by simpa [Construct.isStatementKind] using hstatement)] at h
  simp [common, h, hkind]

/-- Nothing in common with statements and expressions is placed in a construct that is no
expression and does not end with a semicolon. -/
theorem common_eq_nil_of_last (h : s.Stands n i j) (hij : i < j)
    (hexpression : Construct.isExpressionKind n.kind = false) (hfield : n.kind ≠ "field_definition")
    {t : Token} (ht : s.At (j - 1) t) (hsemicolon : t.isSemicolon = false) : common s n = [] := by
  refine List.eq_nil_iff_forall_not_mem.2 fun e he => ?_
  rcases mem_common.1 he with ⟨-, he⟩ | ⟨hkind, -⟩
  · obtain ⟨l, base, -, -, -, hl, hclosing, hcases⟩ := trailingSemicolon_entry h hij he
    obtain rfl : l = j - 1 := by
      have := hcases.resolve_right fun hkind => hfield hkind.2
      omega
    obtain rfl := Option.mem_unique ht hl
    simp [hsemicolon] at hclosing
  · simp [hexpression] at hkind

/-- Statements and expressions have rules. -/
theorem exists_ofKind? {kind : String}
    (h : Construct.isStatementKind kind = true ∨ Construct.isExpressionKind kind = true) :
    ∃ construct, Construct.ofKind? kind = some construct := by
  have hall : ∀ kind ∈ Construct.statementKinds ++ Construct.expressionKinds,
      (Construct.ofKind? kind).isSome = true := by decide
  refine Option.isSome_iff_exists.1 (hall kind (List.mem_append.2 (h.imp ?_ ?_)))
  · simp [Construct.isStatementKind]
  · simp [Construct.isExpressionKind]

/-- A visit drafts what the rule of the construct drafts, and what all statements and
expressions have in common. -/
theorem visit?_eq {construct : Construct} (hrule : Construct.ofKind? n.kind = some construct)
    (s : Source) (caseLevels : Int) (ancestors : List Node) :
    visit? s caseLevels ⟨n, ancestors⟩ =
      some (ofConstruct s caseLevels ancestors n construct >>= fun _ => write (common s n)) := by
  rw [visit?, hrule]
  rfl

theorem visit?_of_isSilent (h : n.IsSilent) (s : Source) (caseLevels : Int)
    (ancestors : List Node) : visit? s caseLevels ⟨n, ancestors⟩ = some (write []) := by
  rw [visit?_eq h.1, common_eq_nil_of_kind h.2.1 h.2.2]
  rfl

theorem visit?_of_construct {construct : Construct}
    (hrule : Construct.ofKind? n.kind = some construct) {caseLevels : Int} {E : Entry → Prop}
    (h : (ofConstruct s caseLevels ancestors n construct).Meets E fun _ => True)
    (hcommon : ∀ e ∈ common s n, E e) :
    ∃ draft, visit? s caseLevels ⟨n, ancestors⟩ = some draft ∧ draft.Meets E fun _ => True :=
  ⟨_, visit?_eq hrule s caseLevels ancestors, h.next (meets_write hcommon)⟩

/-- Only the root of a grammatical tree may be without tokens, and then there are
none at all. -/
theorem firstOfNode?_eq_none (g : s.root.Grammatical s.buffer)
    (hplace : ⟨n, ancestors⟩ ∈ s.root.visited []) (h : s.Stands n i j) (hij : j ≤ i) :
    s.firstOfNode? n = none := by
  have hcount : Piece.codeCount (n.pieces s.buffer) = 0 := by
    have := h.spans.stop_eq
    omega
  rcases Node.mem_visited hplace with heq | ⟨parent, hparent, -, hmem, -⟩
  · simp only [Node.Placed.mk.injEq] at heq
    obtain ⟨rfl, rfl⟩ := heq
    have hsize := (Source.stands_root g).spans.stop_eq
    rw [hcount] at hsize
    have hnone : ∀ k, s.tokens[k]? = none := fun k => by
      rw [Array.getElem?_eq_none]
      omega
    simp [Source.firstOfNode?, hnone]
  · obtain ⟨hchild, hcode⟩ := Node.mem_codeChildren.1 hmem
    have hbelow := (Node.within_of_mem_visited hparent).below_of_mem hchild
    have := g.hasToken n hbelow hcode
    rw [Node.HasToken, hcount] at this
    exact absurd this (Nat.lt_irrefl 0)

/-- A visit to a node of a grammatical tree goes through, and its entries point
backwards or, if the node is a program, are absolute. -/
theorem visit?_meets (g : s.root.Grammatical s.buffer) {place : Node.Placed}
    (hplace : place ∈ s.root.visited []) (caseLevels : Int) {draft : Draft Unit}
    (hdraft : visit? s caseLevels place = some draft) :
    draft.Meets (fun e => e.base = none ∧ place.node.kind = "program" ∨ e.Backward s)
      fun _ => True := by
  obtain ⟨n, ancestors⟩ := place
  obtain ⟨construct, hrule, heq⟩ := Option.map_eq_some_iff.1 hdraft
  rcases (Source.found_of_visited g hplace).stands_or_isSilent (by simp [hrule]) with
    ⟨i, j, h⟩ | hsilent
  · subst heq
    have hcommon : ∀ e ∈ common s n, e.base = none ∧ n.kind = "program" ∨ e.Backward s := by
      rcases Nat.lt_or_ge i j with hij | hij
      · exact fun e he => .inr (common_backward h hij he)
      · simp [common_eq_nil (firstOfNode?_eq_none g hplace h hij)]
    refine Meets.next ?_ (meets_write hcommon)
    by_cases hprogram : construct = .program
    · subst hprogram
      have hkind : n.kind = "program" := by
        simpa [Construct.ruledKinds] using mem_ruledKinds hrule (by simp)
      exact (program_meets h (Node.isCompound_of_ofKind? hrule (by simp) (by simp))).mono
        (fun e he => .inl ⟨he, hkind⟩) fun _ _ => trivial
    · exact (ofConstruct_staysInside g hplace h hrule hprogram caseLevels).mono
        (fun e he => .inr he.backward) fun _ _ => trivial
  · rw [visit?_of_isSilent hsilent] at hdraft
    obtain rfl := Option.some.inj hdraft
    exact meets_write (by simp)

end Rule

end ScriptIndent
