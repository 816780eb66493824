import ScriptIndent.Proofs.Rule.Lasting

/-!
# ScriptIndent.Proofs.Rule.Bodies

Bodies of conditionals and loops.

```
while (a)       the keyword
  b;            a body that does not begin with a brace is one level deeper,
while (a)
{ b; }          and one that does is flush with the keyword;
while (a)
;               but a semicolon at the end of the loop ends it, whatever it is besides
```

Each body is governed by a keyword (`Node.Governs`).  The rule of the statement places the body's
first token relative to the keyword, and nothing that is visited later reaches the token
(`Source.get?_of_body`).  Only the statement itself may place it anew: when the body is the
semicolon at the end of the statement, and ends its line (`Source.get?_of_trails`).
-/

namespace ScriptIndent

namespace Node

/-- A keyword governs a body of a conditional or a loop. -/
inductive Governs (b : Buffer) (n keyword body : Node) : Prop
  | consequence {head : Node} {rest : List Node} (kind_eq : n.kind = "if_statement")
      (parts_eq : n.parts = keyword :: head :: body :: rest) (spells : keyword.Spells b "if")
      (encloses : head.Enclosed b "(" ")") (part : n.IsPart "consequence" body)
  | alternative {clause : Node} (kind_eq : n.kind = "if_statement")
      (part : n.IsPart "alternative" clause) (clause_kind : clause.kind = "else_clause")
      (parts_eq : clause.parts = [keyword, body]) (spells : keyword.Spells b "else")
      (code : body.IsCode)
  | headed {head : Node} {word : String}
      (kind_eq : n.kind = "while_statement" ∧ word = "while" ∨
        n.kind = "with_statement" ∧ word = "with")
      (parts_eq : n.parts = [keyword, head, body]) (spells : keyword.Spells b word)
      (encloses : head.Enclosed b "(" ")") (part : n.IsPart "body" body)
  | doLoop {rest : List Node} (kind_eq : n.kind = "do_statement")
      (parts_eq : n.parts = keyword :: body :: rest) (spells : keyword.Spells b "do")
      (part : n.IsPart "body" body)
  | forLoop {middle : List Node} {right : Node}
      (kind_eq : n.kind = "for_statement" ∨ n.kind = "for_in_statement")
      (parts_eq : n.parts = keyword :: (middle ++ [right, body])) (spells : keyword.Spells b "for")
      (closes : right.Spells b ")") (part : n.IsPart "body" body)

/-- What stands before a body: something in parentheses, or a word or a sign other than an opening
parenthesis. -/
def Heads (b : Buffer) (n : Node) : Prop :=
  n.Enclosed b "(" ")" ∨ ∃ value, n.Spells b value ∧ IsSpelling value ∧ value ≠ "("

variable {b : Buffer} {n keyword body : Node}

/-- The body is a construct of the statement, or of a clause of it. -/
theorem Governs.mem_codeChildren (h : n.Governs b keyword body) :
    body ∈ n.codeChildren ∨
      ∃ clause ∈ n.codeChildren, clause.kind = "else_clause" ∧ body ∈ clause.codeChildren := by
  cases h with
  | consequence _ _ _ _ part => exact .inl part.2
  | @alternative clause _ part clause_kind parts_eq _ code =>
    refine .inr ⟨clause, part.2, clause_kind, Node.mem_codeChildren.2 ⟨?_, code⟩⟩
    exact (List.mem_filter.1 (show body ∈ clause.parts by simp [parts_eq])).1
  | headed _ _ _ _ part => exact .inl part.2
  | doLoop _ _ _ part => exact .inl part.2
  | forLoop _ _ _ _ part => exact .inl part.2

/-- The statement has one of these kinds. -/
theorem Governs.mem_kinds (h : n.Governs b keyword body) :
    n.kind ∈ ["if_statement", "while_statement", "with_statement", "do_statement",
      "for_statement", "for_in_statement"] := by
  cases h with
  | consequence kind_eq => simp [kind_eq]
  | alternative kind_eq => simp [kind_eq]
  | headed kind_eq => rcases kind_eq with ⟨h, -⟩ | ⟨h, -⟩ <;> simp [h]
  | doLoop kind_eq => simp [kind_eq]
  | forLoop kind_eq => rcases kind_eq with h | h <;> simp [h]

/-- The statement has a rule that places tokens. -/
theorem Governs.exists_rule (h : n.Governs b keyword body) :
    ∃ construct, Construct.ofKind? n.kind = some construct ∧ construct ≠ .plain := by
  have hall : ∀ kind ∈ ["if_statement", "while_statement", "with_statement", "do_statement",
      "for_statement", "for_in_statement"],
      (Construct.ofKind? kind).any (· ≠ .plain) = true := by decide
  obtain ⟨construct, hrule, hne⟩ := (Option.any_eq_true _ _).1 (hall _ h.mem_kinds)
  exact ⟨construct, hrule, by simpa using hne⟩

theorem Governs.isCompound (h : n.Governs b keyword body) : n.IsCompound := by
  have hall : ∀ kind ∈ ["if_statement", "while_statement", "with_statement", "do_statement",
      "for_statement", "for_in_statement"],
      isCommentKind kind = false ∧ isLiteralKind kind = false := by decide
  exact hall _ h.mem_kinds

end Node

namespace Source

variable {s : Source} {n keyword body : Node} {ancestors : List Node} {i j : Nat}

/-! ## where bodies stand -/

/-- A keyword at place `k` and the body at place `a` that it governs. -/
structure Body (s : Source) (n keyword body : Node) (i k a j : Nat) (word : Token) : Prop where
  word_at : s.At k word
  first : s.firstOfNode? keyword = some word
  le : i ≤ k
  lt : k < a
  stands : ∃ b, s.Stands body a b ∧ a < b ∧ b ≤ j
  /-- No parenthesis opens directly before the body. -/
  before {t : Token} : s.At (a - 1) t → t.isOpeningParen = false
  outside : s.Outside n a

/-- What stands before a body does not end with an opening parenthesis. -/
theorem Stands.isOpeningParen_of_heads {m : Node} {a b : Nat} (hm : s.Stands m a b)
    (hheads : m.Heads s.buffer) {t : Token} (ht : s.At (b - 1) t) : t.isOpeningParen = false := by
  rcases hheads with henclosed | ⟨value, hspells, hspelling, hopening⟩
  · obtain ⟨-, -, ⟨u, hu, hvalue, -⟩, -⟩ := hm.enclosed henclosed (by decide) (by decide)
    obtain rfl := Option.mem_unique hu ht
    simp [Token.isOpeningParen, Token.isPunctuator, hvalue]
  · obtain ⟨rfl, u, hu, hvalue, -⟩ := hm.spells hspells hspelling
    obtain rfl := Option.mem_unique hu ht
    simp [Token.isOpeningParen, Token.isPunctuator, hvalue, hopening]

/-- The body behind a keyword, with more between them that ends well. -/
theorem Stands.exists_body (hn : s.Stands n i j) (hcompound : n.IsCompound) {word : String}
    (hspells : keyword.Spells s.buffer word) (hspelling : Node.IsSpelling word)
    (middle front : List Node) {rest : List Node} {last : Node}
    (hparts : n.parts = (keyword :: middle) ++ body :: rest)
    (hfront : keyword :: middle = front ++ [last])
    (hlast : last.Heads s.buffer) (hbody : body ∈ n.codeChildren) :
    ∃ a w, s.Body n keyword body i i a j w := by
  have hmem : ∀ c ∈ n.parts, c ∈ n.children := fun c hc => (List.mem_filter.1 hc).1
  have hchildren : n.children ≠ [] := List.ne_nil_of_mem (Node.mem_codeChildren.1 hbody).1
  have hrun := hn.run_parts hcompound hchildren
  rw [hparts] at hrun hmem
  obtain ⟨a, hbefore, hrest⟩ := hrun.append
  have hout := hn.outside_of_parts hcompound hchildren hparts hbefore hrest
  obtain ⟨b, hbodySpans, hbehind⟩ := hrest
  have hbodyStands := hn.of_spans (hmem body (by simp)) hbodySpans
  obtain ⟨k, hkeyword, hmiddle⟩ := id hbefore
  obtain ⟨rfl, w, hw, -⟩ := (hn.of_spans (hmem keyword (by simp)) hkeyword).spells hspells hspelling
  have hkeyword := hn.of_spans (hmem keyword (by simp)) hkeyword
  have hstop := hmiddle.stop_eq
  have hstop' := hbehind.stop_eq
  rw [hfront] at hbefore
  obtain ⟨p, -, q, hlastSpans, rfl⟩ := hbefore.append
  have hlastMem : last ∈ n.children := hmem last (by simp [hfront])
  exact ⟨q, w, hw, (hkeyword.ends (Nat.lt_succ_self i)).first?_eq.trans hw, Nat.le_refl i, by omega,
    ⟨b, hbodyStands, hn.lt_of_mem hbody hbodyStands, by omega⟩,
    fun ht => (hn.of_spans hlastMem hlastSpans).isOpeningParen_of_heads hlast ht, hout⟩

/-- A governed body stands behind its keyword. -/
theorem Stands.exists_governed (hn : s.Stands n i j) (h : n.Governs s.buffer keyword body) :
    ∃ k a w, s.Body n keyword body i k a j w := by
  have hcompound := h.isCompound
  cases h with
  | @consequence head rest _ parts_eq spells encloses part =>
    exact ⟨i, hn.exists_body hcompound spells (by decide) [head] [keyword] parts_eq rfl
      (.inl encloses) part.2⟩
  | @alternative clause _ part clause_kind parts_eq spells code =>
    have hclauseCompound : clause.IsCompound :=
      ⟨by rw [Node.isComment, clause_kind]; decide, by rw [clause_kind]; decide⟩
    obtain ⟨c, d, hic, hcd, hdj, hclause⟩ := hn.child hcompound part.2
    have hmem : body ∈ clause.codeChildren :=
      Node.mem_codeChildren.2 ⟨(List.mem_filter.1 (show body ∈ clause.parts by simp [parts_eq])).1, code⟩
    obtain ⟨a, w, hbody⟩ := hclause.exists_body hclauseCompound spells (by decide) [] [] parts_eq rfl
      (.inr ⟨"else", spells, by decide, by decide⟩) hmem
    obtain ⟨b, hstands, hab, hbd⟩ := hbody.stands
    have hca := hbody.lt
    have hsilent : clause.IsSilent := by
      refine ⟨?_, ?_, ?_⟩ <;> rw [clause_kind] <;> decide
    exact ⟨c, a, w, hbody.word_at, hbody.first, hic, hca, ⟨b, hstands, hab, by omega⟩, hbody.before,
      hn.outside_of_child hcompound part.2 hsilent hclause (by omega) (by omega) hbody.outside⟩
  | @headed head word kind_eq parts_eq spells encloses part =>
    have hspelling : Node.IsSpelling word := by
      rcases kind_eq with ⟨-, rfl⟩ | ⟨-, rfl⟩ <;> decide
    exact ⟨i, hn.exists_body hcompound spells hspelling [head] [keyword] parts_eq rfl
      (.inl encloses) part.2⟩
  | @doLoop rest _ parts_eq spells part =>
    exact ⟨i, hn.exists_body hcompound spells (by decide) [] [] parts_eq rfl
      (.inr ⟨"do", spells, by decide, by decide⟩) part.2⟩
  | @forLoop middle right _ parts_eq spells closes part =>
    have hparts : n.parts = (keyword :: (middle ++ [right])) ++ body :: [] := by
      rw [parts_eq]
      simp
    exact ⟨i, hn.exists_body hcompound spells (by decide) (middle ++ [right]) (keyword :: middle)
      hparts (by simp) (.inr ⟨")", closes, by decide, by decide⟩) part.2⟩

/-- A construct begins with the word that is its first part. -/
theorem Stands.firstOfNode?_eq (hn : s.Stands n i j) (hcompound : n.IsCompound) {word : String}
    (hspells : keyword.Spells s.buffer word) (hspelling : Node.IsSpelling word) {more : List Node}
    (hparts : n.parts = keyword :: more) : s.firstOfNode? n = s.firstOfNode? keyword := by
  have hmem : keyword ∈ n.children := (List.mem_filter.1 (show keyword ∈ n.parts by simp [hparts])).1
  have hrun := hn.run_parts hcompound (List.ne_nil_of_mem hmem)
  rw [hparts] at hrun
  obtain ⟨k, hkeyword, hmore⟩ := hrun
  have hkeyword := hn.of_spans hmem hkeyword
  obtain ⟨rfl, -⟩ := hkeyword.spells hspells hspelling
  have := hmore.stop_eq
  exact (hn.ends (by omega)).first?_eq.trans (hkeyword.ends (Nat.lt_succ_self i)).first?_eq.symm

end Source

namespace Rule

open Draft

variable {s : Source} {n : Node} {ancestors : List Node} {i j : Nat} {word t : Token}

/-! ## what the rules record for bodies -/

section Records

variable {c : Node} (hword : s.firstOfNode? n = some word) (hc : s.firstOfNode? c = some t)
  (hne : t ≠ word)

include hc hne

theorem body_records : (body s c word).Records ⟨t, some word, bodyLevels t⟩ := by
  rw [body, first_bind hc]
  exact records_offset hne

include hword

variable (hbody : n.field? "body" = some c)

include hbody

theorem headed_records (hok : ∃ b, (headed s n).result = .ok b) :
    (headed s n).Records ⟨t, some word, bodyLevels t⟩ := by
  refine records_of_ok hok fun keyword hkeyword hok => ?_
  refine records_of_ok hok fun left _ hok => ?_
  refine records_of_ok hok fun statement hstatement hok => ?_
  refine records_of_ok hok fun right _ hok => ?_
  refine records_of_ok hok fun _ _ hok => ?_
  refine records_of_ok hok fun _ _ _ => ?_
  obtain rfl := Option.mem_unique (eq_of_require hkeyword) hword
  obtain rfl := Option.mem_unique (eq_of_part hstatement) hbody
  exact body_records hc hne

theorem forLoop_records (hok : ∃ b, (forLoop s n).result = .ok b) :
    (forLoop s n).Records ⟨t, some word, bodyLevels t⟩ := by
  refine records_of_ok hok fun keyword hkeyword hok => ?_
  refine records_of_ok hok fun left _ hok => ?_
  refine records_of_ok hok fun statement hstatement hok => ?_
  refine records_of_ok hok fun right _ hok => ?_
  refine records_of_ok hok fun _ _ hok => ?_
  refine records_of_ok hok fun _ _ _ => ?_
  obtain rfl := Option.mem_unique (eq_of_require hkeyword) hword
  obtain rfl := Option.mem_unique (eq_of_part hstatement) hbody
  exact body_records hc hne

theorem forInLoop_records (hok : ∃ b, (forInLoop s n).result = .ok b) :
    (forInLoop s n).Records ⟨t, some word, bodyLevels t⟩ := by
  refine records_of_ok hok fun keyword hkeyword hok => ?_
  refine records_of_ok hok fun await _ hok => ?_
  refine records_of_ok hok fun left _ hok => ?_
  refine records_of_ok hok fun sign _ hok => ?_
  refine records_of_ok hok fun statement hstatement hok => ?_
  refine records_of_ok hok fun right _ hok => ?_
  refine records_of_ok hok fun _ _ hok => ?_
  refine records_of_ok hok fun _ _ hok => ?_
  refine records_of_ok hok fun _ _ hok => ?_
  refine records_of_ok hok fun _ _ hok => ?_
  refine records_of_ok hok fun _ _ _ => ?_
  obtain rfl := Option.mem_unique (eq_of_require hkeyword) hword
  obtain rfl := Option.mem_unique (eq_of_part hstatement) hbody
  exact body_records hc hne

/-- What a do statement records behind its body is for tokens behind the body. -/
theorem doLoop_records (hn : s.Stands n i j) (hshape : n.DoLoopShape s.buffer) {a b : Nat}
    (hstands : s.Stands c a b) (hab : a < b) (hcompound : n.IsCompound)
    (hok : ∃ b, (doLoop s n).result = .ok b) :
    (doLoop s n).Records ⟨t, some word, bodyLevels t⟩ := by
  obtain ⟨_, statement, again, condition, -, hstatement, hagain, hcondition, henclosed, hturn⟩ :=
    hshape
  obtain rfl := Option.mem_unique hbody hstatement.1
  obtain ⟨_, _, -, -, p, q, -, hsstands, k, l, hqk, hastands, e, f, hle, hcstands, -⟩ :=
    hn.turn hcompound hturn
  obtain ⟨rfl, rfl⟩ := hstands.unique hab hsstands
  have hef := hn.lt_of_mem hcondition.2 hcstands
  obtain ⟨rfl, -⟩ := hastands.spells hagain (by decide)
  obtain ⟨-, -, -, helements⟩ := hcstands.enclosed henclosed (by decide) (by decide)
  have hat : s.At p t := (hstands.ends hab).first?_eq.symm.trans hc
  refine records_of_ok hok fun keyword hkeyword hok => ?_
  refine records_of_ok hok fun statement hstatement hok => ?_
  refine records_of_ok hok fun test htest hok => ?_
  refine records_of_ok hok fun condition' hcondition' hok => ?_
  refine records_of_ok hok fun left hleft hok => ?_
  refine records_of_ok hok fun right hright _ => ?_
  obtain rfl := Option.mem_unique (eq_of_require hkeyword) hword
  obtain rfl := Option.mem_unique (eq_of_part hstatement) hbody
  obtain rfl := Option.mem_unique (eq_of_part hcondition') hcondition.1
  have hsearch := ((hstands.ends hab).afterWhere?_eq Token.isNotClosingParen).symm.trans
    (eq_of_require htest)
  obtain ⟨m, hqm, htest, -⟩ := Source.scanUp_eq_some hsearch
  have hleft := (hcstands.ends hef).first?_eq.symm.trans (eq_of_require hleft)
  have hright := (hcstands.ends hef).last?_eq.symm.trans (eq_of_require hright)
  refine (body_records hc hne).elsewhere hat ((meets_offset_elsewhere (by omega) htest).next
    ((meets_offset_elsewhere (by omega) hleft).next ?_))
  refine meets_elements_elsewhere (fun x hx => ?_) fun x hx => ?_
  · obtain ⟨p', q', hep, hpq, -, hxstands⟩ := helements x hx
    exact ⟨p', q', hxstands, hpq, by omega⟩
  · obtain rfl := Option.some.inj hx
    exact ⟨f - 1, by omega, hright⟩

end Records

/-- What a conditional records behind its consequence is for tokens behind that. -/
theorem conditional_records {c : Node} (hn : s.Stands n i j) (hcompound : n.IsCompound)
    (hshape : n.ConditionalShape s.buffer) (hword : s.At i word)
    (hc : n.field? "consequence" = some c) {a b : Nat} (hstands : s.Stands c a b) (hia : i < a)
    (hab : a < b) (hbj : b ≤ j) (ht : s.At a t) (hok : ∃ b, (conditional s n).result = .ok b) :
    (conditional s n).Records ⟨t, some word, bodyLevels t⟩ := by
  obtain ⟨consequence, hconsequence, ⟨_, _, -, -, -, hturn⟩, halternative⟩ := hshape
  obtain rfl := Option.mem_unique hc hconsequence.1
  obtain ⟨_, _, -, -, _, _, -, -, p, q, -, hcstands, hmore⟩ := hn.turn hcompound hturn
  obtain ⟨rfl, rfl⟩ := hstands.unique hab hcstands
  have hne : t ≠ word := by
    rintro rfl
    have := Source.eq_of_getElem? ht hword
    omega
  obtain ⟨keyword, left, hkeyword, -, hfirsts⟩ := hn.exists_firsts (by omega)
  obtain rfl := Option.mem_unique hword hkeyword
  unfold conditional at hok ⊢
  rw [hfirsts] at hok ⊢
  refine records_of_ok hok fun consequence hconsequence hok => ?_
  refine records_of_ok hok fun _ _ hok => ?_
  refine records_of_ok hok fun _ _ _ => ?_
  obtain rfl := Option.mem_unique (eq_of_part hconsequence) hc
  have hrecords : (body s consequence word).Records ⟨t, some word, bodyLevels t⟩ :=
    body_records ((hstands.ends hab).first?_eq.trans ht) hne
  refine hrecords.elsewhere ht ?_
  cases hother : n.field? "alternative" with
  | none => exact meets_pure trivial
  | some alternative =>
    obtain ⟨hmem, hclause⟩ := halternative alternative hother
    rw [hother] at hmore
    obtain ⟨e, f, hqe, hastands, -⟩ := hmore
    have hef := hn.lt_of_mem hmem hastands
    refine (meets_first hastands hef).bind fun other hother => ?_
    refine (meets_offset_elsewhere (by omega) hother).next ?_
    cases hstatements : alternative.codeChildren with
    | nil => exact meets_pure trivial
    | cons statement rest =>
      obtain ⟨g, h, heg, hgh, -, hsstands⟩ :=
        hastands.child hclause (hstatements ▸ List.mem_cons_self)
      exact (meets_first hsstands hgh).bind fun _ htoken =>
        meets_offset_elsewhere (by omega) htoken

/-- The statement behind an else is placed last. -/
theorem alternative_records {clause c : Node} (hn : s.Stands n i j) (hij : i + 1 < j)
    (hclause : n.field? "alternative" = some clause) (hword : s.firstOfNode? clause = some word)
    (hstatements : clause.codeChildren = [c]) (hc : s.firstOfNode? c = some t) (hne : t ≠ word)
    (hok : ∃ b, (conditional s n).result = .ok b) :
    (conditional s n).Records ⟨t, some word, bodyLevels t⟩ := by
  obtain ⟨keyword, left, hkeyword, -, hfirsts⟩ := hn.exists_firsts hij
  unfold conditional at hok ⊢
  rw [hfirsts] at hok ⊢
  refine records_of_ok hok fun consequence hconsequence hok => ?_
  refine records_of_ok hok fun _ _ hok => ?_
  refine records_of_ok hok fun _ _ hok => ?_
  refine records_of_ok hok fun _ _ hok => ?_
  rw [hclause] at hok ⊢
  refine records_of_ok hok fun other hother hok => ?_
  refine records_of_ok hok fun _ _ _ => ?_
  obtain rfl := Option.mem_unique (eq_of_require hother) hword
  rw [hstatements]
  exact body_records hc hne

/-! ## semicolons at the end -/

/-- The token is the semicolon at the end of the statement, and the last token of its line. -/
def Trails (s : Source) (n : Node) (t : Token) : Prop :=
  closingSemicolon? s n = some t ∧ (s.after? t).all (t.line < ·.line) = true

instance (s : Source) (n : Node) (t : Token) : Decidable (Trails s n t) :=
  inferInstanceAs (Decidable (_ ∧ _))

/-- Only the semicolon at its end is placed by a statement besides its rule, flush with it. -/
theorem mem_trailingSemicolon {start : Token} (hstart : s.first? n = some start) {e : Entry} :
    e ∈ trailingSemicolon s n ↔
      Trails s n e.token ∧ e.token ≠ start ∧ e = ⟨e.token, some start, 0⟩ := by
  unfold trailingSemicolon Trails
  rw [hstart]
  cases hclosing : closingSemicolon? s n with
  | none => simp
  | some semicolon =>
    dsimp only
    constructor
    · intro he
      split at he
      · next hline =>
        obtain ⟨u, hu, rfl⟩ := List.mem_map.1 he
        obtain ⟨hmem, hne⟩ := List.mem_filter.1 hu
        obtain rfl := List.mem_singleton.1 hmem
        exact ⟨⟨rfl, hline⟩, by simpa using hne, rfl⟩
      · simp at he
    · rintro ⟨⟨heq, hline⟩, hne, he⟩
      obtain rfl := Option.some.inj heq
      rw [if_pos hline, he]
      simp [Entry.offsets, hne]

end Rule

namespace Source

open Rule

variable {s : Source} {n keyword body : Node} {ancestors : List Node} {i k a j : Nat}
  {word t : Token} {caseLevels : Int}

variable (caseLevels) in
/-- The rule of the statement records the first token of the body relative to the keyword. -/
theorem Body.records (g : s.root.Grammatical s.buffer)
    (hplace : ⟨n, ancestors⟩ ∈ s.root.visited []) (hn : s.Stands n i j)
    (h : n.Governs s.buffer keyword body) (hbody : s.Body n keyword body i k a j word)
    (ht : s.At a t) :
    ∃ construct, Construct.ofKind? n.kind = some construct ∧
      (ofConstruct s caseLevels ancestors n construct).Records ⟨t, some word, bodyLevels t⟩ := by
  have hok {construct : Construct} (hrule : Construct.ofKind? n.kind = some construct)
      (hprogram : construct ≠ .program) :
      ∃ b, (ofConstruct s caseLevels ancestors n construct).result = .ok b := by
    obtain ⟨-, b, hb, -⟩ := ofConstruct_staysInside g hplace hn hrule hprogram caseLevels
    exact ⟨b, hb⟩
  obtain ⟨b, hstands, hab, hbj⟩ := hbody.stands
  have hik := hbody.le
  have hka := hbody.lt
  have hfirst : s.firstOfNode? body = some t := (hstands.ends hab).first?_eq.trans ht
  have hne : t ≠ word := by
    rintro rfl
    have := eq_of_getElem? ht hbody.word_at
    omega
  have hshape {construct : Construct} (hrule : Construct.ofKind? n.kind = some construct) :=
    shape_of_visited g hplace hrule
  have hcompound := h.isCompound
  cases h with
  | @consequence head rest kind_eq parts_eq spells encloses part =>
    have hrule : Construct.ofKind? n.kind = some .conditional := by rw [kind_eq]; decide
    have hword := (hn.firstOfNode?_eq hcompound spells (by decide) parts_eq).trans hbody.first
    refine ⟨_, hrule, conditional_records hn hcompound (hshape hrule) ?_ part.1 hstands (by omega)
      hab hbj ht (hok hrule (by simp))⟩
    exact (hn.ends (by omega)).first?_eq.symm.trans hword
  | @alternative clause kind_eq part clause_kind parts_eq spells code =>
    have hrule : Construct.ofKind? n.kind = some .conditional := by rw [kind_eq]; decide
    have hclauseCompound : clause.IsCompound :=
      ⟨by rw [Node.isComment, clause_kind]; decide, by rw [clause_kind]; decide⟩
    obtain ⟨c, d, -, -, -, hclause⟩ := hn.child hcompound part.2
    have hword := (hclause.firstOfNode?_eq hclauseCompound spells (by decide) parts_eq).trans
      hbody.first
    refine ⟨_, hrule, alternative_records hn (by omega) part.1 hword ?_ hfirst hne
      (hok hrule (by simp))⟩
    rw [Node.codeChildren_eq_filter, parts_eq]
    simp [spells.anonymous, code.1]
  | @headed head word' kind_eq parts_eq spells encloses part =>
    have hrule : Construct.ofKind? n.kind = some .headed := by
      rcases kind_eq with ⟨hkind, -⟩ | ⟨hkind, -⟩ <;> rw [hkind] <;> decide
    have hspelling : Node.IsSpelling word' := by
      rcases kind_eq with ⟨-, rfl⟩ | ⟨-, rfl⟩ <;> decide
    have hword := (hn.firstOfNode?_eq hcompound spells hspelling parts_eq).trans hbody.first
    exact ⟨_, hrule, headed_records hword hfirst hne part.1 (hok hrule (by simp))⟩
  | @doLoop rest kind_eq parts_eq spells part =>
    have hrule : Construct.ofKind? n.kind = some .doLoop := by rw [kind_eq]; decide
    have hword := (hn.firstOfNode?_eq hcompound spells (by decide) parts_eq).trans hbody.first
    exact ⟨_, hrule, doLoop_records hword hfirst hne part.1 hn (hshape hrule) hstands hab hcompound
      (hok hrule (by simp))⟩
  | @forLoop middle right kind_eq parts_eq spells closes part =>
    have hword := (hn.firstOfNode?_eq hcompound spells (by decide) parts_eq).trans hbody.first
    rcases kind_eq with hkind | hkind
    · have hrule : Construct.ofKind? n.kind = some .forLoop := by rw [hkind]; decide
      exact ⟨_, hrule, forLoop_records hword hfirst hne part.1 (hok hrule (by simp))⟩
    · have hrule : Construct.ofKind? n.kind = some .forInLoop := by rw [hkind]; decide
      exact ⟨_, hrule, forInLoop_records hword hfirst hne part.1 (hok hrule (by simp))⟩

/-- A governed body is visited. -/
theorem exists_visited_of_governs (hplace : ⟨n, ancestors⟩ ∈ s.root.visited [])
    {construct : Construct} (hrule : Construct.ofKind? n.kind = some construct)
    (h : n.Governs s.buffer keyword body) : ∃ above, ⟨body, above⟩ ∈ s.root.visited [] := by
  rcases h.mem_codeChildren with hmem | ⟨clause, hclause, hkind, hmem⟩
  · exact ⟨_, Node.child_mem_visited hplace hrule hmem⟩
  · have hplain : Construct.ofKind? clause.kind = some .plain := by rw [hkind]; decide
    exact ⟨_, Node.child_mem_visited (Node.child_mem_visited hplace hrule hclause) hplain hmem⟩

section Lasting

variable (h : s.Orderly) (hplace : ⟨n, ancestors⟩ ∈ s.root.visited []) (hn : s.Stands n i j)
  (hgoverns : n.Governs s.buffer keyword body) (hbody : s.Body n keyword body i k a j word)
  (ht : s.At a t)

include h hplace hn hgoverns hbody ht

theorem Body.calm : s.Calm a := by
  obtain ⟨construct, hrule, -⟩ := hbody.records 1 h.grammatical hplace hn hgoverns ht
  obtain ⟨above, hvisited⟩ := exists_visited_of_governs hplace hrule hgoverns
  obtain ⟨b, hstands, hab, -⟩ := hbody.stands
  exact h.calm hvisited hstands hab fun _ _ ht => hbody.before ht

omit h hplace hbody ht hn in
/-- Such a statement has nothing in common with others but the semicolon at its end. -/
theorem common_of_governs : common s n = trailingSemicolon s n ∧ n.kind ≠ "class_body" ∧
    n.kind ≠ "field_definition" := by
  have hall : ∀ kind ∈ ["if_statement", "while_statement", "with_statement", "do_statement",
      "for_statement", "for_in_statement"], Construct.isStatementKind kind = true ∧
        Construct.isExpressionKind kind = false ∧ kind ≠ "class_body" ∧
          kind ≠ "field_definition" := by decide
  obtain ⟨hstatement, hexpression, hblock, hfield⟩ := hall _ hgoverns.mem_kinds
  exact ⟨by simp [common, hstatement, hexpression], hblock, hfield⟩

/-- A body is placed relative to its keyword, unless it is the semicolon that ends the statement and
its line. -/
theorem get?_of_body (htrails : ¬Trails s n t) :
    (s.analyze caseLevels).registry.get? t = some ⟨t, some word, bodyLevels t⟩ := by
  obtain ⟨construct, hrule, hrecords⟩ := hbody.records caseLevels h.grammatical hplace hn hgoverns ht
  obtain ⟨hcommon, hblock, -⟩ := common_of_governs hgoverns
  obtain ⟨b, -, hab, hbj⟩ := hbody.stands
  have hik := hbody.le
  have hka := hbody.lt
  have hij : i < j := by omega
  obtain ⟨start, hstart, hfirst⟩ := (hn.ends hij).exists_first?
  refine h.get?_of_rule (e := ⟨t, some word, bodyLevels t⟩) hplace hn hrule hblock hrecords ht
    (by omega) (by omega) (fun d hd => ?_) (hbody.calm h hplace hn hgoverns ht) hbody.outside
  rw [hcommon] at hd
  obtain ⟨l, _, -, -, -, hl, -, -⟩ := trailingSemicolon_entry hn hij hd
  refine ⟨l, ?_, hl⟩
  rintro rfl
  obtain heq : d.token = t := Option.mem_unique hl ht
  exact htrails (heq ▸ ((mem_trailingSemicolon hfirst).1 hd).1)

/-- A semicolon that ends the statement and its line is flush with the statement. -/
theorem get?_of_trails (htrails : Trails s n t) {start : Token} (hstart : s.At i start) :
    (s.analyze caseLevels).registry.get? t = some ⟨t, some start, 0⟩ := by
  obtain ⟨construct, hrule, hrecords⟩ := hbody.records caseLevels h.grammatical hplace hn hgoverns ht
  obtain ⟨hcommon, hblock, -⟩ := common_of_governs hgoverns
  obtain ⟨b, -, hab, hbj⟩ := hbody.stands
  have hik := hbody.le
  have hka := hbody.lt
  have hij : i < j := by omega
  have hfirst : s.first? n = some start := (hn.ends hij).first?_eq.trans hstart
  have hne : t ≠ start := by
    rintro rfl
    have := eq_of_getElem? ht hstart
    omega
  have hdraft : visit? s caseLevels ⟨n, ancestors⟩ =
      some (ofConstruct s caseLevels ancestors n construct >>= fun _ =>
        Draft.write (trailingSemicolon s n)) := by
    rw [visit?, hrule, ← hcommon]
    rfl
  obtain ⟨b, hb⟩ := hrecords.ok
  have hlast : (ofConstruct s caseLevels ancestors n construct >>= fun _ =>
      Draft.write (trailingSemicolon s n)).Records ⟨t, some start, 0⟩ := by
    refine Draft.records_of_ok ⟨(), by rw [Draft.bind_of_ok hb]; rfl⟩ fun _ _ _ => ?_
    refine Draft.records_write ((mem_trailingSemicolon hfirst).2 ⟨htrails, hne, rfl⟩) ?_
    intro d hd heq
    obtain rfl : d.token = t := heq
    exact ((mem_trailingSemicolon hfirst).1 hd).2.2
  exact h.get?_analyze hplace hn hblock hdraft hlast ht (by omega) hij
    (hbody.calm h hplace hn hgoverns ht) hbody.outside

end Lasting

end Source

end ScriptIndent
