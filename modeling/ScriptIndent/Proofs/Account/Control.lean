import ScriptIndent.Proofs.Account.Lists

/-!
# ScriptIndent.Proofs.Account.Control

The tokens of control flow.

```
for ( let i = 0 ; i < n ; i ++ )  b      a semicolon in the head of a loop is passed over
for ( let x of y )  b                    and so is a variable behind its keyword
```

The keyword of an alternative and its statement are placed by the rule of the conditional around
it, and so are the blocks of a finalizer and the clauses of a switch statement.
-/

namespace ScriptIndent

namespace Source

open Draft

variable {s : Source} {caseLevels : Int} {n c : Node} {ancestors : List Node} {i j a b : Nat}

theorem Kept.body {keyword : Token} {m : Nat} (h : s.Kept caseLevels (Rule.body s c keyword))
    (hc : s.Stands c a b) (hab : a < b) (hkeyword : s.At m keyword) (hne : a ≠ m) :
    s.Accounted caseLevels a := by
  obtain ⟨token, htoken, h⟩ := h.first hc hab
  exact h.offset htoken hkeyword hne

/-- The body of a construct. -/
theorem Kept.bodyOf {keyword : Token} {m : Nat} {levels : Int} {p : Option Node}
    (h : s.Kept caseLevels (do Draft.offset (← Draft.firstOf s p) levels keyword)) (hp : p = some c)
    (hc : s.Stands c a b) (hab : a < b) (hkeyword : s.At m keyword) (hne : a ≠ m) :
    s.Accounted caseLevels a := by
  obtain ⟨token, htoken, h⟩ := h.firstOf hp hc hab
  exact h.offset htoken hkeyword hne

theorem Kept.keyword_none {β : Type} {value : String} {f : Option Token → Draft β}
    (h : s.Kept caseLevels (Draft.keyword? s n value >>= f)) (hnone : n.keyword? value = none) :
    s.Kept caseLevels (f none) := by
  rw [Draft.keyword?, hnone] at h
  exact h

theorem Kept.keyword_some {β : Type} {value : String} {f : Option Token → Draft β}
    (h : s.Kept caseLevels (Draft.keyword? s n value >>= f)) (hsome : n.keyword? value = some c)
    (hc : s.Stands c a b) (hab : a < b) : ∃ t, s.At a t ∧ s.Kept caseLevels (f (some t)) := by
  obtain ⟨-, o, hresult, t, rfl, ht⟩ :=
    Rule.keyword?_meets_some (E := fun _ => True) hsome hc hab
  obtain ⟨o, hother, -, hkept⟩ := h.bind
  obtain rfl := Except.ok.inj (hresult.symm.trans hother)
  exact ⟨t, ht, hkept⟩

/-- A part begins behind those before it. -/
theorem Stands.stop_le_start (h : s.Stands n i j) {x y : Node} (hsub : [x, y].Sublist n.parts) :
    x.stop ≤ y.start :=
  h.spans.nested.inOrder.le_of_sublist (hsub.trans List.filter_sublist)

namespace Occurs

/-! ## conditionals -/

theorem kept_conditional (h : s.Occurs n ancestors .conditional i j) (caseLevels : Int) :
    ∃ keyword left consequence, s.At i keyword ∧ s.At (i + 1) left ∧
      n.field? "consequence" = some consequence ∧
      s.Kept caseLevels (offset left 1 keyword) ∧
      s.Kept caseLevels (Rule.body s consequence keyword) ∧
      ∀ alternative a b, n.field? "alternative" = some alternative → s.Stands alternative a b →
        a < b → ∃ other, s.At a other ∧ s.Kept caseLevels (offset other 0 keyword) ∧
          ∀ statement rest, alternative.codeChildren = statement :: rest →
            s.Kept caseLevels (Rule.body s statement other) := by
  have hkept : s.Kept caseLevels (Rule.conditional s n) := h.kept caseLevels
  obtain ⟨word, head, consequence, hword, hhead, hconsequence, -, hparts⟩ := h.production
  obtain ⟨k, hk, l, hl, -⟩ :=
    h.stands.standRun (h.isCompound (by simp) (by simp)) hparts (by simp)
  obtain rfl := hk.lexeme hword
  have hlt := h.lt_of_isCode (by simp [hparts]) hhead hl
  have hlj := (h.stands.le_of_within hl hlt
    (.of_mem (List.mem_filter.1 (show head ∈ n.parts by simp [hparts])).1)).2
  obtain ⟨keyword, left, hkeyword, hleft, hfirsts⟩ := h.stands.exists_firsts (by omega)
  rw [Rule.conditional, hfirsts] at hkept
  obtain ⟨hleft', hkept⟩ := (hkept.part hconsequence.1).next
  obtain ⟨hbody, hkept⟩ := hkept.next.2.next
  refine ⟨keyword, left, consequence, hkeyword, hleft, hconsequence.1, hleft', hbody, ?_⟩
  intro alternative a b hfield hstands hab
  rw [hfield] at hkept
  obtain ⟨other, hother, hkept⟩ := hkept.first hstands hab
  obtain ⟨hplaced, hkept⟩ := hkept.next
  refine ⟨other, hother, hplaced, fun statement rest hstatement => ?_⟩
  rw [hstatement] at hkept
  exact hkept

theorem partsBegin_conditional (h : s.Occurs n ancestors .conditional i j) :
    s.PartsBegin (s.Accounted caseLevels) n i := by
  obtain ⟨word, head, consequence, hword, hhead, hconsequence, halternative, hparts⟩ := h.production
  obtain ⟨k, hk, l, hl, m, hm, hrest⟩ :=
    h.stands.standRun (h.isCompound (by simp) (by simp)) hparts (by simp)
  obtain rfl := hk.lexeme hword
  have hkl := h.lt_of_isCode (by simp [hparts]) hhead hl
  have hlm := h.stands.lt_of_mem hconsequence.2 hm
  obtain ⟨keyword, left, _, hkeyword, hleft, hfield, hplaced, hbody, hother⟩ :=
    h.kept_conditional caseLevels
  obtain rfl := Option.mem_unique hconsequence.1 hfield
  refine .of_run hparts hk ⟨_, hl, hplaced.offset hleft hkeyword (by omega), _, hm,
    hbody.body hm hlm hkeyword (by omega), hrest.runBegins fun c hc a b hma _ hstands => ?_⟩
  rw [Option.mem_toList] at hc
  have hab := h.lt_of_isCode (by simp [hparts, hc]) (halternative c hc) hstands
  obtain ⟨other, hat, hplaced, -⟩ := hother c a b hc hstands hab
  exact hplaced.offset hat hkeyword (by omega)

/-- The statement of an alternative. -/
theorem partsBegin_alternative (h : s.Occurs n ancestors .conditional i j)
    (hfield : n.field? "alternative" = some c) (hkind : c.kind = "else_clause")
    (hc : s.Occurs c (n :: ancestors) .plain a b) : s.PartsBegin (s.Accounted caseLevels) c a := by
  have hcompound : c.IsCompound := isCompound_of_wrapper (by rw [hkind]; decide)
  have hplain : c.PlainProduction s.buffer := hc.production
  obtain ⟨word, statement, hword, hstatement, hparts⟩ := hplain.alternative hkind
  obtain ⟨k, hk, l, hl, rfl⟩ := hc.stands.standRun hcompound hparts (by simp)
  obtain rfl := hk.lexeme hword
  have hlt := hc.lt_of_isCode (by simp [hparts]) hstatement hl
  obtain ⟨_, _, _, -, -, -, -, -, hother⟩ := h.kept_conditional caseLevels
  obtain ⟨other, hat, -, hbody⟩ := hother c _ _ hfield hc.stands (by omega)
  have hcode : c.codeChildren = [statement] := by
    obtain ⟨_, hspells, -⟩ := hword
    rw [Node.codeChildren_eq_filter, hparts]
    simp [hspells.anonymous, hstatement.1]
  exact .of_run hparts hk ⟨_, hl, (hbody _ _ hcode).body hl hlt hat (by omega), rfl⟩

/-! ## loops -/

theorem partsBegin_headed (h : s.Occurs n ancestors .headed i j) :
    s.PartsBegin (s.Accounted caseLevels) n i := by
  have hkept : s.Kept caseLevels (Rule.headed s n) := h.kept caseLevels
  rw [Rule.headed] at hkept
  obtain ⟨word, head, body, hword, hhead, hbody, hparts⟩ := h.production
  obtain ⟨k, hk, l, hl, m, hm, rfl⟩ :=
    h.stands.standRun (h.isCompound (by simp) (by simp)) hparts (by simp)
  obtain rfl := hk.lexeme hword
  have hkl := hl.le
  have hlm := h.stands.lt_of_mem hbody.2 hm
  obtain ⟨keyword, hkeyword, hkept⟩ := hkept.first h.stands (by omega)
  obtain ⟨left, hleft, hkept⟩ := hkept.after hkeyword
  obtain ⟨right, -, hkept⟩ := (hkept.part hbody.1).require
  obtain ⟨hplaced, hkept⟩ := hkept.next
  exact .of_run hparts hk ⟨_, hl, hplaced.offset hleft hkeyword (by omega),
    _, hm, hkept.next.2.body hm hlm hkeyword (by omega), rfl⟩

theorem partsBegin_doLoop (h : s.Occurs n ancestors .doLoop i j) :
    s.PartsBegin (s.Accounted caseLevels) n i := by
  have hkept : s.Kept caseLevels (Rule.doLoop s n) := h.kept caseLevels
  rw [Rule.doLoop] at hkept
  obtain ⟨word, body, again, condition, hword, hbody, hagain, hcondition, hparts⟩ := h.production
  have hkinds := isStatementKind_of_mem h.rule (by decide)
  obtain ⟨e, hej, ⟨k, hk, l, hl, m, hm, o, ho, rfl⟩, hbegins⟩ :=
    h.terminated caseLevels (h.isCompound (by simp) (by simp)) hkinds.1 hkinds.2 hparts
  obtain rfl := hk.lexeme hword
  obtain ⟨rfl, test, htest, hvalue, -⟩ := hm.spells hagain (by decide)
  have hkl := h.stands.lt_of_mem hbody.2 hl
  have hmo := h.stands.lt_of_mem hcondition.2 ho
  obtain ⟨keyword, hkeyword, hkept⟩ := hkept.first h.stands (by omega)
  obtain ⟨test', htest', hkept⟩ := (hkept.part hbody.1).require
  obtain rfl := Option.mem_unique
    ((hl.ends hkl).afterWhere?_eq_some htest (Rule.isNotClosingParen_of_value hvalue (by decide))) htest'
  obtain ⟨left, hleft, hkept⟩ := (hkept.part hcondition.1).first ho hmo
  obtain ⟨right, -, hkept⟩ := hkept.last ho hmo
  obtain ⟨hstatement, hkept⟩ := hkept.next
  obtain ⟨hwhile, hkept⟩ := hkept.next
  exact hbegins _ hk (Nat.lt_succ_self i) ⟨_, hl, hstatement.body hl hkl hkeyword (by omega),
    _, hm, hwhile.offset htest hkeyword (by omega),
    _, ho, hkept.next.1.offset hleft htest (by omega), rfl⟩

theorem partsBegin_forLoop (h : s.Occurs n ancestors .forLoop i j) :
    s.PartsBegin (s.Accounted caseLevels) n i := by
  have hkept : s.Kept caseLevels (Rule.forLoop s n) := h.kept caseLevels
  rw [Rule.forLoop] at hkept
  have hkind : n.kind = "for_statement" := by
    simpa [Construct.ruledKinds] using Rule.mem_ruledKinds h.rule (by simp)
  obtain ⟨word, opening, inner, closing, body, hword, hopening, hinner, hclosing, hbody, hparts⟩ :=
    h.production
  obtain ⟨k, hk, l, hl, hrun⟩ :=
    h.stands.standRun (h.isCompound (by simp) (by simp)) hparts (by simp)
  obtain rfl := hk.lexeme hword
  obtain rfl := (hl.spells hopening (by decide)).1
  obtain ⟨m, hclauses, _, hc, e, he, rfl⟩ := hrun.append
  obtain rfl := (hc.spells hclosing (by decide)).1
  have hle := hclauses.le
  have hlt := h.stands.lt_of_mem hbody.2 he
  obtain ⟨keyword, hkeyword, hkept⟩ := hkept.first h.stands (by omega)
  obtain ⟨left, hleft, hkept⟩ := hkept.after hkeyword
  obtain ⟨right, hright, hkept⟩ := (hkept.part hbody.1).require
  obtain ⟨hplaced, hkept⟩ := hkept.next
  obtain ⟨hlist, hstatement⟩ := hkept.next
  have hrightAt : s.At m right := by
    rw [(he.ends hlt).before?_eq, if_neg (by omega)] at hright
    exact hright
  refine .of_run hparts hk ⟨_, hl, hplaced.offset hleft hkeyword (by omega),
    (hclauses.runBegins fun d hd a b hma _ hstands => ?_).append
      ⟨_, hc, hlist.closing hrightAt hleft (by omega),
        _, he, hstatement.body he hlt hkeyword (by omega), rfl⟩⟩
  have hmem : d ∈ n.parts := by simp [hparts, hd]
  rcases hinner d hd with hcode | hspells
  · refine hlist.element (List.mem_filter.2 ⟨Node.mem_codeChildren_of_parts hmem hcode, ?_⟩) hstands
      (h.lt_of_isCode hmem hcode hstands) hleft (by omega)
    have hafter := h.stands.stop_le_start (x := opening) (y := d) (by
      rw [hparts]
      exact ((List.singleton_sublist.2 (by simp [hd])).cons_cons opening).cons word)
    have hbefore := h.stands.stop_le_start (x := d) (y := closing) (by
      rw [hparts]
      refine .cons word (.cons opening ?_)
      exact (List.singleton_sublist.2 hd).append (List.singleton_sublist.2 (by simp)))
    have hopens := hl.spans.range (Nat.le_refl _) (Nat.lt_succ_self _) hleft
    have hcloses := hc.spans.range (Nat.le_refl _) (Nat.lt_succ_self _) hrightAt
    simp only [Bool.and_eq_true, decide_eq_true_eq]
    lia
  · obtain rfl := (hstands.spells hspells (by decide)).1
    exact (PassedOver.head hkind hspells).accounted h.within hmem hstands (Nat.lt_succ_self a) caseLevels

private theorem kept_forInWord {word : Node} (hword : n.field? "operator" = some word)
    (hstands : s.Stands word a b) (hab : a < b) {d : Token → Draft Unit}
    (hkept : s.Kept caseLevels (Rule.forInWord s n >>= d)) :
    ∃ t, s.At a t ∧ s.Kept caseLevels (d t) := by
  rw [Rule.forInWord, hword] at hkept
  exact hkept.first hstands hab

/-- The parts of a loop over a collection from the parenthesis on, which stands behind the token at
place `m`. -/
theorem runBegins_of_forInLoop (h : s.Occurs n ancestors .forInLoop i j)
    {opening target word collection closing body : Node} {more : List Node}
    (hopening : opening.Spells s.buffer "(")
    (hmore : ∀ c ∈ target :: more, c ∈ n.parts ∧ (c.IsCode ∨ c.IsLexeme s.buffer))
    (hpassed : ∀ c ∈ more, s.PassedOver n c) (hword : word.IsOperator s.buffer)
    (hoperator : n.field? "operator" = some word)
    (hcollection : collection ∈ n.codeChildren) (hclosing : closing.Spells s.buffer ")")
    (hbody : n.IsPart "body" body) {m : Nat} (him : i ≤ m)
    (hrun : s.StandRun (opening :: target :: (more ++ [word, collection, closing, body])) (m + 1) j)
    {keyword last : Token} (hkeyword : s.At i keyword) (hlast : s.At m last)
    (await : List Token)
    (hkept : s.Kept caseLevels (do
      let left ← require s n "`(`" (s.after? last)
      let target := s.after? left
      let word ← Rule.forInWord s n
      let statement ← part .start (n.field? "body")
      let right ← require s n "`)`" (s.before? statement)
      offsets await 0 keyword
      offset left 1 keyword
      offsets target.toList 1 left
      write (Entry.offsets (word :: (s.after? word).toList) 1 target)
      offset right 0 left
      Rule.body s statement keyword)) :
    s.Kept caseLevels (offsets await 0 keyword) ∧ s.RunBegins (s.Accounted caseLevels)
      (opening :: target :: (more ++ [word, collection, closing, body])) (m + 1) j := by
  obtain ⟨k, hk, l, hl, hrun⟩ := hrun
  obtain rfl := (hk.spells hopening (by decide)).1
  obtain ⟨w, hbetween, _, hw, e, he, _, hc, o, ho, rfl⟩ := hrun.append
  obtain rfl := hw.lexeme hword.isLexeme
  obtain rfl := (hc.spells hclosing (by decide)).1
  have hlt (c : Node) (hc : c ∈ target :: more) {a b : Nat} (hstands : s.Stands c a b) : a < b := by
    obtain ⟨hmem, hcode | hlexeme⟩ := hmore c hc
    · exact h.lt_of_isCode hmem hcode hstands
    · have := hstands.lexeme hlexeme
      omega
  have htarget := hlt target List.mem_cons_self hl
  have hle := hbetween.le
  have hwe := h.stands.lt_of_mem hcollection he
  have heo := h.stands.lt_of_mem hbody.2 ho
  obtain ⟨first, hfirst⟩ := hl.exists_at htarget
  obtain ⟨left, hleft, hkept⟩ := hkept.after hlast
  have hafter : s.after? left = some first := (ends_token hleft).after?_eq.trans hfirst
  obtain ⟨sign, hsign, hkept⟩ := kept_forInWord hoperator hw (Nat.lt_succ_self w) hkept
  obtain ⟨right, hright, hkept⟩ := (hkept.part hbody.1).require
  rw [(ho.ends heo).before?_eq, if_neg (by omega)] at hright
  obtain ⟨hawait, hkept⟩ := hkept.next
  obtain ⟨hplaced, hkept⟩ := hkept.next
  obtain ⟨hvariables, hkept⟩ := hkept.next
  obtain ⟨hwords, hkept⟩ := hkept.next
  obtain ⟨hcloses, hstatement⟩ := hkept.next
  rw [hafter] at hwords
  have hwords : s.Kept caseLevels (offsets (sign :: (s.after? sign).toList) 1 first) := hwords
  refine ⟨hawait, _, hk, hplaced.offset hleft hkeyword (by omega), _, hl,
    hvariables.offsets_after (List.Subset.refl _) hleft hleft (by omega),
    (hbetween.runBegins fun c hc a b _ _ hstands => ?_).append
      ⟨_, hw, hwords.offsets (by simp) hsign hfirst (by omega), _, he,
        hwords.offsets_after (by simp) hsign hfirst (by omega), _, hc,
        hcloses.offset hright hleft (by omega), _, ho,
        hstatement.body ho heo hkeyword (by omega), rfl⟩⟩
  have hmem := List.mem_cons_of_mem target hc
  exact (hpassed c hc).accounted h.within (hmore c hmem).1 hstands (hlt c hmem hstands) caseLevels

theorem partsBegin_forInLoop (h : s.Occurs n ancestors .forInLoop i j) :
    s.PartsBegin (s.Accounted caseLevels) n i := by
  have hkept : s.Kept caseLevels (Rule.forInLoop s n) := h.kept caseLevels
  rw [Rule.forInLoop] at hkept
  have hkind : n.kind = "for_in_statement" := by
    simpa [Construct.ruledKinds] using Rule.mem_ruledKinds h.rule (by simp)
  obtain ⟨first, opening, target, more, word, collection, closing, body, hfirst, hspells, hopening,
    hmore, hword, hoperator, hcollection, hclosing, hbody, hparts⟩ := h.production
  obtain ⟨k, hk, hrun⟩ :=
    h.stands.standRun (h.isCompound (by simp) (by simp)) hparts (by simp)
  obtain rfl := hk.lexeme hfirst
  have hij := h.lt (show first ∈ n.parts by simp [hparts]) hk (Nat.lt_succ_self i)
  obtain ⟨keyword, hkeyword, hkept⟩ := hkept.first h.stands hij
  have hmem (c : Node) (hc : c ∈ target :: more) : c ∈ n.parts := by
    rw [hparts]
    simp only [List.mem_cons, List.mem_append] at hc ⊢
    tauto
  have hcollectionMem := Node.mem_codeChildren_of_parts (n := n) (by simp [hparts]) hcollection
  cases hawait : n.keyword? "await" with
  | none =>
    rw [hawait] at hrun hparts
    have hpassed (c : Node) (hc : c ∈ more) : s.PassedOver n c :=
      .bound hkind [first] opening target more word [collection, closing, body] hparts hopening
        hoperator hc
    exact .of_run (by simpa using hparts) hk (h.runBegins_of_forInLoop hopening
      (fun c hc => ⟨hmem c hc, hmore c hc⟩) hpassed hword hoperator hcollectionMem hclosing hbody
      (Nat.le_refl i) hrun hkeyword hkeyword [] (hkept.keyword_none hawait)).2
  | some await =>
    rw [hawait] at hrun hparts
    obtain ⟨l, hl, hrun⟩ := hrun
    obtain rfl := (hl.spells (hspells await hawait) (by decide)).1
    obtain ⟨second, hsecond, hkept⟩ := hkept.keyword_some hawait hl (Nat.lt_succ_self _)
    have hpassed (c : Node) (hc : c ∈ more) : s.PassedOver n c :=
      .bound hkind [first, await] opening target more word [collection, closing, body] hparts
        hopening hoperator hc
    obtain ⟨hplaced, hbegins⟩ := h.runBegins_of_forInLoop hopening
      (fun c hc => ⟨hmem c hc, hmore c hc⟩) hpassed hword hoperator hcollectionMem hclosing hbody
      (Nat.le_succ i) hrun hkeyword hsecond [second] hkept
    exact .of_run (j := j) hparts hk
      ⟨_, hl, hplaced.offset hsecond hkeyword (by omega), hbegins⟩

end Occurs

end Source

end ScriptIndent
