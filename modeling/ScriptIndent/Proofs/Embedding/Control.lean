import ScriptIndent.Proofs.Embedding.Draft
import ScriptIndent.Proofs.Rule.Control

/-!
# ScriptIndent.Proofs.Embedding.Control

Rules for control flow, in a source and in a source around it.

In a loop over a collection, what follows the parenthesis must be found in the
smaller source, which is so if the loop has the shape that the grammar gives it
(`forInLoop_follows`).
-/

namespace ScriptIndent.Embedding

open Draft

variable {s s' : Source} {m : Embedding s s'} {n : Node}

/-! ## heads and bodies -/

theorem bodyLevels_eq {t t' : Token} (h : m.Pairs t t') :
    Rule.bodyLevels t' = Rule.bodyLevels t := by
  rw [Rule.bodyLevels, Token.isOpeningBrace, h.isPunctuator]
  rfl

theorem body_follows (hn : m.Domain n) {keyword keyword' : Token}
    (hkeyword : m.Pairs keyword keyword') :
    m.FollowsUnit (Rule.body s n keyword) (Rule.body s' (m.move n) keyword') := by
  refine (follows_first hn).bind fun t t' ht => ?_
  rw [bodyLevels_eq ht]
  exact follows_offset ht hkeyword

theorem answers_closingParen {c : Node} (hc : m.Domain c) :
    m.Answers (s.beforeWhere? Token.isClosingParen c)
      (s'.beforeWhere? Token.isClosingParen (m.move c)) :=
  answers_beforeWhere? (respects_isPunctuator ")") (.node hc)

/-- A node starts behind a token, or does not. -/
theorem stop_le_start {c : Node} (hc : m.Domain c) {t t' : Token} (h : m.Pairs t t') :
    decide (t'.stop ≤ (m.move c).start) = decide (t.stop ≤ c.start) := by
  obtain ⟨i, ht, ht'⟩ := h
  have hiff := m.lt_stop hc ht ht'
  exact decide_eq_decide.2 (by rw [← Int.not_lt, ← Int.not_lt, hiff])

/-- A node stops before a token, or does not. -/
theorem stop_le_token {c : Node} (hc : m.Domain c) {t t' : Token} (h : m.Pairs t t') :
    decide ((m.move c).stop ≤ t'.start) = decide (c.stop ≤ t.start) := by
  obtain ⟨i, ht, ht'⟩ := h
  have hiff := m.start_lt hc ht ht'
  exact decide_eq_decide.2 (by rw [← Int.not_lt, ← Int.not_lt, hiff])

/-! ## branches and loops -/

theorem conditional_follows (hn : m.Domain n) :
    m.FollowsUnit (Rule.conditional s n) (Rule.conditional s' (m.move n)) := by
  rw [Rule.conditional, Rule.conditional]
  have hfirsts := rel_firsts hn 2
  generalize s.firsts n 2 = ts at hfirsts
  generalize s'.firsts (m.move n) 2 = ts' at hfirsts
  cases hfirsts with
  | nil => exact follows_fail fun _ => rfl
  | cons hkeyword hfirsts =>
    cases hfirsts with
    | nil => exact follows_fail fun _ => rfl
    | cons hleft hfirsts =>
      cases hfirsts with
      | cons _ hfirsts => exact follows_fail fun _ => by simp [hfirsts.length_eq]
      | nil =>
        refine (follows_field hn "consequence").bind fun consequence _ ⟨hconsequence, heq⟩ => ?_
        subst heq
        refine (follows_offset hleft hkeyword).next ?_
        refine (follows_offsets (answers_closingParen hconsequence).owned hleft).next ?_
        refine (body_follows hconsequence hkeyword).next ?_
        rw [field?_move]
        cases halternative : n.field? "alternative" with
        | none => exact follows_pure trivial
        | some alternative =>
          have hc := domain_field? hn halternative
          refine (follows_first hc).bind fun other other' hother => ?_
          refine (follows_offset hother hkeyword).next ?_
          rw [codeChildren_move]
          cases hstatements : alternative.codeChildren with
          | nil => exact follows_pure trivial
          | cons statement rest =>
            have hstatement := domain_codeChildren hc statement (hstatements ▸ List.mem_cons_self)
            exact body_follows hstatement hother

theorem headed_follows (hn : m.Domain n) :
    m.FollowsUnit (Rule.headed s n) (Rule.headed s' (m.move n)) := by
  refine (follows_first hn).bind fun keyword keyword' hkeyword => ?_
  refine (follows_require hn "`(`" (answers_after? (.token hkeyword))).bind
    fun left left' hleft => ?_
  refine (follows_field hn "body").bind fun statement _ ⟨hstatement, heq⟩ => ?_
  subst heq
  refine (follows_require hn "`)`" (answers_closingParen hstatement)).bind
    fun right right' hright => ?_
  refine (follows_offset hleft hkeyword).next ?_
  refine (follows_offset hright hleft).next ?_
  exact body_follows hstatement hkeyword

theorem doLoop_follows (hn : m.Domain n) :
    m.FollowsUnit (Rule.doLoop s n) (Rule.doLoop s' (m.move n)) := by
  refine (follows_first hn).bind fun keyword keyword' hkeyword => ?_
  refine (follows_field hn "body").bind fun statement _ ⟨hstatement, heq⟩ => ?_
  subst heq
  refine (follows_require hn "`while`"
    (answers_afterWhere? respects_isNotClosingParen (.node hstatement))).bind
    fun test test' htest => ?_
  refine (follows_field hn "condition").bind fun condition _ ⟨hcondition, heq⟩ => ?_
  subst heq
  refine (follows_first hcondition).bind fun left left' hleft => ?_
  refine (follows_last hcondition).bind fun right right' hright => ?_
  refine (body_follows hstatement hkeyword).next ?_
  refine (follows_offset htest hkeyword).next ?_
  refine (follows_offset hleft htest).next ?_
  rw [codeChildren_move]
  exact follows_elements (domain_codeChildren hcondition) hleft (.some hright)

theorem forLoop_follows (hn : m.Domain n) :
    m.FollowsUnit (Rule.forLoop s n) (Rule.forLoop s' (m.move n)) := by
  refine (follows_first hn).bind fun keyword keyword' hkeyword => ?_
  refine (follows_require hn "`(`" (answers_after? (.token hkeyword))).bind
    fun left left' hleft => ?_
  refine (follows_field hn "body").bind fun statement _ ⟨hstatement, heq⟩ => ?_
  subst heq
  refine (follows_require hn "`)`" (answers_before? (.node hstatement))).bind
    fun right right' hright => ?_
  refine (follows_offset hleft hkeyword).next ?_
  have hclauses : ((m.move n).codeChildren.filter fun c =>
        left'.stop ≤ c.start && c.stop ≤ right'.start) =
      (n.codeChildren.filter fun c => left.stop ≤ c.start && c.stop ≤ right.start).map m.move := by
    rw [codeChildren_move]
    refine filter_move fun c hc => ?_
    have hc := domain_codeChildren hn c hc
    rw [stop_le_start hc hleft, stop_le_token hc hright]
  rw [hclauses]
  refine (follows_elements (fun c hc => domain_codeChildren hn c (List.mem_filter.1 hc).1) hleft
    (.some hright)).next ?_
  exact body_follows hstatement hkeyword

theorem forInWord_follows (hn : m.Domain n) :
    m.Follows m.Pairs (Rule.forInWord s n) (Rule.forInWord s' (m.move n)) := by
  rw [Rule.forInWord, Rule.forInWord, field?_move]
  cases hoperator : n.field? "operator" with
  | some operator => exact follows_first (domain_field? hn hoperator)
  | none =>
    refine (follows_field hn "left").bind fun left _ ⟨hleft, heq⟩ => ?_
    subst heq
    exact follows_require hn "`in`/`of`"
      (answers_afterWhere? respects_isNotClosingParen (.node hleft))

theorem Pairs.getD {o o' : Option Token} (ho : Option.Rel m.Pairs o o') {t t' : Token}
    (h : m.Pairs t t') : m.Pairs (o.getD t) (o'.getD t') := by
  cases ho with
  | none => exact h
  | some ho => exact ho

theorem PairsOwned.of_rel {o o' : Option Token} (h : Option.Rel m.Pairs o o') :
    m.PairsOwned o.toList o'.toList := (Answers.of_rel h).owned

theorem forInLoop_follows (hn : m.Domain n)
    (hshape : m.Full ∨
      ∃ i j, s.Stands n i j ∧ n.IsCompound ∧ n.ForInLoopShape s.buffer) :
    m.FollowsUnit (Rule.forInLoop s n) (Rule.forInLoop s' (m.move n)) := by
  refine (follows_first hn).bind_ok fun keyword keyword' hfirst hkeyword => ?_
  refine (follows_keyword? hn "await").bind_ok fun await await' hfound hawait => ?_
  have hbefore := hkeyword.getD hawait
  refine (follows_require hn "`(`" (answers_after? (.token hbefore))).bind_ok
    fun left left' hnext hleft => ?_
  have htarget : Option.Rel m.Pairs (s.after? left) (s'.after? left') := by
    refine (answers_after? (.token hleft)).rel (hshape.imp_right ?_)
    rintro ⟨i, j, h, hcompound, hshape⟩
    exact Rule.forInLoop_target h hcompound hshape hfirst hfound (of_require hnext)
  dsimp only
  refine (forInWord_follows hn).bind fun word word' hword => ?_
  refine (follows_field hn "body").bind fun statement _ ⟨hstatement, heq⟩ => ?_
  subst heq
  refine (follows_require hn "`)`" (answers_before? (.node hstatement))).bind
    fun right right' hright => ?_
  refine (follows_offsets (.of_rel hawait) hkeyword).next ?_
  refine (follows_offset hleft hkeyword).next ?_
  refine (follows_offsets (.of_rel htarget) hleft).next ?_
  refine (follows_write (carriesAll_offsets_of_rel
    (.cons hword (answers_after? (.token hword)).owned) 1 htarget)).next ?_
  refine (follows_offset hright hleft).next ?_
  exact body_follows hstatement hkeyword

theorem switch_follows (hn : m.Domain n) (caseLevels : Int) :
    m.FollowsUnit (Rule.switch s caseLevels n) (Rule.switch s' caseLevels (m.move n)) := by
  refine (follows_first hn).bind fun keyword keyword' hkeyword => ?_
  refine (follows_field hn "value").bind fun value _ ⟨hvalue, heq⟩ => ?_
  subst heq
  refine (follows_first hvalue).bind fun left left' hleft => ?_
  refine (follows_last hvalue).bind fun right right' hright => ?_
  refine (follows_field hn "body").bind fun clauses _ ⟨hclauses, heq⟩ => ?_
  subst heq
  refine (follows_first hclauses).bind fun leftBrace leftBrace' hleftBrace => ?_
  refine (follows_last hclauses).bind fun rightBrace rightBrace' hrightBrace => ?_
  refine (follows_offset hleft hkeyword).next ?_
  rw [codeChildren_move, codeChildren_move]
  refine (follows_elements (domain_codeChildren hvalue) hleft (.some hright)).next ?_
  refine (follows_offset hleftBrace hkeyword).next ?_
  exact follows_elements (domain_codeChildren hclauses) hleftBrace (.some hrightBrace)

theorem clauseColon_follows (hn : m.Domain n) {keyword keyword' : Token}
    (hkeyword : m.Pairs keyword keyword') :
    m.Follows m.Pairs (Rule.clauseColon s n keyword)
      (Rule.clauseColon s' (m.move n) keyword') := by
  rw [Rule.clauseColon, Rule.clauseColon, field?_move]
  cases hvalue : n.field? "value" with
  | some value =>
    have hc := domain_field? hn hvalue
    refine (follows_require hn "`:`" (answers_after? (.node hc))).bind
      fun colon colon' hcolon => ?_
    refine (follows_first hc).bind fun token token' htoken => ?_
    exact (follows_offsets (.cons htoken hcolon.owned) hkeyword).next (follows_pure hcolon)
  | none =>
    refine (follows_require hn "`:`" (answers_after? (.token hkeyword))).bind
      fun colon colon' hcolon => ?_
    exact (follows_offset hcolon hkeyword).next (follows_pure hcolon)

theorem statements_follow {statements : List Node} (h : ∀ c ∈ statements, m.Domain c)
    {keyword keyword' : Token} (hkeyword : m.Pairs keyword keyword') {levels : Int} :
    m.FollowsUnit
      (each (fun statement => do offset (← first s statement) levels keyword) statements)
      (each (fun statement => do offset (← first s' statement) levels keyword')
        (statements.map m.move)) := by
  refine follows_each (rel_moves h) fun c c' ⟨hc, heq⟩ => ?_
  subst heq
  exact (follows_first hc).bind fun t t' ht => follows_offset ht hkeyword

theorem clause_follows (hn : m.Domain n) :
    m.FollowsUnit (Rule.clause s n) (Rule.clause s' (m.move n)) := by
  refine (follows_first hn).bind fun keyword keyword' hkeyword => ?_
  refine (clauseColon_follows hn hkeyword).bind fun colon colon' hcolon => ?_
  have hstatements : ((m.move n).codeChildren.filter (colon'.stop ≤ ·.start)) =
      (n.codeChildren.filter (colon.stop ≤ ·.start)).map m.move := by
    rw [codeChildren_move]
    exact filter_move fun c hc => stop_le_start (domain_codeChildren hn c hc) hcolon
  have hdomain : ∀ c ∈ n.codeChildren.filter (colon.stop ≤ ·.start), m.Domain c :=
    fun c hc => domain_codeChildren hn c (List.mem_filter.1 hc).1
  rw [hstatements]
  generalize n.codeChildren.filter (colon.stop ≤ ·.start) = statements at hdomain
  match statements, hdomain with
  | [], hdomain => exact statements_follow hdomain hkeyword
  | [only], hdomain =>
    simp only [List.map_singleton, m.move_kind]
    exact statements_follow hdomain hkeyword
  | _ :: _ :: _, hdomain => exact statements_follow hdomain hkeyword

/-! ## exceptions, labels and exits -/

/-- The word and the brace of a finalizer are placed alike. -/
theorem finalizer_follows (hn : m.Domain n) {keyword keyword' : Token}
    (hkeyword : m.Pairs keyword keyword') :
    m.FollowsUnit
      (match n.field? "finalizer" with
        | none => pure ()
        | some finalizer => do
          let word ← first s finalizer
          match finalizer.field? "body" with
          | none => offset word 0 keyword
          | some block => do
            let brace ← first s block
            offsets [word, brace] 0 keyword)
      (match (n.field? "finalizer").map m.move with
        | none => pure ()
        | some finalizer => do
          let word ← first s' finalizer
          match finalizer.field? "body" with
          | none => offset word 0 keyword'
          | some block => do
            let brace ← first s' block
            offsets [word, brace] 0 keyword') := by
  cases hfinalizer : n.field? "finalizer" with
  | none => exact follows_pure trivial
  | some finalizer =>
    have hc := domain_field? hn hfinalizer
    refine (follows_first hc).bind fun word word' hword => ?_
    rw [field?_move]
    cases hblock : finalizer.field? "body" with
    | none => exact follows_offset hword hkeyword
    | some block =>
      refine (follows_first (domain_field? hc hblock)).bind fun brace brace' hbrace => ?_
      exact follows_offsets (.cons hword hbrace.owned) hkeyword

theorem guarded_follows (hn : m.Domain n) :
    m.FollowsUnit (Rule.guarded s n) (Rule.guarded s' (m.move n)) := by
  refine (follows_first hn).bind fun keyword keyword' hkeyword => ?_
  refine (follows_firstOf hn "body").bind fun body body' hbody => ?_
  refine (follows_offset hbody hkeyword).next ?_
  dsimp only
  rw [field?_move, field?_move]
  have hrest := finalizer_follows hn hkeyword
  cases hhandler : n.field? "handler" with
  | none => exact hrest
  | some handler =>
    refine (follows_first (domain_field? hn hhandler)).bind fun token token' htoken => ?_
    exact (follows_offset htoken hkeyword).next hrest

theorem handler_follows (hn : m.Domain n) :
    m.FollowsUnit (Rule.handler s n) (Rule.handler s' (m.move n)) := by
  refine (follows_first hn).bind fun keyword keyword' hkeyword => ?_
  dsimp only
  have hbody : m.FollowsUnit (do offset (← firstOf s (n.field? "body")) 0 keyword)
      (do offset (← firstOf s' ((m.move n).field? "body")) 0 keyword') :=
    (follows_firstOf hn "body").bind fun body body' hbody => follows_offset hbody hkeyword
  rw [field?_move n "parameter"]
  cases hparameter : n.field? "parameter" with
  | none => exact hbody
  | some parameter =>
    have hc := domain_field? hn hparameter
    refine (follows_require hn "`(`" (answers_before? (.node hc))).bind
      fun left left' hleft => ?_
    refine (follows_offset hleft hkeyword).next ?_
    have hitems : ∀ c ∈ [parameter], m.Domain c := by simpa using hc
    exact (follows_elements hitems hleft (answers_after? (.node hc))).next hbody

theorem labeled_follows (hn : m.Domain n) :
    m.FollowsUnit (Rule.labeled s n) (Rule.labeled s' (m.move n)) := by
  refine (follows_first hn).bind fun label label' hlabel => ?_
  refine (follows_require hn "`:`" (answers_after? (.token hlabel))).bind
    fun colon colon' hcolon => ?_
  exact follows_offsets (.cons hcolon (answers_after? (.token hcolon)).owned) hlabel

theorem jump_follows (hn : m.Domain n) :
    m.FollowsUnit (Rule.jump s n) (Rule.jump s' (m.move n)) := by
  rw [Rule.jump, Rule.jump, field?_move, Option.isNone_map]
  split
  · exact follows_pure trivial
  refine (follows_first hn).bind fun keyword keyword' hkeyword => ?_
  exact follows_offsets (answers_after? (.token hkeyword)).owned hkeyword

theorem exit_follows (hn : m.Domain n) :
    m.FollowsUnit (Rule.exit s n) (Rule.exit s' (m.move n)) := by
  rw [Rule.exit, Rule.exit, codeChildren_move, List.isEmpty_map]
  split
  · exact follows_pure trivial
  refine (follows_first hn).bind fun keyword keyword' hkeyword => ?_
  exact follows_offsets (answers_after? (.token hkeyword)).owned hkeyword

end ScriptIndent.Embedding
