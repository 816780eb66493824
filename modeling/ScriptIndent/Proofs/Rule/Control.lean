import ScriptIndent.Proofs.Rule.Operators

/-!
# ScriptIndent.Proofs.Rule.Control

Control flow of the right shape: the rules go through, and what they draft stays
inside.
-/

namespace ScriptIndent.Rule

open Draft

variable {s : Source} {n : Node} {i j : Nat}

/-! ## heads and bodies -/

/-- What a sign is spelled like makes it a punctuator. -/
theorem isPunctuator_of_value {t : Token} {value : String} (hvalue : t.value = value)
    (hkind : t.kind = .ofLeaf value false value)
    (hsign : TokenKind.ofLeaf value false value = .punctuator) :
    t.isPunctuator value = true := by
  rw [Token.isPunctuator, hkind, hsign, hvalue]
  simp

/-- The head of a statement stands behind its keyword and ends with a closing
parenthesis, and the rest of the statement stands behind it. -/
theorem head_turn (h : s.Stands n i j) (hn : n.IsCompound) {name : String} {more : List Node}
    (hhead : n.HasHead s.buffer name more) :
    ∃ head k l, n.IsPart name head ∧ head.Enclosed s.buffer "(" ")" ∧ s.Stands head k l ∧
      i < k ∧ k + 2 ≤ l ∧ (∃ t, s.At (l - 1) t ∧ t.isClosingParen = true) ∧
      s.Turn more l j := by
  obtain ⟨keyword, head, ⟨value, hkeyword, hspelling⟩, hpart, henclosed, hturn⟩ := hhead
  obtain ⟨a, b, hia, hkstands, k, l, hbk, hstands, hmore⟩ := h.turn hn hturn
  obtain ⟨rfl, -⟩ := hkstands.spells hkeyword hspelling
  obtain ⟨hkl, -, ⟨t, ht, hvalue, hkind⟩, -⟩ := hstands.enclosed henclosed (by decide) (by decide)
  exact ⟨head, k, l, hpart, henclosed, hstands, by omega, hkl,
    ⟨t, ht, isPunctuator_of_value hvalue hkind (by decide)⟩, hmore⟩

theorem body_staysInside {c : Node} {k l a : Nat} {keyword : Token} (hkeyword : s.At k keyword)
    (hc : s.Stands c a l) (hal : a < l) (h : k = a ∨ k < a ∧ i < a ∧ a < j) :
    (body s c keyword).StaysInside s i j :=
  (meets_first hc hal).bind fun _ htoken => meets_offset hkeyword htoken h

theorem conditional_staysInside (h : s.Stands n i j) (hn : n.IsCompound)
    (hshape : n.ConditionalShape s.buffer) : (conditional s n).StaysInside s i j := by
  obtain ⟨consequence, hconsequence, hhead, halternative⟩ := hshape
  obtain ⟨head, k, l, -, -, -, hik, hkl, ⟨u, hu, hclosing⟩, c, d, hlc, hcstands, hmore⟩ :=
    head_turn h hn hhead
  have hcd := h.lt_of_mem hconsequence.2 hcstands
  have hdj := hmore.le
  obtain ⟨keyword, left, hkeyword, hleft, hfirsts⟩ := h.exists_firsts (by omega)
  unfold conditional
  rw [hfirsts]
  simp only
  refine meets_part hconsequence.1 ?_
  refine (meets_offset hkeyword hleft (by omega)).next ?_
  -- the last closing parenthesis before the consequence ends the condition, or is nearer
  obtain ⟨m, t, hlm, hmc, ht, -, hscan⟩ := Source.exists_scanDown (i := c) (by omega) hu hclosing
  rw [(hcstands.ends hcd).beforeWhere?_eq, hscan]
  refine (meets_offset hleft ht (by omega)).next ?_
  refine (body_staysInside hkeyword hcstands hcd (by omega)).next ?_
  cases hother : n.field? "alternative" with
  | none => exact meets_pure trivial
  | some alternative =>
    obtain ⟨hmem, hcompound⟩ := halternative alternative hother
    obtain ⟨a, b, hia, hab, hbj, hastands⟩ := h.child hn hmem
    refine (meets_first hastands hab).bind fun other hother => ?_
    refine (meets_offset hkeyword hother (by omega)).next ?_
    cases hstatements : alternative.codeChildren with
    | nil => exact meets_pure trivial
    | cons statement rest =>
      obtain ⟨e, f, hae, hef, hfb, hsstands⟩ :=
        hastands.child hcompound (hstatements ▸ List.mem_cons_self)
      exact body_staysInside hother hsstands hef (by omega)

theorem headed_staysInside (h : s.Stands n i j) (hn : n.IsCompound)
    (hshape : n.HeadedShape s.buffer) : (headed s n).StaysInside s i j := by
  obtain ⟨name, statement, hstatement, hhead⟩ := hshape
  obtain ⟨head, k, l, -, -, -, hik, hkl, ⟨u, hu, hclosing⟩, c, d, hlc, hcstands,
    (hdj : d ≤ j)⟩ := head_turn h hn hhead
  have hcd := h.lt_of_mem hstatement.2 hcstands
  refine (meets_first h (by omega)).bind fun keyword hkeyword => ?_
  obtain ⟨left, hleft⟩ := h.exists_at (k := i + 1) (by omega)
  refine (meets_require ((s.ends_token hkeyword).after?_eq.trans hleft) hleft).bind
    fun left hleft => ?_
  refine meets_part hstatement.1 ?_
  obtain ⟨m, t, hlm, hmc, ht, -, hscan⟩ := Source.exists_scanDown (i := c) (by omega) hu hclosing
  refine (meets_require (((hcstands.ends hcd).beforeWhere?_eq _).trans hscan) ht).bind
    fun right hright => ?_
  refine (meets_offset hkeyword hleft (by omega)).next ?_
  refine (meets_offset hleft hright (by omega)).next ?_
  exact body_staysInside hkeyword hcstands hcd (by omega)

theorem doLoop_staysInside (h : s.Stands n i j) (hn : n.IsCompound)
    (hshape : n.DoLoopShape s.buffer) : (doLoop s n).StaysInside s i j := by
  obtain ⟨keyword, statement, again, condition, ⟨value, hkeyword, hspelling⟩, hstatement, hagain,
    hcondition, henclosed, hturn⟩ := hshape
  obtain ⟨a, b, hia, hkstands, c, d, hbc, hsstands, k, l, hdk, hastands, e, f, hle, hcstands,
    (hfj : f ≤ j)⟩ := h.turn hn hturn
  have hcd := h.lt_of_mem hstatement.2 hsstands
  have hef := h.lt_of_mem hcondition.2 hcstands
  obtain ⟨rfl, -⟩ := hkstands.spells hkeyword hspelling
  obtain ⟨rfl, u, hu, huvalue, -⟩ := hastands.spells hagain (by decide)
  obtain ⟨-, -, -, helements⟩ := hcstands.enclosed henclosed (by decide) (by decide)
  refine (meets_first h (by omega)).bind fun word hword => ?_
  refine meets_part hstatement.1 ?_
  obtain ⟨m, t, hdm, hmk, ht, -, hscan⟩ :=
    Source.exists_scanUp hdk hu (isNotClosingParen_of_value huvalue (by decide))
  refine (meets_require (((hsstands.ends hcd).afterWhere?_eq _).trans hscan) ht).bind
    fun test htest => ?_
  refine meets_part hcondition.1 ?_
  refine (meets_first hcstands hef).bind fun left hleft => ?_
  refine (meets_last hcstands hef).bind fun right hright => ?_
  refine (body_staysInside hword hsstands hcd (by omega)).next ?_
  refine (meets_offset hword htest (by omega)).next ?_
  refine (meets_offset htest hleft (by omega)).next ?_
  refine meets_elements hleft (fun x hx => ?_) fun x hx => ?_
  · obtain ⟨p, q, hep, hpq, hqf, hxstands⟩ := helements x hx
    exact ⟨p, q, hxstands, hpq, by omega⟩
  · obtain rfl := Option.some.inj hx
    exact ⟨f - 1, hright, by omega⟩

/-- The token before a node, which stands behind another. -/
theorem before?_eq_at {c : Node} {k l : Nat} (hc : s.Stands c k l) (hkl : k < l) (hk : 0 < k) :
    ∃ t, s.before? c = some t ∧ s.At (k - 1) t := by
  obtain ⟨t, ht⟩ := hc.exists_at (k := k - 1) (by omega)
  exact ⟨t, by rw [(hc.ends hkl).before?_eq, if_neg (by omega), ht], ht⟩

theorem forLoop_staysInside (h : s.Stands n i j) (hn : n.IsCompound)
    (hshape : n.ForLoopShape s.buffer) : (forLoop s n).StaysInside s i j := by
  obtain ⟨keyword, opening, closing, statement, ⟨value, hkeyword, hspelling⟩, hopening, hclosing,
    hstatement, hturn⟩ := hshape
  obtain ⟨a, b, hia, hkstands, c, d, hbc, hostands, e, f, hde, hcstands, k, l, hfk, hsstands,
    (hlj : l ≤ j)⟩ := h.turn hn hturn
  have hkl := h.lt_of_mem hstatement.2 hsstands
  obtain ⟨rfl, -⟩ := hkstands.spells hkeyword hspelling
  obtain ⟨rfl, -⟩ := hostands.spells hopening (by decide)
  obtain ⟨rfl, -⟩ := hcstands.spells hclosing (by decide)
  refine (meets_first h (by omega)).bind fun word hword => ?_
  obtain ⟨t, ht⟩ := h.exists_at (k := i + 1) (by omega)
  refine (meets_require ((s.ends_token hword).after?_eq.trans ht) ht).bind fun left hleft => ?_
  refine meets_part hstatement.1 ?_
  obtain ⟨u, hbefore, hu⟩ := before?_eq_at hsstands hkl (by omega)
  refine (meets_require hbefore hu).bind fun right hright => ?_
  refine (meets_offset hword hleft (by omega)).next ?_
  refine Meets.next ?_ (body_staysInside hword hsstands hkl (by omega))
  refine meets_elements hleft (fun x hx => ?_) fun x hx => ?_
  · obtain ⟨hx, hbetween⟩ := List.mem_filter.1 hx
    rw [Bool.and_eq_true, decide_eq_true_eq] at hbetween
    obtain ⟨p, q, hip, hpq, hqj, hxstands⟩ := h.child hn hx
    refine ⟨p, q, hxstands, hpq, ?_⟩
    -- a clause begins behind the opening parenthesis, so not with the keyword
    have hne : p ≠ i := by
      rintro rfl
      have h₁ := ((hxstands.covers hpq).overlap (Nat.le_refl p) hpq hword).2
      have h₂ := h.ordered.disjoint (by omega) hword hleft
      have h₃ := h.ordered.proper hleft
      lia
    omega
  · obtain rfl := Option.some.inj hx
    exact ⟨k - 1, hright, by omega⟩

theorem forInWord_meets {E : Entry → Prop} {word : Node} (hword : n.field? "operator" = some word)
    {k l : Nat} (hstands : s.Stands word k l) (hkl : k < l) :
    (forInWord s n).Meets E (s.At k) := by
  unfold forInWord
  rw [hword]
  exact meets_first hstands hkl

theorem keyword?_meets_none {E : Entry → Prop} {value : String} (h : n.keyword? value = none) :
    (keyword? s n value).Meets E (· = none) := by
  rw [keyword?, h]
  exact meets_pure rfl

theorem keyword?_meets_some {E : Entry → Prop} {value : String} {c : Node} {k l : Nat}
    (h : n.keyword? value = some c) (hstands : s.Stands c k l) (hkl : k < l) :
    (keyword? s n value).Meets E fun o => ∃ t, o = some t ∧ s.At k t := by
  rw [keyword?, h]
  exact (meets_first hstands hkl).bind fun t ht => meets_pure ⟨t, rfl, ht⟩

/-- The parenthesis of a loop over a collection follows the keyword, or the word
behind it. -/
theorem forInLoop_turn (h : s.Stands n i j) (hn : n.IsCompound)
    (hshape : n.ForInLoopShape s.buffer) :
    ∃ m opening target word closing statement, i ≤ m ∧
      (∀ {E : Entry → Prop}, (keyword? s n "await").Meets E fun o =>
        o = none ∧ m = i ∨ ∃ t, o = some t ∧ s.At m t ∧ i < m) ∧
      opening.Spells s.buffer "(" ∧ n.IsPart "left" target ∧
      n.field? "operator" = some word ∧ word.IsOperator s.buffer ∧
      closing.Spells s.buffer ")" ∧ n.IsPart "body" statement ∧
      s.Turn [opening, target, word, closing, statement] (m + 1) j := by
  obtain ⟨keyword, opening, target, word, closing, statement, ⟨value, hkeyword, hspelling⟩,
    hopening, htarget, hword, hsign, hclosing, hstatement, hawait, hturn⟩ := hshape
  obtain ⟨a, b, hia, hkstands, hturn⟩ := h.turn hn hturn
  obtain ⟨rfl, -⟩ := hkstands.spells hkeyword hspelling
  cases hsome : n.keyword? "await" with
  | none =>
    rw [hsome] at hturn
    exact ⟨i, opening, target, word, closing, statement, Nat.le_refl i,
      (keyword?_meets_none hsome).mono (fun _ he => he) fun _ ho => .inl ⟨ho, rfl⟩, hopening,
      htarget, hword, hsign, hclosing, hstatement, hturn.weaken (by omega)⟩
  | some await =>
    rw [hsome] at hturn
    obtain ⟨c, d, hbc, hastands, hturn⟩ := hturn
    obtain ⟨rfl, -⟩ := hastands.spells (hawait await hsome) (by decide)
    exact ⟨c, opening, target, word, closing, statement, by omega,
      (keyword?_meets_some hsome hastands (by omega)).mono (fun _ he => he)
        fun _ ⟨t, ho, ht⟩ => .inr ⟨t, ho, ht, by omega⟩, hopening,
      htarget, hword, hsign, hclosing, hstatement, hturn⟩

/-- Something follows the parenthesis of a loop over a collection. -/
theorem forInLoop_target (h : s.Stands n i j) (hn : n.IsCompound)
    (hshape : n.ForInLoopShape s.buffer) {keyword left : Token} {await : Option Token}
    (hkeyword : (first s n).result = .ok keyword)
    (hawait : (keyword? s n "await").result = .ok await)
    (hleft : s.after? (await.getD keyword) = some left) : s.after? left ≠ none := by
  obtain ⟨m, opening, target, word, closing, statement, him, hmeets, hopening, htarget, -, -, -, -,
    a, b, hma, hostands, c, d, hbc, htstands, hturn⟩ := forInLoop_turn h hn hshape
  have hcd := h.lt_of_mem htarget.2 htstands
  have hdj := hturn.le
  obtain ⟨rfl, -⟩ := hostands.spells hopening (by decide)
  obtain ⟨-, first, hfirst, hi⟩ := meets_first (E := fun _ => True) h (by omega)
  obtain rfl := Except.ok.inj (hkeyword.symm.trans hfirst)
  have hbase : s.At m (await.getD keyword) := by
    obtain ⟨-, o, ho, hcases⟩ := hmeets (E := fun _ => True)
    obtain rfl := Except.ok.inj (hawait.symm.trans ho)
    rcases hcases with ⟨rfl, rfl⟩ | ⟨t, rfl, ht, -⟩
    · exact hi
    · exact ht
  obtain ⟨t, ht⟩ := h.exists_at (k := m + 2) (by omega)
  rw [(s.ends_token hbase).after?_eq] at hleft
  rw [(s.ends_token hleft).after?_eq, ht]
  simp

theorem forInLoop_staysInside (h : s.Stands n i j) (hn : n.IsCompound)
    (hshape : n.ForInLoopShape s.buffer) : (forInLoop s n).StaysInside s i j := by
  obtain ⟨m, opening, target, word, closing, statement, him, hmeets, hopening, htarget, hword,
    ⟨value', hsign, hspelling', -⟩, hclosing, hstatement, hturn⟩ := forInLoop_turn h hn hshape
  obtain ⟨c, d, hmc, hostands, e, f, hde, htstands, k, l, hfk, hwstands, o, p, hlo, hcstands,
    q, r, hpq, hsstands, (hrj : r ≤ j)⟩ := hturn
  have hef := h.lt_of_mem htarget.2 htstands
  have hqr := h.lt_of_mem hstatement.2 hsstands
  obtain ⟨rfl, -⟩ := hostands.spells hopening (by decide)
  obtain ⟨rfl, -⟩ := hwstands.spells hsign hspelling'
  obtain ⟨rfl, -⟩ := hcstands.spells hclosing (by decide)
  refine (meets_first h (by omega)).bind fun first hfirst => ?_
  refine hmeets.bind fun await hawait => ?_
  have hbase : s.At m (await.getD first) := by
    rcases hawait with ⟨rfl, rfl⟩ | ⟨t, rfl, ht, -⟩
    · exact hfirst
    · exact ht
  obtain ⟨t, ht⟩ := h.exists_at (k := m + 1) (by omega)
  refine (meets_require ((s.ends_token hbase).after?_eq.trans ht) ht).bind fun left hleft => ?_
  obtain ⟨start, hstart⟩ := h.exists_at (k := m + 2) (by omega)
  have htargets : s.after? left = some start := (s.ends_token hleft).after?_eq.trans hstart
  simp only [htargets]
  refine (forInWord_meets hword hwstands (by omega)).bind fun sign hsign => ?_
  refine meets_part hstatement.1 ?_
  obtain ⟨u, hbefore, hu⟩ := before?_eq_at hsstands hqr (by omega)
  refine (meets_require hbefore hu).bind fun right hright => ?_
  refine (meets_offsets hfirst fun x hx => ?_).next ?_
  · rcases hawait with ⟨rfl, -⟩ | ⟨t, rfl, ht, him⟩
    · simp at hx
    · obtain rfl : x = t := by simpa using hx
      exact ⟨m, ht, by omega⟩
  refine (meets_offset hfirst hleft (by omega)).next ?_
  refine (meets_offsets hleft fun x hx => ?_).next ?_
  · obtain rfl : x = start := by simpa using hx
    exact ⟨m + 2, hstart, by omega⟩
  refine (meets_write (inside_of_mem_offsets hstart fun x hx => ?_)).next ?_
  · rcases List.mem_cons.1 hx with rfl | hx
    · exact ⟨k, hsign, by omega⟩
    · rw [(s.ends_token hsign).after?_eq, Option.mem_toList] at hx
      exact ⟨k + 1, hx, by omega⟩
  refine (meets_offset hleft hright (by omega)).next ?_
  exact body_staysInside hfirst hsstands hqr (by omega)

theorem switch_staysInside (h : s.Stands n i j) (hn : n.IsCompound)
    (hshape : n.SwitchShape s.buffer) (caseLevels : Int) :
    (switch s caseLevels n).StaysInside s i j := by
  obtain ⟨clauses, hclauses, henclosed, hhead⟩ := hshape
  obtain ⟨head, k, l, hpart, hparens, hstands, hik, hkl, -, c, d, hlc, hcstands, (hdj : d ≤ j)⟩ :=
    head_turn h hn hhead
  have hcd := h.lt_of_mem hclauses.2 hcstands
  obtain ⟨-, -, -, hinner⟩ := hstands.enclosed hparens (by decide) (by decide)
  obtain ⟨-, -, -, hmembers⟩ := hcstands.enclosed henclosed (by decide) (by decide)
  refine (meets_first h (by omega)).bind fun keyword hkeyword => ?_
  refine meets_part hpart.1 ?_
  refine (meets_first hstands (by omega)).bind fun left hleft => ?_
  refine (meets_last hstands (by omega)).bind fun right hright => ?_
  refine meets_part hclauses.1 ?_
  refine (meets_first hcstands hcd).bind fun leftBrace hleftBrace => ?_
  refine (meets_last hcstands hcd).bind fun rightBrace hrightBrace => ?_
  refine (meets_offset hkeyword hleft (by omega)).next ?_
  refine (meets_elements hleft (fun x hx => ?_) fun x hx => ?_).next ?_
  · obtain ⟨p, q, hkp, hpq, hql, hxstands⟩ := hinner x hx
    exact ⟨p, q, hxstands, hpq, by omega⟩
  · obtain rfl := Option.some.inj hx
    exact ⟨l - 1, hright, by omega⟩
  refine (meets_offset hkeyword hleftBrace (by omega)).next ?_
  refine meets_elements hleftBrace (fun x hx => ?_) fun x hx => ?_
  · obtain ⟨p, q, hcp, hpq, hqd, hxstands⟩ := hmembers x hx
    exact ⟨p, q, hxstands, hpq, by omega⟩
  · obtain rfl := Option.some.inj hx
    exact ⟨d - 1, hrightBrace, by omega⟩

/-- A token of a stretch that stands directly behind another is found. -/
theorem meets_after {E : Entry → Prop} {m : Node} {description : String} {k : Nat} {t : Token}
    (h : s.Stands n i j) (ht : s.At k t) (hk : k + 1 < j) :
    (require s m description (s.after? t)).Meets E (s.At (k + 1)) := by
  obtain ⟨u, hu⟩ := h.exists_at hk
  exact meets_require ((s.ends_token ht).after?_eq.trans hu) hu

theorem clauseColon_meets (h : s.Stands n i j) (hn : n.IsCompound)
    (hshape : n.ClauseShape s.buffer) {keyword : Token} (hkeyword : s.At i keyword) :
    (clauseColon s n keyword).Meets (Entry.Inside s i j) fun _ => True := by
  obtain ⟨word, colon, ⟨value, hword, hspelling⟩, hcolon, hvalue, hturn⟩ := hshape
  obtain ⟨a, b, hia, hwstands, hturn⟩ := h.turn hn hturn
  obtain ⟨rfl, -⟩ := hwstands.spells hword hspelling
  unfold clauseColon
  cases hsome : n.field? "value" with
  | none =>
    rw [hsome] at hturn
    obtain ⟨c, d, hbc, hcstands, (hdj : d ≤ j)⟩ := hturn
    obtain ⟨rfl, -⟩ := hcstands.spells hcolon (by decide)
    refine (meets_after h hkeyword (by omega)).bind fun sign hsign => ?_
    exact (meets_offset hkeyword hsign (by omega)).next (meets_pure trivial)
  | some test =>
    rw [hsome] at hturn
    obtain ⟨c, d, hbc, htstands, e, f, hde, hcstands, (hfj : f ≤ j)⟩ := hturn
    have hcd := h.lt_of_mem (hvalue test hsome) htstands
    obtain ⟨rfl, -⟩ := hcstands.spells hcolon (by decide)
    obtain ⟨u, hu⟩ := h.exists_at (k := d) (by omega)
    refine (meets_require ((htstands.ends hcd).after?_eq.trans hu) hu).bind fun sign hsign => ?_
    refine (meets_first htstands hcd).bind fun token htoken => ?_
    refine (meets_offsets hkeyword fun x hx => ?_).next (meets_pure trivial)
    simp only [List.mem_cons, List.not_mem_nil, or_false] at hx
    rcases hx with rfl | rfl
    · exact ⟨c, htoken, by omega⟩
    · exact ⟨d, hsign, by omega⟩

theorem clause_staysInside (h : s.Stands n i j) (hn : n.IsCompound)
    (hshape : n.ClauseShape s.buffer) : (clause s n).StaysInside s i j := by
  have hij : i < j := by
    obtain ⟨word, colon, ⟨value, hword, hspelling⟩, -, -, hturn⟩ := hshape
    obtain ⟨a, b, hia, hwstands, hturn⟩ := h.turn hn hturn
    have := (hwstands.spells hword hspelling).1
    have := hturn.le
    omega
  refine (meets_first h hij).bind fun keyword hkeyword => ?_
  refine (clauseColon_meets h hn hshape hkeyword).bind fun colon _ => ?_
  refine meets_each fun statement hmem => ?_
  obtain ⟨k, l, hik, hkl, hlj, hstands⟩ := h.child hn (List.mem_filter.1 hmem).1
  exact (meets_first hstands hkl).bind fun token htoken =>
    meets_offset hkeyword htoken (by omega)

/-- A part is placed relative to the first token of its construct. -/
theorem part_staysInside (h : s.Stands n i j) (hn : n.IsCompound) {name : String} {c : Node}
    (hc : n.IsPart name c) {k : Nat} {keyword : Token} (hkeyword : s.At k keyword) (levels : Int)
    (hk : ∀ a b, s.Stands c a b → i ≤ a → a < b → b ≤ j → k = a ∨ k < a ∧ i < a) :
    (do offset (← firstOf s (n.field? name)) levels keyword : Draft Unit).StaysInside s i j := by
  obtain ⟨a, b, hia, hab, hbj, hstands⟩ := h.child hn hc.2
  have := hk a b hstands hia hab hbj
  exact (meets_firstOf hc.1 hstands hab).bind fun token htoken =>
    meets_offset hkeyword htoken (by omega)

/-- The word and the brace of a finalizer are placed relative to the keyword. -/
theorem finalizer_staysInside (h : s.Stands n i j) (hn : n.IsCompound) (hshape : n.GuardedShape)
    {keyword : Token} (hkeyword : s.At i keyword) :
    (match n.field? "finalizer" with
      | none => pure ()
      | some finalizer => do
        let word ← first s finalizer
        match finalizer.field? "body" with
        | none => offset word 0 keyword
        | some block => do
          let brace ← first s block
          offsets [word, brace] 0 keyword : Draft Unit).StaysInside s i j := by
  obtain ⟨-, -, hfinalizer⟩ := hshape
  cases hsome : n.field? "finalizer" with
  | none => exact meets_pure trivial
  | some finalizer =>
    obtain ⟨hmem, hcompound, hbody⟩ := hfinalizer finalizer hsome
    obtain ⟨c, d, hic, hcd, hdj, hfstands⟩ := h.child hn hmem
    refine (meets_first hfstands hcd).bind fun word hword => ?_
    split
    · exact meets_offset hkeyword hword (by omega)
    · next block hblock =>
      obtain ⟨e, f, hce, hef, hfd, hbstands⟩ := hfstands.child hcompound (hbody block hblock)
      refine (meets_first hbstands hef).bind fun brace hbrace => ?_
      refine meets_offsets hkeyword fun x hx => ?_
      simp only [List.mem_cons, List.not_mem_nil, or_false] at hx
      rcases hx with rfl | rfl
      · exact ⟨c, hword, by omega⟩
      · exact ⟨e, hbrace, by omega⟩

theorem guarded_staysInside (h : s.Stands n i j) (hn : n.IsCompound)
    (hshape : n.GuardedShape) : (guarded s n).StaysInside s i j := by
  obtain ⟨⟨statement, hstatement⟩, hhandler, -⟩ := id hshape
  obtain ⟨a, b, hia, hab, hbj, hstands⟩ := h.child hn hstatement.2
  refine (meets_first h (by omega)).bind fun keyword hkeyword => ?_
  refine (meets_firstOf hstatement.1 hstands hab).bind fun token htoken => ?_
  refine (meets_offset hkeyword htoken (by omega)).next ?_
  have hlast := finalizer_staysInside h hn hshape hkeyword
  cases hsome : n.field? "handler" with
  | none => exact hlast
  | some handler =>
    obtain ⟨c, d, hic, hcd, hdj, hhstands⟩ := h.child hn (hhandler handler hsome)
    refine (meets_first hhstands hcd).bind fun word hword => ?_
    exact (meets_offset hkeyword hword (by omega)).next hlast

theorem handler_staysInside (h : s.Stands n i j) (hn : n.IsCompound)
    (hshape : n.HandlerShape s.buffer) : (handler s n).StaysInside s i j := by
  obtain ⟨keyword, statement, ⟨value, hkeyword, hspelling⟩, hstatement, hparameter⟩ := hshape
  have hij := lt_of_codeChildren h hn (List.ne_nil_of_mem hstatement.2)
  refine (meets_first h hij).bind fun word hword => ?_
  have hlast := part_staysInside h hn hstatement hword 0 fun a b _ hia _ _ => by omega
  cases hsome : n.field? "parameter" with
  | none => exact hlast
  | some parameter =>
    obtain ⟨hmem, opening, closing, hopening, hclosing, hturn⟩ := hparameter parameter hsome
    obtain ⟨a, b, hia, hkstands, c, d, hbc, hostands, e, f, hde, hpstands, k, l, hfk, hcstands,
      hrest⟩ := h.turn hn hturn
    have hlj := hrest.le
    have hef := h.lt_of_mem hmem hpstands
    obtain ⟨rfl, -⟩ := hkstands.spells hkeyword hspelling
    obtain ⟨rfl, -⟩ := hostands.spells hopening (by decide)
    obtain ⟨rfl, -⟩ := hcstands.spells hclosing (by decide)
    obtain ⟨u, hbefore, hu⟩ := before?_eq_at hpstands hef (by omega)
    refine (meets_require hbefore hu).bind fun left hleft => ?_
    refine (meets_offset hword hleft (by omega)).next ?_
    refine (meets_elements hleft (fun x hx => ?_) fun x hx => ?_).next hlast
    · obtain rfl := List.mem_singleton.1 hx
      exact ⟨e, f, hpstands, hef, by omega⟩
    · rw [(hpstands.ends hef).after?_eq] at hx
      exact ⟨f, hx, by omega⟩

theorem labeled_staysInside (h : s.Stands n i j) (hn : n.IsCompound)
    (hshape : n.LabeledShape s.buffer) : (labeled s n).StaysInside s i j := by
  obtain ⟨label, colon, statement, hlabel, hcolon, hstatement, hturn⟩ := hshape
  obtain ⟨a, b, hia, hlstands, c, d, hbc, hcstands, e, f, hde, hsstands, (hfj : f ≤ j)⟩ :=
    h.turn hn hturn
  have hab := h.lt_of_mem hlabel hlstands
  have hef := h.lt_of_mem hstatement hsstands
  obtain ⟨rfl, -⟩ := hcstands.spells hcolon (by decide)
  refine (meets_first h (by omega)).bind fun word hword => ?_
  refine (meets_after h hword (by omega)).bind fun sign hsign => ?_
  refine meets_offsets hword fun x hx => ?_
  rcases List.mem_cons.1 hx with rfl | hx
  · exact ⟨i + 1, hsign, by omega⟩
  · rw [(s.ends_token hsign).after?_eq, Option.mem_toList] at hx
    exact ⟨i + 2, hx, by omega⟩

/-- A keyword in front of a construct has a token behind it. -/
theorem lt_of_keyword (h : s.Stands n i j) (hn : n.IsCompound) {keyword c : Node}
    (hkeyword : keyword.IsLexeme s.buffer) (hc : c ∈ n.codeChildren)
    (hturn : n.InTurn [keyword, c]) : i + 1 < j := by
  obtain ⟨value, hspells, hspelling⟩ := hkeyword
  obtain ⟨a, b, hia, hkstands, k, l, hbk, hcstands, (hlj : l ≤ j)⟩ := h.turn hn hturn
  have := (hkstands.spells hspells hspelling).1
  have := h.lt_of_mem hc hcstands
  omega

theorem jump_staysInside (h : s.Stands n i j) (hn : n.IsCompound)
    (hshape : n.JumpShape s.buffer) : (jump s n).StaysInside s i j := by
  unfold jump
  cases hsome : n.field? "label" with
  | none => exact meets_pure trivial
  | some label =>
    obtain ⟨hlabel, keyword, hkeyword, hturn⟩ := hshape label hsome
    have hij := lt_of_keyword h hn hkeyword hlabel hturn
    simp only [Option.isNone_some, Bool.false_eq_true, if_false]
    refine (meets_first h (by omega)).bind fun word hword => ?_
    exact after_staysInside hword (Nat.le_refl i) hij 1

theorem exit_staysInside (h : s.Stands n i j) (hn : n.IsCompound)
    (hshape : n.ExitShape s.buffer) : (exit s n).StaysInside s i j := by
  unfold exit
  rcases hshape with hempty | ⟨keyword, operand, hkeyword, hoperand, hturn⟩
  · rw [hempty]
    exact meets_pure trivial
  have hij := lt_of_keyword h hn hkeyword hoperand hturn
  rw [if_neg (by simp [List.ne_nil_of_mem hoperand])]
  refine (meets_first h (by omega)).bind fun word hword => ?_
  exact after_staysInside hword (Nat.le_refl i) hij 1

end ScriptIndent.Rule
