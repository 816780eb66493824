import ScriptIndent.Proofs.Account.Control

/-!
# ScriptIndent.Proofs.Account.Clauses

The tokens of switch and try statements, of labels and of jumps.

```
switch ( a ) { case 1 : b }        the clauses are placed relative to the brace,
try { } catch ( e ) { } finally { }    handler and finalizer relative to the keyword
```
-/

namespace ScriptIndent

namespace Source

open Draft

variable {s : Source} {caseLevels : Int} {n c : Node} {ancestors : List Node} {i j a b : Nat}

namespace Occurs

/-! ## switch statements -/

/-- The parts of a switch statement, and those of its body. -/
theorem partsBegin_switch (h : s.Occurs n ancestors .switch i j) :
    s.PartsBegin (s.Accounted caseLevels) n i ∧ ∀ c a b, n.field? "body" = some c →
      c.kind = "switch_body" → s.Occurs c (n :: ancestors) .plain a b →
        s.PartsBegin (s.Accounted caseLevels) c a := by
  have hkept : s.Kept caseLevels (Rule.switch s caseLevels n) := h.kept caseLevels
  rw [Rule.switch] at hkept
  obtain ⟨word, head, body, hword, hhead, hbody, hparts⟩ := h.production
  obtain ⟨k, hk, l, hl, m, hm, rfl⟩ :=
    h.stands.standRun (h.isCompound (by simp) (by simp)) hparts (by simp)
  obtain rfl := hk.lexeme hword
  have hkl := h.stands.lt_of_mem hhead.2 hl
  have hlm := h.stands.lt_of_mem hbody.2 hm
  obtain ⟨keyword, hkeyword, hkept⟩ := hkept.first h.stands (by omega)
  obtain ⟨left, hleft, hkept⟩ := (hkept.part hhead.1).first hl hkl
  obtain ⟨right, -, hkept⟩ := hkept.last hl hkl
  obtain ⟨leftBrace, hleftBrace, hkept⟩ := (hkept.part hbody.1).first hm hlm
  obtain ⟨rightBrace, hrightBrace, hkept⟩ := hkept.last hm hlm
  obtain ⟨hplaced, hkept⟩ := hkept.next
  obtain ⟨hbrace, hclauses⟩ := hkept.next.2.next
  refine ⟨.of_run hparts hk ⟨_, hl, hplaced.offset hleft hkeyword (by omega), _, hm,
    hbrace.offset hleftBrace hkeyword (by omega), rfl⟩, fun c a b hfield hkind hc => ?_⟩
  obtain rfl := Option.mem_unique hbody.1 hfield
  obtain ⟨rfl, rfl⟩ := hm.unique hlm hc.stands
  have hcompound : body.IsCompound := isCompound_of_wrapper (by rw [hkind]; decide)
  have hplain : body.PlainProduction s.buffer := hc.production
  exact hclauses.listed hm hcompound (hplain.clauses hkind) (by decide) (by decide) hleftBrace
    hrightBrace fun _ _ _ hsign => by cases hsign

/-- The value of a clause and the colon are placed. -/
theorem kept_clauseColon (h : s.Occurs n ancestors .clause i j)
    (hvalue : ∀ value, n.field? "value" = some value → value ∈ n.codeChildren) {l : Nat}
    (hrun : s.StandRun (n.field? "value").toList (i + 1) l) {keyword colon : Token}
    (hkeyword : s.At i keyword) (hcolon : s.At l colon) {d : Token → Draft Unit}
    (hkept : s.Kept caseLevels (Rule.clauseColon s n keyword >>= d)) :
    s.RunBegins (s.Accounted caseLevels) (n.field? "value").toList (i + 1) l ∧
      s.Accounted caseLevels l ∧ s.Kept caseLevels (d colon) := by
  rw [Rule.clauseColon] at hkept
  have hle := hrun.le
  cases hfield : n.field? "value" with
  | none =>
    rw [hfield] at hrun hkept
    obtain rfl : i + 1 = l := hrun
    rw [bind_assoc] at hkept
    obtain ⟨t, ht, hkept⟩ := hkept.after hkeyword
    obtain rfl := Option.mem_unique hcolon ht
    rw [bind_assoc] at hkept
    obtain ⟨hplaced, hkept⟩ := hkept.next
    exact ⟨rfl, hplaced.offset hcolon hkeyword (by omega), hkept⟩
  | some value =>
    rw [hfield] at hrun hkept
    obtain ⟨k, hk, rfl⟩ := hrun
    have hik := h.stands.lt_of_mem (hvalue value hfield) hk
    rw [bind_assoc] at hkept
    obtain ⟨t, ht, hkept⟩ := hkept.require
    obtain rfl := Option.mem_unique hcolon ((hk.ends hik).after?_eq.symm.trans ht)
    rw [bind_assoc] at hkept
    obtain ⟨token, htoken, hkept⟩ := hkept.first hk hik
    rw [bind_assoc] at hkept
    obtain ⟨hplaced, hkept⟩ := hkept.next
    exact ⟨⟨_, hk, hplaced.offsets (by simp) htoken hkeyword (by omega), rfl⟩,
      hplaced.offsets (by simp) hcolon hkeyword (by omega), hkept⟩

theorem partsBegin_clause (h : s.Occurs n ancestors .clause i j) :
    s.PartsBegin (s.Accounted caseLevels) n i := by
  have hkept : s.Kept caseLevels (Rule.clause s n) := h.kept caseLevels
  rw [Rule.clause] at hkept
  obtain ⟨word, sign, statements, hword, hsign, hvalue, hstatements, hparts⟩ := h.production
  obtain ⟨k, hk, hrun⟩ :=
    h.stands.standRun (h.isCompound (by simp) (by simp)) hparts (by simp)
  obtain rfl := hk.lexeme hword
  have hij := h.lt (show word ∈ n.parts by simp [hparts]) hk (Nat.lt_succ_self i)
  obtain ⟨keyword, hkeyword, hkept⟩ := hkept.first h.stands hij
  obtain ⟨l, hvalues, _, hl, hrest⟩ := hrun.append
  obtain ⟨rfl, colon, hcolon, -⟩ := hl.spells hsign (by decide)
  have hle := hvalues.le
  obtain ⟨hfirst, hplaced, hkept⟩ := h.kept_clauseColon (fun value hfield =>
    Node.mem_codeChildren_of_parts (by simp [hparts, hfield]) (hvalue value hfield)) hvalues hkeyword
    hcolon hkept
  refine .of_run hparts hk (hfirst.append
    ⟨_, hl, hplaced, hrest.runBegins fun c hc a b hla _ hstands => ?_⟩)
  have hmem : c ∈ n.parts := by simp [hparts, hc]
  have hcode := Node.mem_codeChildren_of_parts hmem (hstatements c hc)
  have hstart := h.stands.stop_le_start (x := sign) (y := c) (by
    rw [hparts]
    refine .cons word ?_
    exact (List.nil_sublist _).append ((List.singleton_sublist.2 hc).cons_cons sign))
  have hstop := (hl.spans.range (Nat.le_refl _) (Nat.lt_succ_self _) hcolon).2
  obtain ⟨token, htoken, hkept⟩ :=
    (hkept.each (List.mem_filter.2 ⟨hcode, by simp only [decide_eq_true_eq]; lia⟩)).first hstands
      (h.stands.lt_of_mem hcode hstands)
  exact hkept.offset htoken hkeyword (by omega)

/-! ## try statements -/

/-- The finalizer of a try statement, if there is one, and its block. -/
theorem kept_finalizer (h : s.Occurs n ancestors .guarded i j) {m : Nat} (him : i < m)
    (hrun : s.StandRun (n.field? "finalizer").toList m j) {keyword : Token} (hkeyword : s.At i keyword)
    (hkept : s.Kept caseLevels (match n.field? "finalizer" with
      | none => pure ()
      | some finalizer => do
        let word ← first s finalizer
        match finalizer.field? "body" with
        | none => offset word 0 keyword
        | some block => do
          let brace ← first s block
          offsets [word, brace] 0 keyword)) :
    s.RunBegins (s.Accounted caseLevels) (n.field? "finalizer").toList m j ∧
      ∀ c a b, n.field? "finalizer" = some c → c.kind = "finally_clause" →
        s.Occurs c (n :: ancestors) .plain a b → s.PartsBegin (s.Accounted caseLevels) c a := by
  obtain ⟨-, -, hfinalizer⟩ := h.shape
  cases hfield : n.field? "finalizer" with
  | none =>
    rw [hfield] at hrun
    exact ⟨hrun, by simp⟩
  | some finalizer =>
    rw [hfield] at hkept hrun
    obtain ⟨_, hf, rfl⟩ := hrun
    obtain ⟨hmem, hcompound, hblock⟩ := hfinalizer finalizer hfield
    have hlt := h.stands.lt_of_mem hmem hf
    obtain ⟨token, htoken, hkept⟩ := hkept.first hf hlt
    cases hbody : finalizer.field? "body" with
    | none =>
      rw [hbody] at hkept
      refine ⟨⟨_, hf, hkept.offset htoken hkeyword (by omega), rfl⟩, fun c a b hc hkind hoccurs => ?_⟩
      obtain rfl := Option.some.inj hc
      have hplain : finalizer.PlainProduction s.buffer := hoccurs.production
      obtain ⟨_, block, -, hpart, -⟩ := hplain.finalizer hkind
      simp [hpart.1] at hbody
    | some block =>
      rw [hbody] at hkept
      obtain ⟨x, y, hmx, hxy, -, hstands⟩ := hf.child hcompound (hblock block hbody)
      obtain ⟨opening, hopening, hkept⟩ := hkept.first hstands hxy
      refine ⟨⟨_, hf, hkept.offsets (by simp) htoken hkeyword (by omega), rfl⟩,
        fun c a b hc hkind hoccurs => ?_⟩
      obtain rfl := Option.some.inj hc
      obtain ⟨rfl, rfl⟩ := hf.unique hlt hoccurs.stands
      have hplain : finalizer.PlainProduction s.buffer := hoccurs.production
      obtain ⟨word, other, hword, hother, hparts⟩ := hplain.finalizer hkind
      obtain rfl := Option.mem_unique hbody hother.1
      obtain ⟨k, hk, l, hl, rfl⟩ := hf.standRun hcompound hparts (by simp)
      obtain rfl := hk.lexeme hword
      obtain ⟨rfl, rfl⟩ := hstands.unique hxy hl
      exact .of_run hparts hk ⟨_, hl, hkept.offsets (by simp) hopening hkeyword (by omega), rfl⟩

/-- The parts of a try statement, and those of its finalizer. -/
theorem partsBegin_guarded (h : s.Occurs n ancestors .guarded i j) :
    s.PartsBegin (s.Accounted caseLevels) n i ∧ ∀ c a b, n.field? "finalizer" = some c →
      c.kind = "finally_clause" → s.Occurs c (n :: ancestors) .plain a b →
        s.PartsBegin (s.Accounted caseLevels) c a := by
  have hkept : s.Kept caseLevels (Rule.guarded s n) := h.kept caseLevels
  rw [Rule.guarded] at hkept
  obtain ⟨word, body, hword, hbody, hparts⟩ := h.production
  obtain ⟨-, hhandler, -⟩ := h.shape
  obtain ⟨k, hk, l, hl, hrun⟩ :=
    h.stands.standRun (h.isCompound (by simp) (by simp)) hparts (by simp)
  obtain rfl := hk.lexeme hword
  have hkl := h.stands.lt_of_mem hbody.2 hl
  have hij := h.lt (show word ∈ n.parts by simp [hparts]) hk (Nat.lt_succ_self i)
  obtain ⟨keyword, hkeyword, hkept⟩ := hkept.first h.stands hij
  obtain ⟨brace, hbrace, hkept⟩ := hkept.firstOf hbody.1 hl hkl
  obtain ⟨hplaced, hkept⟩ := hkept.next
  obtain ⟨m, hhandlers, hfinalizers⟩ := hrun.append
  have hlm := hhandlers.le
  have hbegins : s.RunBegins (s.Accounted caseLevels) (n.field? "handler").toList l m ∧
      (s.RunBegins (s.Accounted caseLevels) (n.field? "finalizer").toList m j ∧
        ∀ c a b, n.field? "finalizer" = some c → c.kind = "finally_clause" →
          s.Occurs c (n :: ancestors) .plain a b → s.PartsBegin (s.Accounted caseLevels) c a) := by
    cases hfield : n.field? "handler" with
    | none =>
      rw [hfield] at hkept hhandlers
      exact ⟨hhandlers, h.kept_finalizer (by omega) hfinalizers hkeyword hkept⟩
    | some handler =>
      rw [hfield] at hkept hhandlers
      obtain ⟨_, hh, rfl⟩ := hhandlers
      obtain ⟨token, htoken, hkept⟩ := hkept.first hh (h.stands.lt_of_mem (hhandler handler hfield) hh)
      obtain ⟨hword, hkept⟩ := hkept.next
      exact ⟨⟨_, hh, hword.offset htoken hkeyword (by omega), rfl⟩,
        h.kept_finalizer (by omega) hfinalizers hkeyword hkept⟩
  exact ⟨.of_run hparts hk ⟨_, hl, hplaced.offset hbrace hkeyword (by omega),
    hbegins.1.append hbegins.2.1⟩, hbegins.2.2⟩

theorem partsBegin_handler (h : s.Occurs n ancestors .handler i j) :
    s.PartsBegin (s.Accounted caseLevels) n i := by
  have hkept : s.Kept caseLevels (Rule.handler s n) := h.kept caseLevels
  rw [Rule.handler] at hkept
  have hcompound := h.isCompound (by simp) (by simp)
  obtain ⟨word, body, hword, hbody, hparts | ⟨opening, parameter, closing, hopening, hparameter,
    hclosing, hparts⟩⟩ := h.production
  · obtain ⟨k, hk, l, hl, rfl⟩ := h.stands.standRun hcompound hparts (by simp)
    obtain rfl := hk.lexeme hword
    have hlt := h.stands.lt_of_mem hbody.2 hl
    obtain ⟨keyword, hkeyword, hkept⟩ := hkept.first h.stands (by omega)
    refine .of_run hparts hk ⟨_, hl, ?_, rfl⟩
    cases hfield : n.field? "parameter" with
    | none =>
      rw [hfield] at hkept
      exact hkept.bodyOf hbody.1 hl hlt hkeyword (by omega)
    | some parameter =>
      rw [hfield] at hkept
      obtain ⟨left, -, hkept⟩ := hkept.require
      exact hkept.next.2.next.2.bodyOf hbody.1 hl hlt hkeyword (by omega)
  · obtain ⟨k, hk, l, hl, m, hm, o, ho, e, he, rfl⟩ := h.stands.standRun hcompound hparts (by simp)
    obtain rfl := hk.lexeme hword
    obtain rfl := (hl.spells hopening (by decide)).1
    obtain ⟨rfl, sign, hsign, -⟩ := ho.spells hclosing (by decide)
    have hlm := h.stands.lt_of_mem hparameter.2 hm
    have hoe := h.stands.lt_of_mem hbody.2 he
    obtain ⟨keyword, hkeyword, hkept⟩ := hkept.first h.stands (by omega)
    rw [hparameter.1] at hkept
    obtain ⟨left, hleft, hkept⟩ := hkept.require
    rw [(hm.ends hlm).before?_eq, if_neg (by omega)] at hleft
    rw [(hm.ends hlm).after?_eq, show s.tokens[m]? = some sign from hsign] at hkept
    obtain ⟨hplaced, hkept⟩ := hkept.next
    obtain ⟨hlist, hkept⟩ := hkept.next
    exact .of_run hparts hk ⟨_, hl, hplaced.offset hleft hkeyword (by omega), _, hm,
      hlist.element (by simp) hm hlm hleft (by omega), _, ho, hlist.closing hsign hleft (by omega),
      _, he, hkept.bodyOf hbody.1 he hoe hkeyword (by omega), rfl⟩

/-! ## labels, jumps and exits -/

theorem partsBegin_labeled (h : s.Occurs n ancestors .labeled i j) :
    s.PartsBegin (s.Accounted caseLevels) n i := by
  have hkept : s.Kept caseLevels (Rule.labeled s n) := h.kept caseLevels
  rw [Rule.labeled] at hkept
  obtain ⟨word, sign, body, hword, hsign, hbody, hparts⟩ := h.production
  obtain ⟨k, hk, l, hl, m, hm, rfl⟩ :=
    h.stands.standRun (h.isCompound (by simp) (by simp)) hparts (by simp)
  obtain rfl := hk.token hword
  obtain rfl := (hl.spells hsign (by decide)).1
  have hle := hm.le
  obtain ⟨label, hlabel, hkept⟩ := hkept.first h.stands (by omega)
  obtain ⟨colon, hcolon, hkept⟩ := hkept.after hlabel
  exact .of_run hparts hk ⟨_, hl, hkept.offsets (by simp) hcolon hlabel (by omega), _, hm,
    hkept.offsets_after (by simp) hcolon hlabel (by omega), rfl⟩

theorem partsBegin_jump (h : s.Occurs n ancestors .jump i j) :
    s.PartsBegin (s.Accounted caseLevels) n i := by
  have hkept : s.Kept caseLevels (Rule.jump s n) := h.kept caseLevels
  rw [Rule.jump] at hkept
  obtain ⟨word, hword, hparts⟩ := h.production
  have hkinds := isStatementKind_of_mem h.rule (by decide)
  obtain ⟨e, hej, ⟨k, hk, hrun⟩, hbegins⟩ :=
    h.terminated caseLevels (h.isCompound (by simp) (by simp)) hkinds.1 hkinds.2 hparts
  obtain rfl := hk.lexeme hword
  have hle := hrun.le
  refine hbegins _ hk (Nat.lt_succ_self i) ?_
  cases hlabel : n.field? "label" with
  | none =>
    rw [hlabel] at hrun
    exact hrun
  | some label =>
    rw [hlabel] at hrun
    obtain ⟨l, hl, rfl⟩ := hrun
    rw [if_neg (by simp [hlabel])] at hkept
    obtain ⟨keyword, hkeyword, hkept⟩ := hkept.first h.stands (by omega)
    exact ⟨_, hl, hkept.offsets_after (List.Subset.refl _) hkeyword hkeyword (by omega), rfl⟩

theorem partsBegin_exit (h : s.Occurs n ancestors .exit i j) :
    s.PartsBegin (s.Accounted caseLevels) n i := by
  have hkept : s.Kept caseLevels (Rule.exit s n) := h.kept caseLevels
  have hkinds := isStatementKind_of_mem h.rule (by decide)
  obtain ⟨word, hword, hparts | ⟨operand, hoperand, hparts⟩⟩ := h.production
  · obtain ⟨e, hej, ⟨k, hk, rfl⟩, hbegins⟩ :=
      h.terminated caseLevels (h.isCompound (by simp) (by simp)) hkinds.1 hkinds.2 hparts
    obtain rfl := hk.lexeme hword
    exact hbegins _ hk (Nat.lt_succ_self i) rfl
  · obtain ⟨e, hej, ⟨k, hk, l, hl, rfl⟩, hbegins⟩ :=
      h.terminated caseLevels (h.isCompound (by simp) (by simp)) hkinds.1 hkinds.2 hparts
    obtain rfl := hk.lexeme hword
    have hle := hl.le
    have hmem : operand ∈ n.parts := by
      rcases hparts with hparts | ⟨_, -, hparts⟩ <;> simp [hparts]
    have hcode := Node.mem_codeChildren_of_parts hmem hoperand
    rw [Rule.exit, if_neg (by simpa using List.ne_nil_of_mem hcode)] at hkept
    obtain ⟨keyword, hkeyword, hkept⟩ := hkept.first h.stands (by omega)
    exact hbegins _ hk (Nat.lt_succ_self i)
      ⟨_, hl, hkept.offsets_after (List.Subset.refl _) hkeyword hkeyword (by omega), rfl⟩

end Occurs

end Source

end ScriptIndent
