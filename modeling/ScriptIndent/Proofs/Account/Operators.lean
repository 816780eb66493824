import ScriptIndent.Proofs.Account.Kept

/-!
# ScriptIndent.Proofs.Account.Operators

The tokens of operations.

```
a + b  ? c : - d        the sign of an operation and what follows it are placed
a [ 0 ] ++              but not the sign of an update behind several tokens
```
-/

namespace ScriptIndent

namespace Source

open Draft

variable {s : Source} {caseLevels : Int} {n : Node} {ancestors : List Node} {i j : Nat}

namespace Occurs

/-! ## chains -/

theorem isChainKind (h : s.Occurs n ancestors .chain i j) :
    Construct.isChainKind n.kind = true := by
  have hall : ∀ p ∈ Construct.ruledKinds, p.2 = .chain → Construct.isChainKind p.1 = true := by
    decide
  exact hall _ (Rule.mem_ruledKinds h.rule (by simp)) rfl

/-- The anchor of a chain stands at its left operand, or before it. -/
theorem exists_anchor (h : s.Occurs n ancestors .chain i j) {left : Node}
    (hleft : n.field? "left" = some left) {a b : Nat} (hstands : s.Stands left a b) (hab : a < b)
    (hia : i ≤ a) {d : Token → Draft Unit}
    (hkept : s.Kept caseLevels (firstOf s ((Rule.chainTop s n ancestors).field? "left") >>= d)) :
    ∃ m anchor, m ≤ a ∧ s.At m anchor ∧ s.Kept caseLevels (d anchor) := by
  rcases Rule.chainTop_left h.grammatical h.place h.stands with heq | ⟨first, k, l, hfirst, hk, hkl, hki⟩
  · rw [heq] at hkept
    obtain ⟨anchor, hanchor, hkept⟩ := hkept.firstOf hleft hstands hab
    exact ⟨a, anchor, Nat.le_refl a, hanchor, hkept⟩
  · obtain ⟨anchor, hanchor, hkept⟩ := hkept.firstOf hfirst hk hkl
    exact ⟨k, anchor, by omega, hanchor, hkept⟩

/-- The sign of a chain and its right operand are placed. -/
theorem signs_of_chain (h : s.Occurs n ancestors .chain i j) {left operator right : Node}
    (hleft : n.IsPart "left" left) (hoperator : operator.IsOperator s.buffer)
    (hright : n.IsPart "right" right) {a b l : Nat} (hia : i ≤ a) (hl : s.Stands left a b)
    (ho : s.Stands operator b (b + 1)) (hr : s.Stands right (b + 1) l) :
    s.Accounted caseLevels b ∧ s.Accounted caseLevels (b + 1) := by
  have hkept : s.Kept caseLevels (Rule.chain s ancestors n) := h.kept caseLevels
  rw [Rule.chain] at hkept
  have hab := h.stands.lt_of_mem hleft.2 hl
  obtain ⟨value, hspells, hvalue, hne⟩ := hoperator
  obtain ⟨-, sign, hsign, hsignValue, -⟩ := ho.spells hspells hvalue
  have hafter := (hl.ends hab).afterWhere?_eq_some hsign
    (Rule.isNotClosingParen_of_value hsignValue hne)
  obtain ⟨sign', hsign', hkept⟩ := (hkept.part hleft.1).require
  obtain rfl := Option.mem_unique hafter hsign'
  obtain ⟨operand, hoperand, hkept⟩ := hkept.firstOf hright.1 hr (h.stands.lt_of_mem hright.2 hr)
  obtain ⟨m, anchor, hma, hanchor, hkept⟩ := h.exists_anchor hleft.1 hl hab hia hkept
  exact ⟨hkept.offsets (by simp) hsign hanchor (by omega),
    hkept.offsets (by simp) hoperand hanchor (by omega)⟩

theorem partsBegin_chain (h : s.Occurs n ancestors .chain i j) :
    s.PartsBegin (s.Accounted caseLevels) n i := by
  have hcompound := h.isCompound (by simp) (by simp)
  obtain ⟨left, operator, right, hleft, hoperator, hright, hparts | ⟨word, hword, hparts⟩⟩ :=
    h.production
  · obtain ⟨b, hl, k, ho, l, hr, rfl⟩ := h.stands.standRun hcompound hparts (by simp)
    obtain rfl := ho.lexeme hoperator.isLexeme
    obtain ⟨hsign, hoperand⟩ := h.signs_of_chain hleft hoperator hright (Nat.le_refl i) hl ho hr
    exact .of_run hparts hl ⟨_, ho, hsign, _, hr, hoperand, rfl⟩
  · obtain ⟨a, hw, b, hl, k, ho, l, hr, rfl⟩ := h.stands.standRun hcompound hparts (by simp)
    obtain rfl := ho.lexeme hoperator.isLexeme
    obtain ⟨hsign, hoperand⟩ := h.signs_of_chain hleft hoperator hright hw.le hl ho hr
    have htarget : s.PassedOver n left := .target h.isChainKind word _ hword hparts
    exact .of_run hparts hw ⟨_, hl, htarget.accounted h.within (by simp [hparts]) hl
      (h.stands.lt_of_mem hleft.2 hl) caseLevels, _, ho, hsign, _, hr, hoperand, rfl⟩

/-! ## conditional expressions -/

theorem partsBegin_ternary (h : s.Occurs n ancestors .ternary i j) :
    s.PartsBegin (s.Accounted caseLevels) n i := by
  have hkept : s.Kept caseLevels (Rule.ternary s ancestors n) := h.kept caseLevels
  rw [Rule.ternary] at hkept
  obtain ⟨condition, question, consequence, colon, alternative, hparts, hcondition, hquestion,
    hconsequence, hcolon, halternative⟩ := h.production
  obtain ⟨k, hk, _, hq, l, hl, _, hc, m, hm, rfl⟩ :=
    h.stands.standRun (h.isCompound (by simp) (by simp)) hparts (by simp)
  obtain ⟨rfl, mark, hmark, hmarkValue, -⟩ := hq.spells hquestion (by decide)
  obtain ⟨rfl, sign, hsign, hsignValue, -⟩ := hc.spells hcolon (by decide)
  have hik := h.stands.lt_of_mem hcondition.2 hk
  have hkl := h.stands.lt_of_mem hconsequence.2 hl
  have hlm := h.stands.lt_of_mem halternative.2 hm
  obtain ⟨mark', hmark', hkept⟩ := (hkept.part hcondition.1).require
  obtain rfl := Option.mem_unique ((hk.ends hik).afterWhere?_eq_some hmark
    (Rule.isNotClosingParen_of_value hmarkValue (by decide))) hmark'
  obtain ⟨sign', hsign', hkept⟩ := (hkept.part hconsequence.1).require
  obtain rfl := Option.mem_unique ((hl.ends hkl).afterWhere?_eq_some hsign
    (Rule.isNotClosingParen_of_value hsignValue (by decide))) hsign'
  obtain ⟨a, b, htop, hab, hai⟩ :=
    Rule.ternaryTop_stands h.grammatical h.place (.refl n) h.stands (by omega)
  obtain ⟨anchor, hanchor, hkept⟩ := hkept.first htop hab
  obtain ⟨hsigns, hkept⟩ := hkept.next
  obtain ⟨hfirst, hsecond⟩ := hkept.next
  exact .of_run hparts hk ⟨_, hq, hsigns.offsets (by simp) hmark hanchor (by omega),
    _, hl, hfirst.offsets_after (List.Subset.refl _) hmark hmark (by omega),
    _, hc, hsigns.offsets (by simp) hsign hanchor (by omega),
    _, hm, hsecond.offsets_after (List.Subset.refl _) hsign hsign (by omega), rfl⟩

/-! ## one operand -/

theorem partsBegin_operand (h : s.Occurs n ancestors .operand i j) :
    s.PartsBegin (s.Accounted caseLevels) n i := by
  have hkept : s.Kept caseLevels (Rule.operand s n) := h.kept caseLevels
  rw [Rule.operand] at hkept
  have hcompound := h.isCompound (by simp) (by simp)
  obtain ⟨sign, operand, hsign, hoperand, hparts | ⟨hkind, hparts⟩⟩ := h.production
  · obtain ⟨k, hk, l, hl, rfl⟩ := h.stands.standRun hcompound hparts (by simp)
    obtain rfl := hk.lexeme hsign
    have hle := hl.le
    obtain ⟨token, htoken, hkept⟩ := hkept.first h.stands (by omega)
    exact .of_run hparts hk
      ⟨_, hl, hkept.offsets_after (List.Subset.refl _) htoken htoken (by omega), rfl⟩
  · obtain ⟨k, hk, l, hl, rfl⟩ := h.stands.standRun hcompound hparts (by simp)
    obtain rfl := hl.lexeme hsign
    have hmem : operand ∈ n.codeChildren :=
      Node.mem_codeChildren_of_parts (by simp [hparts]) hoperand
    have hik := h.stands.lt_of_mem hmem hk
    obtain ⟨token, htoken, hkept⟩ := hkept.first h.stands (by omega)
    refine .of_run hparts hk ⟨_, hl, ?_, rfl⟩
    rcases Nat.eq_or_lt_of_le hik with rfl | hlt
    · exact hkept.offsets_after (List.Subset.refl _) htoken htoken (by omega)
    · have hseveral : 1 < Piece.codeCount (operand.pieces s.buffer) := by
        have := hk.spans.stop_eq
        omega
      exact (PassedOver.update hkind operand hparts hseveral).accounted h.within (by simp [hparts]) hl
        (Nat.lt_succ_self _) caseLevels

theorem partsBegin_yielding (h : s.Occurs n ancestors .yielding i j) :
    s.PartsBegin (s.Accounted caseLevels) n i := by
  have hkept : s.Kept caseLevels (Rule.yielding s n) := h.kept caseLevels
  have hcompound := h.isCompound (by simp) (by simp)
  obtain ⟨word, hword, hparts | ⟨operand, hoperand, hparts⟩ | ⟨star, operand, hstar, hoperand, hparts⟩⟩ :=
    h.production
  · obtain ⟨k, hk, rfl⟩ := h.stands.standRun hcompound hparts (by simp)
    exact .of_run hparts hk rfl
  all_goals
    have hmem : operand ∈ n.codeChildren :=
      Node.mem_codeChildren_of_parts (by simp [hparts]) hoperand
    rw [Rule.yielding, if_neg (by simpa using List.ne_nil_of_mem hmem)] at hkept
  · obtain ⟨k, hk, l, hl, rfl⟩ := h.stands.standRun hcompound hparts (by simp)
    obtain rfl := hk.lexeme hword
    obtain ⟨keyword, second, hkeyword, hsecond, hfirsts⟩ :=
      h.stands.exists_firsts (h.stands.lt_of_mem hmem hl)
    rw [hfirsts] at hkept
    exact .of_run hparts hk ⟨_, hl, hkept.next.1.offset hsecond hkeyword (by omega), rfl⟩
  · obtain ⟨k, hk, l, hl, m, hm, rfl⟩ := h.stands.standRun hcompound hparts (by simp)
    obtain rfl := hk.lexeme hword
    obtain ⟨rfl, sign, hsign, hvalue, -⟩ := hl.spells hstar (by decide)
    have hle := hm.le
    obtain ⟨keyword, second, hkeyword, hsecond, hfirsts⟩ := h.stands.exists_firsts (by omega)
    obtain rfl := Option.mem_unique hsign hsecond
    rw [hfirsts] at hkept
    obtain ⟨hfirst, hrest⟩ := hkept.next
    rw [if_pos (by simp [hvalue])] at hrest
    exact .of_run hparts hk ⟨_, hl, hfirst.offset hsign hkeyword (by omega),
      _, hm, hrest.offsets_after (List.Subset.refl _) hsign hkeyword (by omega), rfl⟩

end Occurs

end Source

end ScriptIndent
