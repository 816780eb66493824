import ScriptIndent.Proofs.Rule.Lasting

/-!
# ScriptIndent.Proofs.Rule.Parts

Parts of expressions.

```
object  .  property       the parts stand directly one behind the other, and none of them is
i       k  l         j    a parenthesis
```

No node below an expression reaches over a place where two of its parts meet.  If none of the parts
is a parenthesis, then no parenthesis opens directly before such a place and none closes there, so
what the rule of the expression records for the token at the place lasts
(`Source.Orderly.get?_of_part`).
-/

namespace ScriptIndent

namespace Node

/-- A construct, or a sign other than a parenthesis. -/
def NoParen (b : Buffer) (n : Node) : Prop :=
  n.IsCode ∨ ∃ value, n.Spells b value ∧ IsSpelling value ∧ value ≠ "(" ∧ value ≠ ")"

variable {n c : Node} {name : String}

theorem isPart_of_field (name : String) (h : n.field? name = some c) (hcode : c.IsCode) :
    n.IsPart name c :=
  ⟨h, mem_codeChildren.2 ⟨List.mem_of_find?_eq_some h, hcode⟩⟩

theorem IsPart.isCode (h : n.IsPart name c) : c.IsCode :=
  (mem_codeChildren.1 h.2).2

end Node

namespace Source

variable {s : Source} {n : Node} {ancestors : List Node} {i j : Nat}

/-- The parts of a construct stand directly one behind the other. -/
theorem Stands.run_of_parts (hn : s.Stands n i j) (hcompound : n.IsCompound) {c : Node}
    {rest : List Node} (hparts : n.parts = c :: rest) :
    s.SpanRun (c :: rest) i j ∧ ∀ d ∈ c :: rest, ∀ a b, s.Spans d a b → s.Stands d a b := by
  have hmem : ∀ d ∈ c :: rest, d ∈ n.children := fun d hd => (List.mem_filter.1 (hparts ▸ hd)).1
  exact ⟨hparts ▸ hn.run_parts hcompound (List.ne_nil_of_mem (hmem c List.mem_cons_self)),
    fun d hd _ _ hspans => hn.of_spans (hmem d hd) hspans⟩

section Parts

variable (h : s.Orderly) (hplace : ⟨n, ancestors⟩ ∈ s.root.visited []) {construct : Construct}
  (hrule : Construct.ofKind? n.kind = some construct) (hn : s.Stands n i j)
  (hparens : ∀ c ∈ n.parts, c.NoParen s.buffer)

include h hplace hrule hn hparens

/-- A part that is no parenthesis neither ends with an opening parenthesis nor begins with a closing
one. -/
theorem Orderly.part_parens {c : Node} (hc : c ∈ n.parts) {a b : Nat} (hspans : s.Spans c a b) :
    a < b ∧ (∀ t, s.At (b - 1) t → t.isOpeningParen = false) ∧
      ∀ t, s.At a t → t.isClosingParen = false := by
  have hmem := (List.mem_filter.1 hc).1
  have hstands := hn.of_spans hmem hspans
  rcases hparens c hc with hcode | ⟨value, hspells, hspelling, hopening, hclosing⟩
  · have hchild := Node.mem_codeChildren.2 ⟨hmem, hcode⟩
    have hab := hn.lt_of_mem hchild hstands
    have hbalanced := h.balanced _ (Node.child_mem_visited hplace hrule hchild)
    exact ⟨hab, fun t ht => hstands.isOpeningParen hab hbalanced ht,
      fun t ht => hstands.isClosingParen hab hbalanced ht⟩
  · obtain ⟨rfl, t, ht, hvalue, -⟩ := hstands.spells hspells hspelling
    refine ⟨Nat.lt_succ_self a, fun u hu => ?_, fun u hu => ?_⟩ <;>
      obtain rfl := Option.mem_unique ht hu <;>
      simp [Token.isOpeningParen, Token.isClosingParen, Token.isPunctuator, hvalue, hopening,
        hclosing]

/-- What the rule of an expression records for the token that a part behind others begins with
lasts, if no part is a parenthesis. -/
theorem Orderly.get?_of_part (hcompound : n.IsCompound)
    (hstatement : Construct.isStatementKind n.kind = false) (hkind : n.kind ≠ "class_body")
    {front back : List Node} {c : Node} (hparts : n.parts = front ++ c :: back) (hfront : front ≠ [])
    {l : Nat} (hxs : s.SpanRun front i l) (hys : s.SpanRun (c :: back) l j) {caseLevels : Int}
    {e : Entry} (hl : s.At l e.token)
    (hrecords : (Rule.ofConstruct s caseLevels ancestors n construct).Records e) :
    (s.analyze caseLevels).registry.get? e.token = some e := by
  have hchildren : n.children ≠ [] := by
    intro hnil
    simp [Node.parts, hnil] at hparts
  have hmem {d : Node} (hd : d ∈ front ++ c :: back) : d ∈ n.parts := hparts ▸ hd
  obtain ⟨before, d, rfl⟩ := (List.eq_nil_or_concat' front).resolve_left hfront
  obtain ⟨a, hbefore, b, hd, rfl⟩ := hxs.append
  obtain ⟨m, hc, hback⟩ := id hys
  obtain ⟨hab, hopening, -⟩ := h.part_parens hplace hrule hn hparens (hmem (by simp)) hd
  obtain ⟨hbm, -, hclosing⟩ := h.part_parens hplace hrule hn hparens (hmem (by simp)) hc
  have hia := (hbefore.chain (List.nil_sublist _)).le
  have hmj := (hback.chain (List.nil_sublist _)).le
  have hcalm : s.Calm b := ⟨fun {t} ht => hclosing t ht,
    fun {k t} hk ht => hopening t (by rwa [← hk, Nat.add_sub_cancel])⟩
  refine h.get?_of_rule hplace hn hrule hkind hrecords hl (by omega) (by omega)
    (fun _ hd => Rule.common_elsewhere hn (by omega) (by omega) hl ?_ hd) hcalm
    (hn.outside_of_parts hcompound hchildren hparts hxs hys)
  simp [hstatement]

end Parts

end Source

end ScriptIndent
