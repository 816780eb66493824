import ScriptIndent.Proofs.Rule.Outcome

/-!
# ScriptIndent.Proofs.Rule.Lists

Programs, blocks, lists and declarations of the right shape: their rules go
through, and what they draft stays inside.
-/

namespace ScriptIndent.Rule

open Draft

variable {s : Source} {n : Node} {i j : Nat}

/-- A program places its statements at absolute levels. -/
theorem program_meets (h : s.Stands n i j) (hn : n.IsCompound) :
    (program s n).Meets (fun e => e.base = none) fun _ => True := by
  refine meets_each fun statement hmem => ?_
  obtain ⟨k, l, -, hkl, -, hstands⟩ := h.child hn hmem
  refine (meets_first hstands hkl).bind fun token _ => meets_write fun e he => ?_
  simp only [Entry.starts, List.map_cons, List.map_nil, List.mem_singleton] at he
  rw [he]

/-- The elements of an enclosed list stand behind its opening delimiter. -/
theorem elements_staysInside (h : s.Stands n i j) {left right : String}
    (hn : n.Enclosed s.buffer left right) (hleft : Node.IsSpelling left)
    (hright : Node.IsSpelling right) {base : Token} (hbase : s.At i base) (levels : Int)
    {closing : Option Token}
    (hclosing : ∀ t, closing = some t → ∃ l, s.At l t ∧ i ≤ l ∧ l < j) :
    (elements s n.codeChildren base closing levels).StaysInside s i j := by
  obtain ⟨-, -, -, helements⟩ := h.enclosed hn hleft hright
  refine meets_elements hbase (fun c hc => ?_) fun t ht => ?_
  · obtain ⟨a, b, hia, hab, hbj, hstands⟩ := helements c hc
    exact ⟨a, b, hstands, hab, by omega⟩
  · obtain ⟨l, hl, hil, hlj⟩ := hclosing t ht
    exact ⟨l, hl, by omega⟩

theorem arrayList_staysInside (h : s.Stands n i j) (hn : n.Enclosed s.buffer "[" "]") :
    (arrayList s n).StaysInside s i j := by
  have hij : i < j := by have := (h.enclosed hn (by decide) (by decide)).1; omega
  refine (meets_first h hij).bind fun left hleft => ?_
  refine elements_staysInside h hn (by decide) (by decide) hleft 1 fun t ht => ?_
  obtain ⟨k, hik, hkj, hget, -⟩ := (h.covers hij).of_lastOfNode? h.ordered ht
  exact ⟨k, hget, hik, hkj⟩

theorem objectList_staysInside (h : s.Stands n i j) (hn : n.Enclosed s.buffer "\x7b" "\x7d") :
    (objectList s n).StaysInside s i j := by
  have hij : i < j := by have := (h.enclosed hn (by decide) (by decide)).1; omega
  refine (meets_first h hij).bind fun left hleft => ?_
  refine elements_staysInside h hn (by decide) (by decide) hleft 1 fun t ht => ?_
  obtain ⟨k, hik, hkj, hget, -⟩ := (h.covers hij).of_lastOfNode? h.ordered ht
  exact ⟨k, hget, hik, hkj⟩

theorem block_staysInside (h : s.Stands n i j) (hn : n.Enclosed s.buffer "\x7b" "\x7d") :
    (block s n).StaysInside s i j := by
  have hij : i < j := by have := (h.enclosed hn (by decide) (by decide)).1; omega
  refine (meets_first h hij).bind fun left hleft => ?_
  refine (meets_last h hij).bind fun right hright => ?_
  refine elements_staysInside h hn (by decide) (by decide) hleft 1 fun t ht => ?_
  obtain rfl := Option.some.inj ht
  exact ⟨j - 1, hright, by omega, by omega⟩

theorem staticBlock_staysInside (h : s.Stands n i j) (hn : n.IsCompound) {body : Node}
    (hbody : n.IsPart "body" body) : (staticBlock s n).StaysInside s i j := by
  obtain ⟨k, l, hik, hkl, hlj, hstands⟩ := h.child hn hbody.2
  refine (meets_firstOf hbody.1 hstands hkl).bind fun token htoken => ?_
  refine (meets_first h (by omega)).bind fun keyword hkeyword => ?_
  exact meets_offset hkeyword htoken (by omega)

/-- Constructs in a compound node stand behind its first token, or begin with it. -/
theorem children_staysInside (h : s.Stands n i j) (hn : n.IsCompound) {items : List Node}
    (hitems : ∀ c ∈ items, c ∈ n.codeChildren) {base : Token} (hbase : s.At i base)
    (levels : Int) : (elements s items base none levels).StaysInside s i j := by
  refine meets_elements hbase (fun c hc => ?_) fun t ht => by simp at ht
  obtain ⟨k, l, hik, hkl, hlj, hstands⟩ := h.child hn (hitems c hc)
  exact ⟨k, l, hstands, hkl, by omega⟩

/-- A compound node with a construct in it has a token. -/
theorem lt_of_codeChildren (h : s.Stands n i j) (hn : n.IsCompound)
    (hchildren : n.codeChildren ≠ []) : i < j := by
  obtain ⟨c, hc⟩ := List.exists_mem_of_ne_nil _ hchildren
  obtain ⟨k, l, hik, hkl, hlj, -⟩ := h.child hn hc
  omega

theorem sequence_staysInside (h : s.Stands n i j) (hn : n.IsCompound)
    (hchildren : n.codeChildren ≠ []) : (sequence s n).StaysInside s i j := by
  refine (meets_first h (lt_of_codeChildren h hn hchildren)).bind fun left hleft => ?_
  exact children_staysInside h hn (fun c hc => hc) hleft 0

theorem declaration_staysInside (h : s.Stands n i j) (hn : n.IsCompound)
    (hchildren : n.codeChildren ≠ []) : (declaration s n).StaysInside s i j := by
  refine (meets_first h (lt_of_codeChildren h hn hchildren)).bind fun keyword hkeyword => ?_
  exact children_staysInside h hn (fun c hc => (List.mem_filter.1 hc).1) hkeyword 1

theorem declarator_staysInside (h : s.Stands n i j) (hn : n.IsCompound)
    (hshape : n.DeclaratorShape s.buffer) : (declarator s n).StaysInside s i j := by
  unfold declarator
  cases hvalue : n.field? "value" with
  | none => exact meets_pure trivial
  | some value =>
  simp only [Option.isNone_some, Bool.false_eq_true, if_false]
  obtain ⟨name, equals, hname, hequals, hpart, hturn⟩ := hshape value hvalue
  obtain ⟨a, b, hia, hstands, c, d, hbc, hsign, e, f, hde, hoperand,
    (hfj : f ≤ j)⟩ := h.turn hn hturn
  have hab := h.lt_of_mem hname.2 hstands
  have hef := h.lt_of_mem hpart.2 hoperand
  obtain ⟨rfl, -⟩ := hsign.spells hequals (by decide)
  refine (meets_first h (by omega)).bind fun id hid => ?_
  refine meets_part hname.1 ?_
  obtain ⟨t, ht⟩ := h.exists_at (k := b) (by omega)
  refine (meets_require (((hstands.ends hab).after?_eq).trans ht) ht).bind fun sign hsignat => ?_
  refine meets_offsets hid fun u hu => ?_
  rcases List.mem_cons.1 hu with rfl | hu
  · exact ⟨b, hsignat, by omega⟩
  · rw [(s.ends_token hsignat).after?_eq, Option.mem_toList] at hu
    exact ⟨b + 1, hu, by omega⟩

end ScriptIndent.Rule
