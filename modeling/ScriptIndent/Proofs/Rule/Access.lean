import ScriptIndent.Proofs.Rule.Functions

/-!
# ScriptIndent.Proofs.Rule.Access

Accesses, calls and template literals of the right shape: the rules go through,
and what they draft stays inside.
-/

namespace ScriptIndent.Rule

open Draft

variable {s : Source} {n : Node} {i j : Nat}

theorem access_staysInside (h : s.Stands n i j) (hn : n.IsCompound)
    (hshape : n.AccessShape s.buffer) : (access s n).StaysInside s i j := by
  obtain ⟨object, link, property, hobject, -, hproperty, hturn⟩ := hshape
  obtain ⟨a, b, hia, hostands, c, d, hbc, hlstands, k, l, hdk, hpstands, (hlj : l ≤ j)⟩ :=
    h.turn hn hturn
  have hab := h.lt_of_mem hobject.2 hostands
  have hcd := hlstands.le
  have hkl := h.lt_of_mem hproperty.2 hpstands
  refine (meets_first h (by omega)).bind fun first hfirst => ?_
  refine meets_part hproperty.1 ?_
  obtain ⟨u, hbefore, hu⟩ := before?_eq_at hpstands hkl (by omega)
  refine (meets_require hbefore hu).bind fun dot hdot => ?_
  refine meets_offsets hfirst fun x hx => ?_
  rcases List.mem_cons.1 hx with rfl | hx
  · exact ⟨k - 1, hdot, by omega⟩
  · rw [(s.ends_token hdot).after?_eq, Option.mem_toList] at hx
    exact ⟨k - 1 + 1, hx, by omega⟩

theorem subscript_staysInside (h : s.Stands n i j) (hn : n.IsCompound)
    (hshape : n.SubscriptShape s.buffer) : (subscript s n).StaysInside s i j := by
  obtain ⟨object, opening, index, closing, hobject, hopening, hindex, hclosing, hturn⟩ := hshape
  obtain ⟨a, b, hia, hostands, c, d, hbc, hlstands, k, l, hdk, histands, e, f, hle, hrstands,
    (hfj : f ≤ j)⟩ := h.turn hn hturn
  have hab := h.lt_of_mem hobject.2 hostands
  have hkl := h.lt_of_mem hindex.2 histands
  obtain ⟨rfl, u, hu, huvalue, hukind⟩ := hlstands.spells hopening (by decide)
  obtain ⟨rfl, v, hv, hvvalue, hvkind⟩ := hrstands.spells hclosing (by decide)
  refine (meets_first h (by omega)).bind fun first hfirst => ?_
  refine meets_part hindex.1 ?_
  obtain ⟨m, t, hcm, hmk, ht, -, hscan⟩ := Source.exists_scanDown (i := k) (by omega) hu
    (isPunctuator_of_value huvalue hukind (by decide))
  refine (meets_require (((histands.ends hkl).beforeWhere?_eq _).trans hscan) ht).bind
    fun left hleft => ?_
  refine meets_part hobject.1 ?_
  refine (meets_offsets hfirst fun x hx => ?_).next ?_
  · obtain ⟨p, hbp, hpm, hp⟩ :=
      exists_at_of_mem_between (hostands.ends hab) (s.ends_token hleft) hx
    exact ⟨p, hp, by omega⟩
  refine (meets_offset hfirst hleft (by omega)).next ?_
  refine meets_elements hleft (fun x hx => ?_) fun x hx => ?_
  · obtain rfl := List.mem_singleton.1 hx
    exact ⟨k, l, histands, hkl, by omega⟩
  · obtain ⟨o, w, hlo, hoe, hw, -, hscan⟩ := Source.exists_scanUp hle hv
      (isPunctuator_of_value hvvalue hvkind (by decide))
    rw [(histands.ends hkl).afterWhere?_eq] at hx
    obtain rfl := Option.mem_unique hx hscan
    exact ⟨o, hw, by omega⟩

/-- The tokens of a node, from the second on, stand behind the first. -/
theorem exists_at_of_tokensOf (h : s.Stands n i j) (hij : i < j) {t : Token} {ts : List Token}
    (htokens : s.tokensOf n = t :: ts) :
    s.At i t ∧ ∀ u ∈ ts, ∃ k, i < k ∧ k < j ∧ s.At k u := by
  rw [(h.ends hij).tokensOf_eq] at htokens
  have hget : ∀ k, (t :: ts)[k]? = if k < j - i then s.tokens[i + k]? else none := by
    intro k
    have hj := h.le_size
    rw [← htokens, Array.getElem?_toList, Array.getElem?_extract, Nat.min_eq_left hj]
  refine ⟨?_, fun u hu => ?_⟩
  · have hfirst := hget 0
    rw [if_pos (by omega)] at hfirst
    exact hfirst.symm
  · obtain ⟨k, hk⟩ := List.getElem?_of_mem hu
    have hnext := hget (k + 1)
    rw [List.getElem?_cons_succ, hk] at hnext
    split at hnext
    · exact ⟨i + (k + 1), by omega, by omega, hnext.symm⟩
    · cases hnext

theorem metaProperty_staysInside (h : s.Stands n i j) (hij : i < j) :
    (metaProperty s n).StaysInside s i j := by
  unfold metaProperty
  split
  · next word dot name rest htokens =>
    obtain ⟨hword, hrest⟩ := exists_at_of_tokensOf h hij htokens
    refine meets_offsets hword fun x hx => ?_
    obtain ⟨k, hik, hkj, hk⟩ := hrest x (by
      simp only [List.mem_cons, List.not_mem_nil, or_false] at hx ⊢
      rcases hx with rfl | rfl <;> simp)
    exact ⟨k, hk, by omega⟩
  · exact meets_pure trivial

theorem call_staysInside (h : s.Stands n i j) (hn : n.IsCompound)
    (hshape : n.CallShape s.buffer) : (call s n).StaysInside s i j := by
  unfold call
  cases hsome : n.field? "arguments" with
  | none => exact meets_pure trivial
  | some arguments =>
    obtain ⟨hmem, hkind, callee, hcallee, hturn⟩ := hshape arguments hsome
    obtain ⟨a, b, hia, hcstands, k, l, hbk, hastands, (hlj : l ≤ j)⟩ := h.turn hn hturn
    have hab := h.lt_of_mem hcallee.2 hcstands
    have hkl := h.lt_of_mem hmem hastands
    dsimp only
    split
    · refine (meets_first hastands hkl).bind fun token htoken => ?_
      refine (meets_firstOf hcallee.1 hcstands hab).bind fun tag htag => ?_
      exact meets_offset htag htoken (by omega)
    · next hother =>
      have henclosed := hkind.resolve_left (by simpa using hother)
      refine (meets_first h (by omega)).bind fun token htoken => ?_
      refine (meets_first hastands hkl).bind fun left hleft => ?_
      refine (meets_last hastands hkl).bind fun right hright => ?_
      refine meets_part hcallee.1 ?_
      refine (meets_offsets htoken fun x hx => ?_).next ?_
      · obtain ⟨p, hbp, hpk, hp⟩ :=
          exists_at_of_mem_between (hcstands.ends hab) (s.ends_token hleft) hx
        exact ⟨p, hp, by omega⟩
      refine (meets_offset htoken hleft (by omega)).next ?_
      exact list_staysInside hastands henclosed (by omega) hlj hleft hright 1

theorem creation_staysInside (h : s.Stands n i j) (hn : n.IsCompound)
    (hshape : n.CreationShape s.buffer) : (creation s n).StaysInside s i j := by
  obtain ⟨callee, hcallee, harguments⟩ := hshape
  obtain ⟨a, b, hia, hab, hbj, hcstands⟩ := h.child hn hcallee.2
  refine (meets_first h (by omega)).bind fun keyword hkeyword => ?_
  refine (meets_firstOf hcallee.1 hcstands hab).bind fun constructed hconstructed => ?_
  refine (meets_offset hkeyword hconstructed (by omega)).next ?_
  cases hsome : n.field? "arguments" with
  | none => exact meets_pure trivial
  | some arguments =>
    obtain ⟨hmem, henclosed, hturn⟩ := harguments arguments hsome
    obtain ⟨a', b', -, hcstands', k, l, hbk, hastands, (hlj : l ≤ j)⟩ := h.turn hn hturn
    obtain ⟨rfl, rfl⟩ := hcstands.unique hab hcstands'
    have hkl := h.lt_of_mem hmem hastands
    refine (meets_first hastands hkl).bind fun left hleft => ?_
    refine (meets_last hastands hkl).bind fun right hright => ?_
    refine (meets_offset hconstructed hleft (by omega)).next ?_
    exact list_staysInside hastands henclosed (by omega) hlj hleft hright 1

/-! ## template literals -/

/-- What a substitution puts in begins before the literal text behind it. -/
theorem substitutedFirsts_meets {E : Entry → Prop} {substitutions : List Node}
    (ho : s.Ordered)
    (h : ∀ c ∈ substitutions, ∃ k l, i ≤ k ∧ l ≤ j ∧ s.Substitutes c k l) :
    (substitutedFirsts s substitutions).Meets E
      fun ts => ∀ t ∈ ts, ∃ k, i < k ∧ k < j ∧ s.At k t := by
  induction substitutions with
  | nil => exact meets_pure (by simp)
  | cons c rest ih =>
    obtain ⟨k, l, hik, hlj, hsub⟩ := h c List.mem_cons_self
    have hkl := hsub.stop_eq
    obtain ⟨opening, hopening, hfirst⟩ := (hsub.covers.ends ho).exists_first?
    unfold substitutedFirsts
    rw [show s.firstOfNode? c = some opening from hfirst]
    refine (ih fun d hd => h d (List.mem_cons_of_mem c hd)).bind fun ts hts => ?_
    refine meets_pure fun t ht => ?_
    rcases List.mem_append.1 ht with ht | ht
    · rw [(s.ends_token hopening).after?_eq, Option.mem_toList] at ht
      exact ⟨k + 1, by omega, by omega, ht⟩
    · exact hts t ht

theorem templateLiteral_staysInside (h : s.Stands n i j) (hij : i < j)
    (hsubstitutes : ∀ c ∈ n.children, c.kind = "template_substitution" →
      ∃ k l, i ≤ k ∧ l ≤ j ∧ s.Substitutes c k l) :
    (templateLiteral s n).StaysInside s i j := by
  have hsubs : ∀ c ∈ n.children.filter (·.kind == "template_substitution"),
      ∃ k l, i ≤ k ∧ l ≤ j ∧ s.Substitutes c k l := fun c hc =>
    hsubstitutes c (List.mem_filter.1 hc).1 (by simpa using (List.mem_filter.1 hc).2)
  refine (meets_first h hij).bind fun start hstart => ?_
  refine (substitutedFirsts_meets h.ordered hsubs).bind fun tokens htokens => ?_
  refine (meets_offsets hstart fun x hx => ?_).next (meets_offsets hstart fun x hx => ?_)
  · obtain ⟨c, hc, hlast⟩ := List.mem_filterMap.1 hx
    obtain ⟨k, l, hik, hlj, hsub⟩ := hsubs c hc
    have hkl := hsub.covers.lt
    rw [hsub.covers.last?_eq h.ordered] at hlast
    exact ⟨l - 1, hlast, by omega⟩
  · obtain ⟨k, hik, hkj, hk⟩ := htokens x hx
    exact ⟨k, hk, by omega⟩

end ScriptIndent.Rule
