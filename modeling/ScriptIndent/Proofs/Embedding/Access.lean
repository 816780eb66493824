import ScriptIndent.Proofs.Embedding.Functions

/-!
# ScriptIndent.Proofs.Embedding.Access

Rules for accesses, calls, template literals, imports and exports, in a source and
in a source around it.
-/

namespace ScriptIndent.Embedding

open Draft

variable {s s' : Source} {m : Embedding s s'} {n : Node}

/-! ## accesses and calls -/

theorem access_follows (hn : m.Domain n) :
    m.FollowsUnit (Rule.access s n) (Rule.access s' (m.move n)) := by
  refine (follows_first hn).bind fun object object' hobject => ?_
  refine (follows_field hn "property").bind fun property _ ⟨hproperty, heq⟩ => ?_
  subst heq
  refine (follows_require hn "`.`" (answers_before? (.node hproperty))).bind
    fun dot dot' hdot => ?_
  exact follows_offsets (.cons hdot (answers_after? (.token hdot)).owned) hobject

theorem subscript_follows (hn : m.Domain n) :
    m.FollowsUnit (Rule.subscript s n) (Rule.subscript s' (m.move n)) := by
  refine (follows_first hn).bind fun object object' hobject => ?_
  refine (follows_field hn "index").bind fun index _ ⟨hindex, heq⟩ => ?_
  subst heq
  refine (follows_require hn "`[`"
    (answers_beforeWhere? (respects_isPunctuator "[") (.node hindex))).bind
    fun left left' hleft => ?_
  refine (follows_field hn "object").bind fun accessed _ ⟨haccessed, heq⟩ => ?_
  subst heq
  refine (follows_offsets (rel_betweenWhere (respects_isPunctuator "?.") (.node haccessed)
    (.token hleft)).owned hobject).next ?_
  refine (follows_offset hleft hobject).next ?_
  have hitems : ∀ c ∈ [index], m.Domain c := by simpa using hindex
  exact follows_elements hitems hleft
    (answers_afterWhere? (respects_isPunctuator "]") (.node hindex))

theorem metaProperty_follows (hn : m.Domain n) :
    m.FollowsUnit (Rule.metaProperty s n) (Rule.metaProperty s' (m.move n)) := by
  rw [Rule.metaProperty, Rule.metaProperty]
  have htokens := rel_tokensOf (PairsAnchor.node hn)
  generalize s.tokensOf n = ts at htokens
  generalize s'.tokensOf (m.move n) = ts' at htokens
  cases htokens with
  | nil => exact follows_pure trivial
  | cons hword hrest =>
    cases hrest with
    | nil => exact follows_pure trivial
    | cons hdot hrest =>
      cases hrest with
      | nil => exact follows_pure trivial
      | cons hname _ => exact follows_offsets (.cons hdot hname.owned) hword

theorem call_follows (hn : m.Domain n) :
    m.FollowsUnit (Rule.call s n) (Rule.call s' (m.move n)) := by
  rw [Rule.call, Rule.call, field?_move n "arguments"]
  cases harguments : n.field? "arguments" with
  | none => exact follows_pure trivial
  | some arguments =>
    have hc := domain_field? hn harguments
    simp only [Option.map_some, m.move_kind]
    split
    · refine (follows_first hc).bind fun token token' htoken => ?_
      exact (follows_firstOf hn "function").bind fun tag tag' htag => follows_offset htoken htag
    · refine (follows_first hn).bind fun token token' htoken => ?_
      refine (follows_first hc).bind fun left left' hleft => ?_
      refine (follows_last hc).bind fun right right' hright => ?_
      refine (follows_field hn "function").bind fun callee _ ⟨hcallee, heq⟩ => ?_
      subst heq
      refine (follows_offsets (rel_betweenWhere (respects_isPunctuator "?.") (.node hcallee)
        (.token hleft)).owned htoken).next ?_
      refine (follows_offset hleft htoken).next ?_
      rw [codeChildren_move]
      exact follows_elements (domain_codeChildren hc) hleft (.some hright)

theorem creation_follows (hn : m.Domain n) :
    m.FollowsUnit (Rule.creation s n) (Rule.creation s' (m.move n)) := by
  refine (follows_first hn).bind fun keyword keyword' hkeyword => ?_
  refine (follows_firstOf hn "constructor").bind fun constructed constructed' hconstructed => ?_
  refine (follows_offset hconstructed hkeyword).next ?_
  rw [field?_move]
  cases harguments : n.field? "arguments" with
  | none => exact follows_pure trivial
  | some arguments =>
    have hc := domain_field? hn harguments
    refine (follows_first hc).bind fun left left' hleft => ?_
    refine (follows_last hc).bind fun right right' hright => ?_
    refine (follows_offset hleft hconstructed).next ?_
    rw [codeChildren_move]
    exact follows_elements (domain_codeChildren hc) hleft (.some hright)

/-! ## template literals -/

theorem substitutedFirsts_follows {substitutions : List Node}
    (h : ∀ c ∈ substitutions, m.Domain c) :
    m.Follows m.PairsOwned (Rule.substitutedFirsts s substitutions)
      (Rule.substitutedFirsts s' (substitutions.map m.move)) := by
  induction substitutions with
  | nil => exact follows_pure .nil
  | cons c rest ih =>
    have hrest := ih fun d hd => h d (List.mem_cons_of_mem c hd)
    rw [List.map_cons, Rule.substitutedFirsts, Rule.substitutedFirsts]
    rcases rel_cases (rel_firstOfNode? (h c List.mem_cons_self)) with
      ⟨ho, ho'⟩ | ⟨i, t, t', ho, ho', ht, ht'⟩
    · rw [ho, ho']
      exact follows_fail fun _ => rfl
    · rw [ho, ho']
      refine hrest.bind fun ts ts' hts => follows_pure ?_
      exact (answers_after? (.token ⟨i, ht, ht'⟩)).owned.append hts

theorem rel_lasts {items : List Node} (h : ∀ c ∈ items, m.Domain c) :
    m.PairsAll (items.filterMap (s.lastOfNode? · Token.isAny))
      ((items.map m.move).filterMap (s'.lastOfNode? · Token.isAny)) := by
  induction items with
  | nil => exact .nil
  | cons c rest ih =>
    have hrest := ih fun d hd => h d (List.mem_cons_of_mem c hd)
    simp only [List.map_cons, List.filterMap_cons]
    rcases rel_cases (rel_lastOfNode? (h c List.mem_cons_self) respects_isAny) with
      ⟨ho, ho'⟩ | ⟨i, t, t', ho, ho', ht, ht'⟩
    · rw [ho, ho']
      exact hrest
    · rw [ho, ho']
      exact .cons ⟨i, ht, ht'⟩ hrest

theorem templateLiteral_follows (hn : m.Domain n) :
    m.FollowsUnit (Rule.templateLiteral s n) (Rule.templateLiteral s' (m.move n)) := by
  refine (follows_first hn).bind fun start start' hstart => ?_
  have hdomain : ∀ c ∈ n.children.filter (·.kind == "template_substitution"), m.Domain c :=
    fun c hc => m.domain_child hn (List.mem_filter.1 hc).1
  have hother : ∀ c : Node, c.isComment = true → c.isNamed = true → c.fields = [] →
      (c.kind == "template_substitution") = false := by
    intro c hcomment _ _
    rw [beq_eq_false_iff_ne]
    intro hkind
    rw [Node.isComment, hkind] at hcomment
    exact absurd hcomment (by decide)
  dsimp only
  rw [(m.move_children n).filter_eq hother, filter_move fun c _ => by rw [m.move_kind]]
  refine (substitutedFirsts_follows hdomain).bind fun tokens tokens' htokens => ?_
  refine (follows_offsets (rel_lasts hdomain).owned hstart).next ?_
  exact follows_offsets htokens hstart

end ScriptIndent.Embedding
