import ScriptIndent.Proofs.Embedding.Draft

/-!
# ScriptIndent.Proofs.Embedding.Operators

Rules for lists, declarations and operators, in a source and in a source around
it: what a rule drafts for a moved node follows what it drafts for the node.

A chain of operators ends below the nodes that differ above the smaller source
(`Barrier`).
-/

namespace ScriptIndent.Embedding

open Draft

variable {s s' : Source} {m : Embedding s s'} {n : Node}

/-! ## lists and declarations -/

/-- A program whose statements are found. -/
theorem program_follows {n' : Node} (hn : n'.codeChildren = n.codeChildren.map m.move)
    (hc : ∀ c ∈ n.codeChildren, m.Domain c) :
    m.FollowsUnit (Rule.program s n) (Rule.program s' n') := by
  rw [Rule.program, Rule.program, hn]
  refine follows_each (rel_moves hc) fun c c' ⟨hc, heq⟩ => ?_
  subst heq
  refine (follows_first hc).bind fun t t' ht => follows_write ?_
  rw [CarriesAll, Entry.starts, Entry.starts, List.map_singleton, List.map_singleton,
    List.filter_singleton, ht.owns, ht.baseLevel_eq]
  exact .cons ⟨ht, .none, rfl⟩ .nil

theorem arrayList_follows (hn : m.Domain n) :
    m.FollowsUnit (Rule.arrayList s n) (Rule.arrayList s' (m.move n)) := by
  refine (follows_first hn).bind fun left left' hleft => ?_
  rw [codeChildren_move]
  exact follows_elements (domain_codeChildren hn) hleft
    (.of_rel (rel_lastOfNode? hn (respects_isPunctuator "]")))

theorem objectList_follows (hn : m.Domain n) :
    m.FollowsUnit (Rule.objectList s n) (Rule.objectList s' (m.move n)) := by
  refine (follows_first hn).bind fun left left' hleft => ?_
  rw [codeChildren_move]
  exact follows_elements (domain_codeChildren hn) hleft
    (.of_rel (rel_lastOfNode? hn (respects_isPunctuator "\x7d")))

theorem block_follows (hn : m.Domain n) :
    m.FollowsUnit (Rule.block s n) (Rule.block s' (m.move n)) := by
  refine (follows_first hn).bind fun left left' hleft => ?_
  refine (follows_last hn).bind fun right right' hright => ?_
  rw [codeChildren_move]
  exact follows_elements (domain_codeChildren hn) hleft (.some hright)

theorem staticBlock_follows (hn : m.Domain n) :
    m.FollowsUnit (Rule.staticBlock s n) (Rule.staticBlock s' (m.move n)) := by
  refine (follows_firstOf hn "body").bind fun body body' hbody => ?_
  exact (follows_first hn).bind fun keyword keyword' hkeyword => follows_offset hbody hkeyword

theorem sequence_follows (hn : m.Domain n) :
    m.FollowsUnit (Rule.sequence s n) (Rule.sequence s' (m.move n)) := by
  refine (follows_first hn).bind fun left left' hleft => ?_
  rw [codeChildren_move]
  exact follows_elements (domain_codeChildren hn) hleft .none

theorem declaration_follows (hn : m.Domain n) :
    m.FollowsUnit (Rule.declaration s n) (Rule.declaration s' (m.move n)) := by
  refine (follows_first hn).bind fun keyword keyword' hkeyword => ?_
  rw [codeChildren_move, filter_move fun c _ => by rw [m.move_kind]]
  exact follows_elements (fun c hc => domain_codeChildren hn c (List.mem_filter.1 hc).1) hkeyword
    .none

theorem declarator_follows (hn : m.Domain n) :
    m.FollowsUnit (Rule.declarator s n) (Rule.declarator s' (m.move n)) := by
  rw [Rule.declarator, Rule.declarator, field?_move, Option.isNone_map]
  split
  · exact follows_pure trivial
  refine (follows_first hn).bind fun id id' hid => ?_
  refine (follows_field hn "name").bind fun name name' ⟨hname, heq⟩ => ?_
  subst heq
  refine (follows_require hn "`=`" (answers_after? (.node hname))).bind
    fun equals equals' hequals => ?_
  exact follows_offsets (.cons hequals (answers_after? (.token hequals)).owned) hid

/-! ## operators -/

/-- Nodes above which no chain of operators goes on. -/
def Barrier (nodes : List Node) : Prop :=
  ∀ a, nodes.head? = some a → Construct.isChainKind a.kind = false ∧
    a.kind ≠ "parenthesized_expression" ∧ a.kind ≠ "ternary_expression"

/-- Each node is a child of the next one. -/
abbrev Lineage : List Node → Prop := List.IsChain fun c n => c ∈ n.children

section Chains

variable {above rest rest' : List Node} (hrest : Barrier rest) (hrest' : Barrier rest')

include hrest hrest'

theorem chainTop_move (hn : m.Domain n) (habove : ∀ a ∈ above, m.Domain a) :
    m.Moves (Rule.chainTop s n (above ++ rest))
      (Rule.chainTop s' (m.move n) (above.map m.move ++ rest')) := by
  induction above generalizing n with
  | nil =>
    have hstop : ∀ (s : Source) {n : Node} {rest : List Node}, Barrier rest →
        Rule.chainTop s n rest = n := by
      intro s n rest hrest
      cases rest with
      | nil => rfl
      | cons a rest => rw [Rule.chainTop, (hrest a rfl).1]; rfl
    rw [List.nil_append, List.map_nil, List.nil_append, hstop s hrest, hstop s' hrest']
    exact ⟨hn, rfl⟩
  | cons parent above ih =>
    simp only [List.cons_append, List.map_cons, Rule.chainTop, m.move_kind,
      any_before? (PairsAnchor.node hn)]
    split
    · exact ih (habove parent List.mem_cons_self) fun a ha => habove a (List.mem_cons_of_mem _ ha)
    · exact ⟨hn, rfl⟩

theorem ternaryTop_move {base wrapper : Node} (hbase : m.Domain base) (hwrapper : m.Domain wrapper)
    (habove : ∀ a ∈ above, m.Domain a) (hline : Lineage (wrapper :: above)) :
    m.Moves (Rule.ternaryTop base wrapper (above ++ rest))
      (Rule.ternaryTop (m.move base) (m.move wrapper) (above.map m.move ++ rest')) := by
  induction above generalizing base wrapper with
  | nil =>
    have hstop : ∀ {base wrapper : Node} {rest : List Node}, Barrier rest →
        Rule.ternaryTop base wrapper rest = base := by
      intro base wrapper rest hrest
      cases rest with
      | nil => rfl
      | cons a rest =>
        obtain ⟨-, hparen, hternary⟩ := hrest a rfl
        simp [Rule.ternaryTop, hparen, hternary]
    rw [List.nil_append, List.map_nil, List.nil_append, hstop hrest, hstop hrest']
    exact ⟨hbase, rfl⟩
  | cons parent above ih =>
    have hparent := habove parent List.mem_cons_self
    obtain ⟨hchild, hline⟩ := List.isChain_cons_cons.1 hline
    have habove' : ∀ a ∈ above, m.Domain a := fun a ha => habove a (List.mem_cons_of_mem _ ha)
    have hsame : ((m.move parent).field? "alternative").any (·.same (m.move wrapper)) =
        (parent.field? "alternative").any (·.same wrapper) := by
      rw [field?_move]
      cases halternative : parent.field? "alternative" with
      | none => rfl
      | some c => exact m.same_iff hparent (List.mem_of_find?_eq_some halternative) hchild
    simp only [List.cons_append, List.map_cons, Rule.ternaryTop, m.move_kind, hsame]
    split
    · exact ih hbase hparent habove' hline
    split
    · exact ih hparent hparent habove' hline
    · exact ⟨hbase, rfl⟩

theorem chain_follows (hn : m.Domain n) (habove : ∀ a ∈ above, m.Domain a) :
    m.FollowsUnit (Rule.chain s (above ++ rest) n)
      (Rule.chain s' (above.map m.move ++ rest') (m.move n)) := by
  obtain ⟨htop, heq⟩ := chainTop_move hrest hrest' hn habove
  refine (follows_field hn "left").bind fun left left' ⟨hleft, hleft'⟩ => ?_
  subst hleft'
  refine (follows_require hn "operator"
    (answers_afterWhere? respects_isNotClosingParen (.node hleft))).bind
    fun operator operator' hoperator => ?_
  refine (follows_firstOf hn "right").bind fun right right' hright => ?_
  rw [heq]
  refine (follows_firstOf htop "left").bind fun anchor anchor' hanchor => ?_
  exact follows_offsets (.cons hoperator hright.owned) hanchor

theorem ternary_follows (hn : m.Domain n) (habove : ∀ a ∈ above, m.Domain a)
    (hline : Lineage (n :: above)) :
    m.FollowsUnit (Rule.ternary s (above ++ rest) n)
      (Rule.ternary s' (above.map m.move ++ rest') (m.move n)) := by
  obtain ⟨htop, heq⟩ := ternaryTop_move hrest hrest' hn hn habove hline
  refine (follows_field hn "condition").bind fun condition condition' ⟨hcondition, hc⟩ => ?_
  subst hc
  refine (follows_require hn "`?`"
    (answers_afterWhere? respects_isNotClosingParen (.node hcondition))).bind
    fun question question' hquestion => ?_
  refine (follows_field hn "consequence").bind fun consequence consequence' ⟨hconsequence, hc⟩ => ?_
  subst hc
  refine (follows_require hn "`:`"
    (answers_afterWhere? respects_isNotClosingParen (.node hconsequence))).bind
    fun colon colon' hcolon => ?_
  rw [heq]
  refine (follows_first htop).bind fun anchor anchor' hanchor => ?_
  refine (follows_offsets (.cons hquestion hcolon.owned) hanchor).next ?_
  refine (follows_offsets (answers_after? (.token hquestion)).owned hquestion).next ?_
  exact follows_offsets (answers_after? (.token hcolon)).owned hcolon

end Chains

theorem operand_follows (hn : m.Domain n) :
    m.FollowsUnit (Rule.operand s n) (Rule.operand s' (m.move n)) := by
  refine (follows_first hn).bind fun token token' htoken => ?_
  exact follows_offsets (answers_after? (.token htoken)).owned htoken

theorem yielding_follows (hn : m.Domain n) :
    m.FollowsUnit (Rule.yielding s n) (Rule.yielding s' (m.move n)) := by
  rw [Rule.yielding, Rule.yielding, codeChildren_move, List.isEmpty_map]
  split
  · exact follows_pure trivial
  have hfirsts := rel_firsts hn 2
  generalize s.firsts n 2 = ts at hfirsts
  generalize s'.firsts (m.move n) 2 = ts' at hfirsts
  cases hfirsts with
  | nil => exact follows_pure trivial
  | cons hkeyword hfirsts =>
    cases hfirsts with
    | nil => exact follows_pure trivial
    | cons hsecond hfirsts =>
      cases hfirsts with
      | nil =>
        refine (follows_offset hsecond hkeyword).next ?_
        rw [hsecond.value_eq]
        split
        · exact follows_offsets (answers_after? (.token hsecond)).owned hkeyword
        · exact follows_pure trivial
      | cons _ _ => exact follows_pure trivial

end ScriptIndent.Embedding
