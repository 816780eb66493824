import ScriptIndent.Proofs.Embedding.Control

/-!
# ScriptIndent.Proofs.Embedding.Functions

Rules for functions, classes, members, accesses and calls, in a source and in a
source around it.
-/

namespace ScriptIndent.Embedding

open Draft

variable {s s' : Source} {m : Embedding s s'} {n : Node}

/-! ## functions -/

/-- Tokens with levels that correspond one by one. -/
def PairsLevels (m : Embedding s s') : List (Token × Int) → List (Token × Int) → Prop :=
  List.Forall₂ fun p p' => m.Pairs p.1 p'.1 ∧ p'.2 = p.2

theorem headLevels_move (hn : m.Domain n) {ts ts' : List Token} (h : m.PairsAll ts ts')
    (levels : Int) :
    m.PairsLevels (Rule.headLevels (n.field? "name") levels ts)
      (Rule.headLevels ((m.move n).field? "name") levels ts') := by
  induction h generalizing levels with
  | nil => exact .nil
  | @cons t t' ts ts' ht _ ih =>
    have hname : ((m.move n).field? "name").any (·.start = t'.start) =
        (n.field? "name").any (·.start = t.start) := by
      rw [field?_move]
      cases hname : n.field? "name" with
      | none => rfl
      | some c =>
        obtain ⟨i, hi, hi'⟩ := ht
        exact decide_eq_decide.2 (m.start_eq (domain_field? hn hname) hi hi')
    simp only [Rule.headLevels, ht.value_eq, hname]
    split
    · exact .nil
    · exact .cons ⟨ht, rfl⟩ (ih _)

theorem function_follows (hn : m.Domain n) :
    m.FollowsUnit (Rule.function s n) (Rule.function s' (m.move n)) := by
  refine (follows_first hn).bind fun keyword keyword' hkeyword => ?_
  refine (follows_field hn "parameters").bind fun parameters _ ⟨hparameters, heq⟩ => ?_
  subst heq
  refine (follows_first hparameters).bind fun left left' hleft => ?_
  refine (follows_each (headLevels_move hn (rel_between (.token hkeyword) (.token hleft)) 0)
    fun p p' ⟨hp, hlevels⟩ => ?_).next ?_
  · dsimp only
    rw [hlevels]
    exact follows_offset hp hkeyword
  refine (follows_last hparameters).bind fun right right' hright => ?_
  refine (follows_offset hleft hkeyword).next ?_
  rw [codeChildren_move]
  refine (follows_elements (domain_codeChildren hparameters) hleft (.some hright)).next ?_
  exact (follows_firstOf hn "body").bind fun body body' hbody => follows_offset hbody hkeyword

theorem arrowParameters_follows (hn : m.Domain n) {left left' : Token}
    (hleft : m.Pairs left left') :
    m.FollowsUnit (Rule.arrowParameters s n left)
      (Rule.arrowParameters s' (m.move n) left') := by
  rw [Rule.arrowParameters, Rule.arrowParameters]
  have hparameters : ((m.move n).field? "parameters").elim [] (·.codeChildren) =
      ((n.field? "parameters").elim [] (·.codeChildren)).map m.move := by
    rw [field?_move]
    cases n.field? "parameters" with
    | none => rfl
    | some c => exact codeChildren_move c
  have hdomain : ∀ c ∈ (n.field? "parameters").elim [] (·.codeChildren), m.Domain c := by
    cases hc : n.field? "parameters" with
    | none => simp
    | some c => exact domain_codeChildren (domain_field? hn hc)
  rw [hparameters]
  generalize (n.field? "parameters").elim [] (·.codeChildren) = parameters at hdomain
  refine follows_elements hdomain hleft (answers_afterWhere? (respects_isPunctuator ")") ?_)
  rw [List.getLast?_map]
  cases hlast : parameters.getLast? with
  | none => exact .token hleft
  | some c => exact .node (hdomain c (List.mem_of_getLast? hlast))

theorem arrow_follows (hn : m.Domain n) :
    m.FollowsUnit (Rule.arrow s n) (Rule.arrow s' (m.move n)) := by
  rw [Rule.arrow, Rule.arrow]
  have hfirsts := rel_firsts hn 2
  generalize s.firsts n 2 = ts at hfirsts
  generalize s'.firsts (m.move n) 2 = ts' at hfirsts
  cases hfirsts with
  | nil => exact follows_fail fun _ => rfl
  | @cons head head' more more' hhead hmore =>
    have hasync : (m.move n).children.head?.any (·.kind == "async") =
        n.children.head?.any (·.kind == "async") := by
      rw [m.move_head hn, List.head?_map]
      cases n.children.head? with
      | none => rfl
      | some c => simp only [Option.map_some, Option.any_some, m.move_kind]
    have hsecond : Option.Rel m.Pairs more.head? more'.head? := by
      cases hmore with
      | nil => exact .none
      | cons h _ => exact .some h
    dsimp only
    rw [hasync]
    refine (follows_field hn "body").bind fun statement _ ⟨hstatement, heq⟩ => ?_
    subst heq
    refine (follows_require hn "`=>`"
      (answers_beforeWhere? (respects_isPunctuator "=>") (.node hstatement))).bind
      fun sign sign' hsign => ?_
    have hrest : m.FollowsUnit (do offset sign 1 head; Rule.body s statement head)
        (do offset sign' 1 head'; Rule.body s' (m.move statement) head') :=
      (follows_offset hsign hhead).next (body_follows hstatement hhead)
    have hopening : ∀ {left left' : Option Token}, Option.Rel m.Pairs left left' →
        Option.Rel m.Pairs (left.filter Token.isOpeningParen)
          (left'.filter Token.isOpeningParen) := by
      intro left left' hleft
      cases hleft with
      | none => exact .none
      | @some t t' ht =>
        have hparen : t'.isOpeningParen = t.isOpeningParen := ht.isPunctuator "("
        rw [Option.filter_some, Option.filter_some, hparen]
        cases t.isOpeningParen with
        | false => exact .none
        | true => exact .some ht
    cases n.children.head?.any (·.kind == "async") with
    | false =>
      simp only [Bool.false_eq_true, if_false]
      have hleft := hopening (.some hhead)
      revert hleft
      generalize Option.filter Token.isOpeningParen (some head) = left
      generalize Option.filter Token.isOpeningParen (some head') = left'
      rintro (ht | _)
      · exact (arrowParameters_follows hn ht).next hrest
      · exact hrest
    | true =>
      simp only [if_true]
      refine (follows_offsets (.of_rel hsecond) hhead).next ?_
      have hleft := hopening hsecond
      revert hleft
      generalize more.head?.filter Token.isOpeningParen = left
      generalize more'.head?.filter Token.isOpeningParen = left'
      rintro (ht | _)
      · exact (arrowParameters_follows hn ht).next hrest
      · exact hrest

/-! ## members -/

theorem memberKey_follows {start start' : Token} (hstart : m.Pairs start start')
    {key : Option Node} (hkey : ∀ c, key = some c → m.Domain c) :
    m.Follows m.Pairs (Rule.memberKey s start key)
      (Rule.memberKey s' start' (key.map m.move)) := by
  refine (follows_part hkey).bind fun c _ ⟨hc, heq⟩ => ?_
  subst heq
  rw [m.move_kind]
  split
  · refine (follows_first hc).bind fun left left' hleft => ?_
    refine (follows_last hc).bind fun right right' hright => ?_
    refine (follows_offsets (rel_between (.token hstart) (.token hleft)).owned hstart).next ?_
    refine (follows_offset hleft hstart).next ?_
    rw [codeChildren_move]
    exact (follows_elements (domain_codeChildren hc) hleft (.some hright)).next
      (follows_pure hright)
  · refine (follows_first hc).bind fun token token' htoken => ?_
    refine (follows_offsets (rel_between (.token hstart) (.token htoken)).owned hstart).next ?_
    exact (follows_offset htoken hstart).next (follows_last hc)

theorem method_follows (hn : m.Domain n) :
    m.FollowsUnit (Rule.method s n) (Rule.method s' (m.move n)) := by
  refine (follows_first hn).bind fun start start' hstart => ?_
  rw [field?_move]
  refine (memberKey_follows hstart fun c hc => domain_field? hn hc).bind fun key key' hkey => ?_
  refine (follows_field hn "parameters").bind fun parameters _ ⟨hparameters, heq⟩ => ?_
  subst heq
  refine (follows_first hparameters).bind fun left left' hleft => ?_
  refine (follows_last hparameters).bind fun right right' hright => ?_
  refine (follows_offsets (rel_between (.token hkey) (.token hleft)).owned hkey).next ?_
  refine (follows_offset hleft hstart).next ?_
  rw [codeChildren_move]
  refine (follows_elements (domain_codeChildren hparameters) hleft (.some hright)).next ?_
  exact (follows_firstOf hn "body").bind fun body body' hbody => follows_offset hbody hstart

theorem memberValue_follows (hn : m.Domain n) {start start' : Token}
    (hstart : m.Pairs start start') (name : String) :
    m.FollowsUnit (Rule.memberValue s start (n.field? name) (n.field? "value"))
      (Rule.memberValue s' start' ((m.move n).field? name) ((m.move n).field? "value")) := by
  rw [Rule.memberValue, Rule.memberValue, field?_move, field?_move]
  refine (memberKey_follows hstart fun c hc => domain_field? hn hc).bind fun key key' hkey => ?_
  cases hvalue : n.field? "value" with
  | none => exact follows_pure trivial
  | some value =>
    refine (follows_first (domain_field? hn hvalue)).bind fun token token' htoken => ?_
    exact follows_offsets ((rel_between (.token hkey) (.token htoken)).owned.append htoken.owned)
      hkey

theorem pair_follows (hn : m.Domain n) :
    m.FollowsUnit (Rule.pair s n) (Rule.pair s' (m.move n)) :=
  (follows_first hn).bind fun _ _ hstart => memberValue_follows hn hstart "key"

theorem fieldDefinition_follows (hn : m.Domain n) :
    m.FollowsUnit (Rule.fieldDefinition s n) (Rule.fieldDefinition s' (m.move n)) :=
  (follows_first hn).bind fun _ _ hstart => memberValue_follows hn hstart "property"

/-- Go on with the token of a keyword, or else with the first token. -/
theorem follows_keyword (hn : m.Domain n) (value : String) {α β : Type} {Q : α → β → Prop}
    {f : Token → Draft α} {f' : Token → Draft β}
    (hf : ∀ t t', m.Pairs t t' → m.Follows Q (f t) (f' t')) :
    m.Follows Q
      (keyword? s n value >>= fun o =>
        match o with
        | some keyword => pure keyword >>= f
        | none => first s n >>= f)
      (keyword? s' (m.move n) value >>= fun o =>
        match o with
        | some keyword => pure keyword >>= f'
        | none => first s' (m.move n) >>= f') := by
  refine (follows_keyword? hn value).bind fun o o' ho => ?_
  cases ho with
  | some ht => exact (follows_pure ht).bind hf
  | none => exact (follows_first hn).bind hf

theorem heritage_follows (hn : m.Domain n) {keyword keyword' : Token}
    (hkeyword : m.Pairs keyword keyword') {d d' : Draft Unit} (hd : m.FollowsUnit d d') :
    m.FollowsUnit
      (match n.childOfKind? "class_heritage" with
        | none => d
        | some heritage => do
          let word ← first s heritage
          offset word 1 keyword
          offsets (s.after? word).toList 1 word
          d)
      (match (m.move n).childOfKind? "class_heritage" with
        | none => d'
        | some heritage => do
          let word ← first s' heritage
          offset word 1 keyword'
          offsets (s'.after? word).toList 1 word
          d') := by
  rw [childOfKind?_move n (by decide)]
  cases hheritage : n.childOfKind? "class_heritage" with
  | none => exact hd
  | some heritage =>
    refine (follows_first (domain_childOfKind? hn hheritage)).bind fun word word' hword => ?_
    refine (follows_offset hword hkeyword).next ?_
    exact (follows_offsets (answers_after? (.token hword)).owned hword).next hd

theorem classDefinition_follows (hn : m.Domain n) :
    m.FollowsUnit (Rule.classDefinition s n) (Rule.classDefinition s' (m.move n)) := by
  refine follows_keyword hn "class" fun keyword keyword' hkeyword => ?_
  have hbody : m.FollowsUnit (do offset (← firstOf s (n.field? "body")) 0 keyword)
      (do offset (← firstOf s' ((m.move n).field? "body")) 0 keyword') :=
    (follows_firstOf hn "body").bind fun body body' hbody => follows_offset hbody hkeyword
  rw [field?_move n "name"]
  cases hname : n.field? "name" with
  | none => exact heritage_follows hn hkeyword hbody
  | some name =>
    refine (follows_first (domain_field? hn hname)).bind fun token token' htoken => ?_
    exact (follows_offset htoken hkeyword).next (heritage_follows hn hkeyword hbody)

end ScriptIndent.Embedding
