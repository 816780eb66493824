import Mathlib.Data.List.TakeDrop
import ScriptIndent.Proofs.Embedding.Access

/-!
# ScriptIndent.Proofs.Embedding.Modules

Rules for imports and exports, in a source and in a source around it.
-/

namespace ScriptIndent.Embedding

open Draft

variable {s s' : Source} {m : Embedding s s'} {n : Node}

/-! ## lists of tokens -/

theorem rel_dropWhile {keep : Token → Bool} (hkeep : m.Respects keep) {ts ts' : List Token}
    (h : m.PairsAll ts ts') : m.PairsAll (ts.dropWhile keep) (ts'.dropWhile keep) := by
  induction h with
  | nil => exact .nil
  | cons hpairs hrest ih =>
    rw [List.dropWhile_cons, List.dropWhile_cons, hkeep _ _ hpairs]
    split
    · exact ih
    · exact .cons hpairs hrest

theorem rel_contains {ts ts' : List Token} (h : m.PairsAll ts ts') {t t' : Token}
    (ht : m.Pairs t t') : ts'.contains t' = ts.contains t := by
  induction h with
  | nil => rfl
  | @cons u u' _ _ hu _ ih =>
    rw [List.contains_cons, List.contains_cons, ih]
    congr 1
    rw [Bool.eq_iff_iff, beq_iff_eq, beq_iff_eq]
    exact ht.eq_iff hu

theorem rel_all {keep : Token → Bool} (hkeep : m.Respects keep) {ts ts' : List Token}
    (h : m.PairsAll ts ts') : ts'.all keep = ts.all keep := by
  induction h with
  | nil => rfl
  | cons hpairs _ ih => rw [List.all_cons, List.all_cons, hkeep _ _ hpairs, ih]

theorem rel_getLast? {ts ts' : List Token} (h : m.PairsAll ts ts') :
    Option.Rel m.Pairs ts.getLast? ts'.getLast? := by
  have hreverse := List.rel_reverse h
  rw [List.getLast?_eq_head?_reverse, List.getLast?_eq_head?_reverse]
  generalize ts.reverse = us at hreverse
  generalize ts'.reverse = us' at hreverse
  cases hreverse with
  | nil => exact .none
  | cons hpairs _ => exact .some hpairs

theorem respects_isFrom : m.Respects (!Rule.isFrom ·) := fun t t' h => by
  change (!t'.value == "from") = !t.value == "from"
  rw [h.value_eq]

theorem respects_isNotAs : m.Respects (·.value != "as") := fun t t' h => by
  change (t'.value != "as") = (t.value != "as")
  rw [h.value_eq]

theorem respects_isBrace : m.Respects Token.isBrace := fun _ _ h => by
  rw [Token.isBrace, Token.isOpeningBrace, Token.isClosingBrace, h.isPunctuator, h.isPunctuator]
  rfl

/-! ## imports -/

/-- The tokens of two imports correspond. -/
structure PairsHead (m : Embedding s s') (h h' : Rule.ImportHead) : Prop where
  before : m.PairsAll h.before h'.before
  word : Option.Rel m.Pairs h.word h'.word
  after : m.PairsAll h.after h'.after

theorem importHead_of {ts ts' : List Token} (h : m.PairsAll ts ts') {t t' : Token}
    (ht : m.Pairs t t') :
    m.PairsHead (Rule.ImportHead.of ts t) (Rule.ImportHead.of ts' t') := by
  have hreverse := List.rel_reverse h
  have htake := rel_takeWhile hreverse respects_isFrom
  have hdrop := rel_dropWhile respects_isFrom hreverse
  rw [Rule.ImportHead.of, Rule.ImportHead.of, List.span_eq_takeWhile_dropWhile,
    List.span_eq_takeWhile_dropWhile]
  generalize ts.reverse.takeWhile (!Rule.isFrom ·) = us at htake
  generalize ts'.reverse.takeWhile (!Rule.isFrom ·) = us' at htake
  generalize ts.reverse.dropWhile (!Rule.isFrom ·) = vs at hdrop
  generalize ts'.reverse.dropWhile (!Rule.isFrom ·) = vs' at hdrop
  cases hdrop with
  | nil => exact ⟨List.rel_append h (.cons ht .nil), .none, .nil⟩
  | cons hword hbefore =>
    exact ⟨List.rel_reverse hbefore, .some hword,
      List.rel_append (List.rel_reverse htake) (.cons ht .nil)⟩

theorem importPart_follows (hn : m.Domain n) {p : Node} (hp : m.Domain p) :
    m.Follows m.PairsAll (Rule.importPart s n p)
      (Rule.importPart s' (m.move n) (m.move p)) := by
  rw [Rule.importPart, Rule.importPart, m.move_kind]
  split
  · exact follows_pure (List.forall₂_drop 1 (rel_tokensOf (.node hp)))
  split
  · dsimp only
    rw [codeChildren_move, filter_move fun c _ => by rw [m.move_kind], List.head?_map,
      List.getLast?_map]
    have hdomain : ∀ c ∈ p.codeChildren.filter (·.kind == "import_specifier"), m.Domain c :=
      fun c hc => domain_codeChildren hp c (List.mem_filter.1 hc).1
    generalize p.codeChildren.filter (·.kind == "import_specifier") = specifiers at hdomain
    cases hhead : specifiers.head? with
    | none => exact follows_pure .nil
    | some head =>
      cases htail : specifiers.getLast? with
      | none => exact follows_pure .nil
      | some tail =>
        have hh := hdomain head (List.mem_of_head? hhead)
        have ht := hdomain tail (List.mem_of_getLast? htail)
        refine (follows_require hn "`\x7b`" (answers_before? (.node hh))).bind
          fun left left' hleft => ?_
        refine (follows_require hn "`\x7d`"
          (answers_afterWhere? (respects_isPunctuator "\x7d") (.node ht))).bind
          fun right right' hright => ?_
        refine (follows_elements hdomain hleft (.some hright)).next ?_
        exact follows_pure (rel_between (.token hleft) (.token hright))
  · exact follows_pure .nil

theorem importParts_follows (hn : m.Domain n) {ps : List Node} (hps : ∀ p ∈ ps, m.Domain p) :
    m.Follows m.PairsAll (Rule.importParts s n ps)
      (Rule.importParts s' (m.move n) (ps.map m.move)) := by
  induction ps with
  | nil => exact follows_pure .nil
  | cons p rest ih =>
    refine (importPart_follows hn (hps p List.mem_cons_self)).bind fun placed placed' hplaced => ?_
    refine (ih fun q hq => hps q (List.mem_cons_of_mem p hq)).bind fun more more' hmore => ?_
    exact follows_pure (List.rel_append hplaced hmore)

theorem importing_follows (hn : m.Domain n) :
    m.FollowsUnit (Rule.importing s n) (Rule.importing s' (m.move n)) := by
  refine (follows_first hn).bind fun keyword keyword' hkeyword => ?_
  refine (follows_field hn "source").bind fun module _ ⟨hmodule, heq⟩ => ?_
  subst heq
  refine (follows_first hmodule).bind fun token token' htoken => ?_
  have hhead := importHead_of (rel_between (.token hkeyword) (.node hmodule)) htoken
  have hclause : ((m.move n).childOfKind? "import_clause").elim [] (·.codeChildren) =
      ((n.childOfKind? "import_clause").elim [] (·.codeChildren)).map m.move := by
    rw [childOfKind?_move n (by decide)]
    cases n.childOfKind? "import_clause" with
    | none => rfl
    | some c => exact codeChildren_move c
  have hdomain : ∀ c ∈ (n.childOfKind? "import_clause").elim [] (·.codeChildren),
      m.Domain c := by
    cases hc : n.childOfKind? "import_clause" with
    | none => simp
    | some c => exact domain_codeChildren (domain_childOfKind? hn hc)
  rw [hclause]
  refine (importParts_follows hn hdomain).bind fun placed placed' hplaced => ?_
  have hbefore : m.PairsAll
      ((Rule.ImportHead.of (s.between keyword module) token).before.filter
        (!placed.contains ·))
      ((Rule.ImportHead.of (s'.between keyword' (m.move module)) token').before.filter
        (!placed'.contains ·)) :=
    List.rel_filter (fun t t' ht => by simp only [rel_contains hplaced ht]) hhead.before
  dsimp only
  rw [rel_all respects_isBrace hbefore]
  refine (follows_offsets hbefore.owned hkeyword).next ?_
  have hword := hhead.word
  have hafter := hhead.after
  generalize (Rule.ImportHead.of (s.between keyword module) token).word = word at hword
  generalize (Rule.ImportHead.of (s'.between keyword' (m.move module)) token').word = word' at hword
  cases hword with
  | none => exact follows_pure trivial
  | some hword => exact (follows_offset hword hkeyword).next (follows_offsets hafter.owned hword)

theorem aliased_follows (hn : m.Domain n) :
    m.FollowsUnit (Rule.aliased s n) (Rule.aliased s' (m.move n)) := by
  rw [Rule.aliased, Rule.aliased]
  have htokens := rel_tokensOf (PairsAnchor.node hn)
  generalize s.tokensOf n = ts at htokens
  generalize s'.tokensOf (m.move n) = ts' at htokens
  cases htokens with
  | nil => exact follows_pure trivial
  | cons htoken hrest => exact follows_offsets (PairsAll.owned hrest) htoken

theorem importSpecifier_follows (hn : m.Domain n) :
    m.FollowsUnit (Rule.importSpecifier s n) (Rule.importSpecifier s' (m.move n)) := by
  rw [Rule.importSpecifier, Rule.importSpecifier, field?_move, Option.isSome_map]
  split
  · exact aliased_follows hn
  · exact follows_pure trivial

/-! ## exports -/

theorem exportAll_follows (hn : m.Domain n) {keyword keyword' : Token}
    (hkeyword : m.Pairs keyword keyword') {module : Node} (hmodule : m.Domain module) :
    m.FollowsUnit (Rule.exportAll s n keyword module)
      (Rule.exportAll s' (m.move n) keyword' (m.move module)) := by
  have hfault : ∀ {description : String}, m.Exact →
      Fault.tokenNotFound description (m.move n).kind (s'.lineOfNode (m.move n)) =
        .tokenNotFound description n.kind (s.lineOfNode n) := by
    intro description hexact
    rw [m.move_kind, m.lineOfNode hn hexact.2]
  have hbetween := rel_between (m := m) (.token hkeyword) (.node hmodule)
  have htake := rel_takeWhile hbetween respects_isFrom
  have hdrop := rel_dropWhile respects_isFrom hbetween
  rw [Rule.exportAll, Rule.exportAll, List.span_eq_takeWhile_dropWhile,
    List.span_eq_takeWhile_dropWhile]
  generalize (s.between keyword module).takeWhile (!Rule.isFrom ·) = before at htake
  generalize (s'.between keyword' (m.move module)).takeWhile (!Rule.isFrom ·) = before' at htake
  generalize (s.between keyword module).dropWhile (!Rule.isFrom ·) = rest at hdrop
  generalize (s'.between keyword' (m.move module)).dropWhile (!Rule.isFrom ·) = rest' at hdrop
  cases hdrop with
  | nil => exact follows_fail hfault
  | @cons word word' after after' hword hafter =>
    refine (follows_first hmodule).bind fun token token' htoken => ?_
    have hrest : m.FollowsUnit (do offset word 0 keyword; offsets (after ++ [token]) 1 word)
        (do offset word' 0 keyword'; offsets (after' ++ [token']) 1 word') :=
      (follows_offset hword hkeyword).next
        (follows_offsets (PairsAll.owned (List.rel_append hafter (.cons htoken .nil))) hword)
    rw [childOfKind?_move n (by decide), Option.isNone_map]
    split
    · exact (follows_offsets (PairsAll.owned htake) hkeyword).next hrest
    · have hstar := rel_takeWhile htake respects_isNotAs
      have hrenamed := rel_dropWhile respects_isNotAs htake
      rw [List.span_eq_takeWhile_dropWhile, List.span_eq_takeWhile_dropWhile]
      generalize before.takeWhile (·.value != "as") = star at hstar
      generalize before'.takeWhile (·.value != "as") = star' at hstar
      generalize before.dropWhile (·.value != "as") = renamed at hrenamed
      generalize before'.dropWhile (·.value != "as") = renamed' at hrenamed
      have hlast := rel_getLast? hstar
      dsimp only
      generalize star.getLast? = last at hlast
      generalize star'.getLast? = last' at hlast
      cases hlast with
      | none => exact (follows_fail hfault).bind fun _ _ (h : False) => h.elim
      | some hlast =>
        cases hrenamed with
        | nil => exact (follows_fail hfault).bind fun _ _ (h : False) => h.elim
        | cons hname hrenamed =>
          refine (follows_offsets (PairsAll.owned hstar) hkeyword).next ?_
          exact (follows_offsets (PairsAll.owned (.cons hname hrenamed)) hlast).next hrest

theorem exportNames_follows {keyword keyword' : Token} (hkeyword : m.Pairs keyword keyword')
    {clause : Node} (hclause : m.Domain clause) {module : Option Node}
    (hmodule : ∀ c, module = some c → m.Domain c) :
    m.FollowsUnit (Rule.exportNames s keyword clause module)
      (Rule.exportNames s' keyword' (m.move clause) (module.map m.move)) := by
  refine (follows_first hclause).bind fun left left' hleft => ?_
  refine (follows_last hclause).bind fun right right' hright => ?_
  refine (follows_offset hleft hkeyword).next ?_
  rw [codeChildren_move]
  refine (follows_elements (domain_codeChildren hclause) hleft (.some hright)).next ?_
  cases module with
  | none => exact follows_pure trivial
  | some module =>
    have hc := hmodule module rfl
    have hbetween := rel_between (m := m) (.token hright) (.node hc)
    rw [Option.map_some]
    dsimp only
    generalize s.between right module = ts at hbetween
    generalize s'.between right' (m.move module) = ts' at hbetween
    cases hbetween with
    | nil => exact follows_pure trivial
    | cons hword hrest =>
      refine (follows_offset hword hkeyword).next ?_
      refine (follows_first hc).bind fun token token' htoken => ?_
      exact follows_offsets (PairsAll.owned (List.rel_append hrest (.cons htoken .nil))) hword

theorem exporting_follows (hn : m.Domain n) :
    m.FollowsUnit (Rule.exporting s n) (Rule.exporting s' (m.move n)) := by
  refine follows_keyword hn "export" fun keyword keyword' hkeyword => ?_
  refine (follows_keyword? hn "default").bind fun o o' ho => ?_
  rw [field?_move, field?_move]
  cases ho with
  | some _ =>
    dsimp only
    rw [← Option.map_or]
    have htarget : ∀ c, (n.field? "declaration").or (n.field? "value") = some c → m.Domain c := by
      intro c hc
      rcases Option.or_eq_some_iff.1 hc with hc | ⟨-, hc⟩
      · exact domain_field? hn hc
      · exact domain_field? hn hc
    generalize (n.field? "declaration").or (n.field? "value") = target at htarget
    cases target with
    | none => exact follows_pure trivial
    | some target =>
      refine (follows_first (htarget target rfl)).bind fun token token' htoken => ?_
      exact follows_offsets
        ((rel_between (.token hkeyword) (.token htoken)).owned.append htoken.owned) hkeyword
  | none =>
    dsimp only
    cases hdeclaration : n.field? "declaration" with
    | some declaration =>
      exact (follows_first (domain_field? hn hdeclaration)).bind fun token token' htoken =>
        follows_offset htoken hkeyword
    | none =>
      rw [childOfKind?_move n (by decide), field?_move]
      cases hclause : n.childOfKind? "export_clause" with
      | some clause =>
        exact exportNames_follows hkeyword (domain_childOfKind? hn hclause)
          fun c hc => domain_field? hn hc
      | none =>
        cases hmodule : n.field? "source" with
        | some module => exact exportAll_follows hn hkeyword (domain_field? hn hmodule)
        | none => exact follows_pure trivial

end ScriptIndent.Embedding
