import ScriptIndent.Proofs.Embedding.Modules
import ScriptIndent.Proofs.Embedding.Operators
import ScriptIndent.Proofs.Rule.Visit

/-!
# ScriptIndent.Proofs.Embedding.Visit

Visits in a source and in a source around it.

1. The semicolon at the end of a statement and the parentheses around an
   expression correspond (`common_carries`).
2. A visit to a moved node follows the visit to the node (`visit?_follows`).
3. The visits below a moved node are the moved visits (`visited_move`).
-/

namespace ScriptIndent.Embedding

open Draft

variable {s s' : Source} {m : Embedding s s'} {n : Node}

/-! ## semicolons -/

theorem rel_option_filter {keep : Token → Bool} (hkeep : m.Respects keep) {o o' : Option Token}
    (h : Option.Rel m.Pairs o o') : Option.Rel m.Pairs (o.filter keep) (o'.filter keep) := by
  cases h with
  | none => exact .none
  | @some t t' ht =>
    rw [Option.filter_some, Option.filter_some, hkeep t t' ht]
    cases keep t with
    | false => exact .none
    | true => exact .some ht

theorem rel_or {o o' p p' : Option Token} (ho : Option.Rel m.Pairs o o')
    (hp : Option.Rel m.Pairs p p') : Option.Rel m.Pairs (o.or p) (o'.or p') := by
  cases ho with
  | none => exact hp
  | some h => exact .some h

/-- A class field is followed by a token of the smaller source. -/
def FieldsEnd (m : Embedding s s') (n : Node) : Prop :=
  n.kind = "field_definition" → m.Full ∨ (s.after? n).isSome

theorem rel_closingSemicolon? (hn : m.Domain n) (hfield : m.FieldsEnd n) :
    Option.Rel m.Pairs (Rule.closingSemicolon? s n)
      (Rule.closingSemicolon? s' (m.move n)) := by
  have hsemicolon : m.Respects Token.isSemicolon := respects_isPunctuator ";"
  have hnode : m.PairsAnchor n (m.move n) := .node hn
  rw [Rule.closingSemicolon?, Rule.closingSemicolon?, m.move_kind]
  refine rel_option_filter hsemicolon (rel_or ?_ (rel_last? hnode))
  split
  · next hkind =>
    rcases rel_after? hnode with hrel | ⟨hnone, t', ht', hsome⟩
    · exact rel_option_filter hsemicolon hrel
    · rcases hfield (by simpa using hkind) with hfull | hafter
      · exact absurd hfull (not_full ht' (.inr (Nat.le_refl _)))
      · simp [hnone] at hafter
  · exact .none

theorem trailingSemicolon_carries (hn : m.Domain n) (hfield : m.FieldsEnd n) :
    m.CarriesAll (Rule.trailingSemicolon s n) (Rule.trailingSemicolon s' (m.move n)) := by
  have hfirst := rel_first? (PairsAnchor.node hn)
  have hclosing := rel_closingSemicolon? hn hfield
  rw [Rule.trailingSemicolon, Rule.trailingSemicolon]
  generalize s.first? n = o at hfirst
  generalize s'.first? (m.move n) = o' at hfirst
  generalize Rule.closingSemicolon? s n = p at hclosing
  generalize Rule.closingSemicolon? s' (m.move n) = p' at hclosing
  cases hfirst with
  | none => exact .nil
  | some hstart =>
    cases hclosing with
    | none => exact .nil
    | @some semicolon semicolon' hsemicolon =>
      have hall : (s'.after? semicolon').all (semicolon'.line < ·.line) =
          (s.after? semicolon).all (semicolon.line < ·.line) := by
        rcases rel_after? (.token hsemicolon) with hrel | ⟨hnone, t', ht', hsome⟩
        · generalize s.after? semicolon = q at hrel
          generalize s'.after? semicolon' = q' at hrel
          cases hrel with
          | none => rfl
          | some hafter => simp [hsemicolon.line_lt hafter]
        · have hline := hsemicolon.line_eq
          obtain ⟨i, hi, -⟩ := hsemicolon
          have := (m.closing ht').2 i semicolon hi
          simp [hnone, hsome, hline, this]
      dsimp only
      rw [hall]
      split
      · exact carriesAll_offsets hsemicolon.owned 0 hstart
      · exact .nil

/-! ## parentheses -/

/-- The tokens below corresponding places are opening parentheses together. -/
theorem rel_openingBelow {i k : Nat} (hi : i ≤ s.tokens.size) (hk : k + 1 = m.skip + i) :
    (∃ l, i = l + 1 ∧ k = m.skip + l ∧ Option.Rel m.Pairs
      (s.tokens[l]?.filter Token.isOpeningParen) (s'.tokens[k]?.filter Token.isOpeningParen)) ∨
    i = 0 ∧ s'.tokens[k]?.filter Token.isOpeningParen = none := by
  cases i with
  | zero =>
    refine .inr ⟨rfl, ?_⟩
    cases hget : s'.tokens[k]? with
    | none => rfl
    | some t' =>
      rw [Option.filter_some, m.opening (by omega) hget]
      rfl
  | succ l =>
    obtain rfl : k = m.skip + l := by omega
    obtain ⟨t, t', ht, ht', hpairs⟩ := rel_getElem? (m := m) (i := l) (by omega)
    refine .inl ⟨l, rfl, rfl, rel_option_filter (respects_isPunctuator "(") ?_⟩
    rw [ht, ht']
    exact .some hpairs

/-- The tokens at corresponding places are closing parentheses together. -/
theorem rel_closingAt {j : Nat} (hj : j ≤ s.tokens.size) : Option.Rel m.Pairs
    (s.tokens[j]?.filter Token.isClosingParen)
    (s'.tokens[m.skip + j]?.filter Token.isClosingParen) := by
  by_cases hlt : j < s.tokens.size
  · obtain ⟨t, t', ht, ht', hpairs⟩ := rel_getElem? (m := m) hlt
    refine rel_option_filter (respects_isPunctuator ")") ?_
    rw [ht, ht']
    exact .some hpairs
  · obtain rfl : j = s.tokens.size := by omega
    rw [Array.getElem?_eq_none (Nat.le_refl _)]
    cases hget : s'.tokens[m.skip + s.tokens.size]? with
    | none => exact .none
    | some t' =>
      rw [Option.filter_some, (m.closing hget).1]
      exact .none

/-- Going outwards, the same parentheses are met. -/
theorem unwrapFrom_carries {inner inner' : Token} (hinner : m.Pairs inner inner') {i j : Nat}
    (hi : i ≤ s.tokens.size) (hj : j ≤ s.tokens.size) :
    m.CarriesAll (Rule.unwrapFrom s.tokens inner i j)
      (Rule.unwrapFrom s'.tokens inner' (m.skip + i) (m.skip + j)) := by
  induction i generalizing inner inner' j with
  | zero =>
    rw [Rule.unwrapFrom]
    cases hskip : m.skip + 0 with
    | zero => exact .nil
    | succ k =>
      obtain ⟨l, hl, -⟩ | ⟨-, hnone⟩ := rel_openingBelow (m := m) hi hskip.symm
      · cases hl
      · rw [Rule.unwrapFrom, hnone]
        exact .nil
  | succ i ih =>
    have hopening := rel_openingBelow (m := m) hi (Nat.add_assoc m.skip i 1)
    have hclosing := rel_closingAt (m := m) hj
    obtain ⟨_, hl, -, hopening⟩ | ⟨hzero, -⟩ := hopening
    swap
    · cases hzero
    obtain rfl := Nat.succ.inj hl
    rw [← Nat.add_assoc, Rule.unwrapFrom, Rule.unwrapFrom]
    generalize s.tokens[i]?.filter Token.isOpeningParen = left at hopening
    generalize s'.tokens[m.skip + i]?.filter Token.isOpeningParen = left' at hopening
    generalize hright : s.tokens[j]?.filter Token.isClosingParen = right at hclosing
    generalize s'.tokens[m.skip + j]?.filter Token.isClosingParen = right' at hclosing
    cases hopening with
    | none => exact .nil
    | some hleft =>
      cases hclosing with
      | none => exact .nil
      | some hpair =>
        have hlt : j < s.tokens.size := by
          by_contra hge
          rw [Array.getElem?_eq_none (by omega)] at hright
          cases hright
        exact ((carriesAll_offsets hinner.owned 1 hleft).append
          (carriesAll_offsets hpair.owned 0 hleft)).append (ih hleft (by omega) (by omega))

theorem wrappingParentheses_carries (hn : m.Domain n) :
    m.CarriesAll (Rule.wrappingParentheses s n) (Rule.wrappingParentheses s' (m.move n)) := by
  rw [Rule.wrappingParentheses, Rule.wrappingParentheses]
  rcases rel_cases (rel_first? (.node hn)) with ⟨ho, ho'⟩ | ⟨i, t, t', ho, ho', ht, ht'⟩
  · rw [ho, ho']
    exact .nil
  rcases rel_cases (rel_last? (.node hn)) with ⟨hp, hp'⟩ | ⟨j, u, u', hp, hp', hu, hu'⟩
  · rw [ho, ho', hp, hp']
    exact .nil
  rw [ho, ho', hp, hp']
  have hi := (Array.getElem?_eq_some_iff.1 ht).1
  have hj := (Array.getElem?_eq_some_iff.1 hu).1
  simp only [Source.index_of_getElem? ht, Source.index_of_getElem? ht',
    Source.index_of_getElem? hu, Source.index_of_getElem? hu', Option.elim_some,
    Option.getD_some, Nat.add_assoc]
  exact unwrapFrom_carries ⟨i, ht, ht'⟩ (Nat.le_of_lt hi) hj

/-- The rules common to all statements and to all expressions. -/
theorem common_carries (hn : m.Domain n) (hfield : m.FieldsEnd n) :
    m.CarriesAll (Rule.common s n) (Rule.common s' (m.move n)) := by
  rw [Rule.common, Rule.common, m.move_kind]
  refine .append ?_ ?_
  · split
    · exact trailingSemicolon_carries hn hfield
    · exact .nil
  · split
    · exact wrappingParentheses_carries hn
    · exact .nil

/-! ## visits -/

/-- Every loop over a collection has its shape, if the larger source has more
tokens than the smaller. -/
def Shaped (m : Embedding s s') (n : Node) : Prop :=
  m.Full ∨ ∃ i j, s.Stands n i j ∧ n.IsCompound ∧ n.ForInLoopShape s.buffer

variable {above rest rest' : List Node}

theorem ofConstruct_follows (hrest : Barrier rest) (hrest' : Barrier rest') (hn : m.Domain n)
    (habove : ∀ a ∈ above, m.Domain a) (hline : Lineage (n :: above)) {construct : Construct}
    (hshape : construct = .forInLoop → m.Shaped n) (caseLevels : Int) :
    m.FollowsUnit (Rule.ofConstruct s caseLevels (above ++ rest) n construct)
      (Rule.ofConstruct s' caseLevels (above.map m.move ++ rest') (m.move n) construct) := by
  cases construct with
  | plain => exact follows_pure trivial
  | program => exact program_follows (codeChildren_move n) (domain_codeChildren hn)
  | arrayList => exact arrayList_follows hn
  | objectList => exact objectList_follows hn
  | block => exact block_follows hn
  | staticBlock => exact staticBlock_follows hn
  | sequence => exact sequence_follows hn
  | declaration => exact declaration_follows hn
  | declarator => exact declarator_follows hn
  | chain => exact chain_follows hrest hrest' hn habove
  | ternary => exact ternary_follows hrest hrest' hn habove hline
  | operand => exact operand_follows hn
  | yielding => exact yielding_follows hn
  | conditional => exact conditional_follows hn
  | headed => exact headed_follows hn
  | doLoop => exact doLoop_follows hn
  | forLoop => exact forLoop_follows hn
  | forInLoop => exact forInLoop_follows hn (hshape rfl)
  | switch => exact switch_follows hn caseLevels
  | clause => exact clause_follows hn
  | guarded => exact guarded_follows hn
  | handler => exact handler_follows hn
  | labeled => exact labeled_follows hn
  | jump => exact jump_follows hn
  | exit => exact exit_follows hn
  | function => exact function_follows hn
  | arrow => exact arrow_follows hn
  | method => exact method_follows hn
  | classDefinition => exact classDefinition_follows hn
  | fieldDefinition => exact fieldDefinition_follows hn
  | pair => exact pair_follows hn
  | member => exact access_follows hn
  | subscript => exact subscript_follows hn
  | metaProperty => exact metaProperty_follows hn
  | call => exact call_follows hn
  | creation => exact creation_follows hn
  | templateLiteral => exact templateLiteral_follows hn
  | importing => exact importing_follows hn
  | importSpecifier => exact importSpecifier_follows hn
  | aliased => exact aliased_follows hn
  | exporting => exact exporting_follows hn

/-- A place of the smaller source and where it is found. -/
inductive PlaceMoves (m : Embedding s s') (rest rest' : List Node) :
    Node.Placed → Node.Placed → Prop
  | intro {n : Node} {above : List Node} (hn : m.Domain n) (habove : ∀ a ∈ above, m.Domain a)
    (hline : Lineage (n :: above)) :
    PlaceMoves m rest rest' ⟨n, above ++ rest⟩ ⟨m.move n, above.map m.move ++ rest'⟩

/-- A visit to a moved node follows the visit to the node. -/
theorem visit?_follows (hrest : Barrier rest) (hrest' : Barrier rest') {place place' : Node.Placed}
    (hplace : m.PlaceMoves rest rest' place place')
    (hshape : Construct.ofKind? place.node.kind = some .forInLoop → m.Shaped place.node)
    (hfield : m.FieldsEnd place.node) (caseLevels : Int) :
    Option.Rel m.FollowsUnit (Rule.visit? s caseLevels place)
      (Rule.visit? s' caseLevels place') := by
  obtain ⟨hn, habove, hline⟩ := hplace
  simp only [Rule.visit?, m.move_kind]
  simp only at hshape hfield
  cases hconstruct : Construct.ofKind? _ with
  | none => exact .none
  | some construct =>
    refine .some ((ofConstruct_follows hrest hrest' hn habove hline ?_ caseLevels).next
      (follows_write (common_carries hn hfield)))
    rintro rfl
    exact hshape hconstruct

/-- Comments are not visited. -/
theorem visited_woven {ns ns' : List Node} (h : Node.Woven ns ns') (above : List Node) :
    (ns'.filter (·.isNamed)).flatMap (Node.visited above) =
      (ns.filter (·.isNamed)).flatMap (Node.visited above) := by
  induction h with
  | nil => rfl
  | keep n _ ih =>
    rw [List.filter_cons, List.filter_cons]
    split
    · rw [List.flatMap_cons, List.flatMap_cons, ih]
    · exact ih
  | @comment c _ _ hcomment hnamed _ _ ih =>
    rw [List.filter_cons_of_pos hnamed, List.flatMap_cons, Node.visited_eq, if_pos hcomment, ih,
      List.nil_append]

/-- The visits below a moved node are the moved visits. -/
theorem visited_move (hn : m.Domain n) (habove : ∀ a ∈ above, m.Domain a)
    (hline : Lineage (n :: above)) :
    List.Forall₂ (m.PlaceMoves rest rest') (n.visited (above ++ rest))
      ((m.move n).visited (above.map m.move ++ rest')) := by
  induction n using Node.induct generalizing above with
  | step n ih =>
    rw [Node.visited_eq, Node.visited_eq, move_isComment, m.move_kind]
    split
    · exact .nil
    split
    · exact .cons ⟨hn, habove, hline⟩ .nil
    refine .cons ⟨hn, habove, hline⟩ ?_
    rw [Node.visitedAmong_eq, Node.visitedAmong_eq, visited_woven (m.move_children n)]
    have hchildren : ∀ c ∈ n.children, m.Domain c := fun c hc => m.domain_child hn hc
    rw [filter_move fun c _ => m.move_isNamed c]
    have habove' : ∀ a ∈ n :: above, m.Domain a :=
      fun a ha => (List.mem_cons.1 ha).elim (· ▸ hn) (habove a)
    have hvisited := fun c (hc : c ∈ n.children.filter (·.isNamed)) =>
      ih c (List.mem_filter.1 hc).1 (hchildren c (List.mem_filter.1 hc).1) habove'
        (List.isChain_cons_cons.2 ⟨(List.mem_filter.1 hc).1, hline⟩)
    generalize n.children.filter (·.isNamed) = cs at hvisited
    induction cs with
    | nil => exact .nil
    | cons c cs ihcs =>
      rw [List.map_cons, List.flatMap_cons, List.flatMap_cons]
      exact List.rel_append (hvisited c List.mem_cons_self)
        (ihcs fun d hd => hvisited d (List.mem_cons_of_mem c hd))

end ScriptIndent.Embedding
