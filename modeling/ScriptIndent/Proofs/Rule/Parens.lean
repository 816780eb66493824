import ScriptIndent.Proofs.Rule.Standing
import ScriptIndent.Proofs.Stream.Parens

/-!
# ScriptIndent.Proofs.Rule.Parens

The closing parenthesis of a parenthesized expression.

```
( ( x ) + y )       x, in parentheses of its own, begins the wrapped expression;
i           j       the pairs around the wrapped expression begin with the outer parentheses
```

A parenthesized expression has no rule.  If the expression in it has one, the visit to that
expression places the closing parenthesis flush with the opening one.  Visits to constructs around
it come before.  Those to constructs within the expression may find the same closing parenthesis,
but then they find the same opening one for it (`Source.Stands.eq_of_closing`), and those to
constructs behind it do not reach back.  So the entry stands (`Source.get?_closing`).
-/

namespace ScriptIndent

namespace Node

/-- An expression in parentheses, with no more than comments beside it. -/
def Parenthesizes (b : Buffer) (n inner : Node) : Prop :=
  n.kind = "parenthesized_expression" ∧ inner.IsCode ∧
    ∃ opening closing, n.parts = [opening, inner, closing] ∧ opening.Spells b "(" ∧
      closing.Spells b ")"

variable {b : Buffer} {n inner : Node}

theorem Parenthesizes.ofKind? (h : n.Parenthesizes b inner) :
    Construct.ofKind? n.kind = some .plain := by
  rw [h.1]
  decide

theorem Parenthesizes.mem_codeChildren (h : n.Parenthesizes b inner) :
    inner ∈ n.codeChildren := by
  obtain ⟨-, hcode, opening, closing, hparts, -⟩ := h
  have hmem : inner ∈ n.parts := by simp [hparts]
  exact Node.mem_codeChildren.2 ⟨(List.mem_filter.1 hmem).1, hcode⟩

end Node

namespace Source

/-- Each visited node closes the parentheses that it opens. -/
def Balanced (s : Source) : Prop :=
  ∀ place ∈ s.root.visited [], parenDepth 0 (s.tokensOf place.node) = some 0

/-- An entry that places a closing parenthesis flush with the opening one as far before a stretch
as it is behind the stretch, with nothing but parentheses between. -/
def Wraps (s : Source) (i j : Nat) (e : Entry) : Prop :=
  ∃ k base, k < i ∧ s.At (i - 1 - k) base ∧ s.At (j + k) e.token ∧ e = ⟨e.token, some base, 0⟩ ∧
    (∀ m, i ≤ m + 1 + k → m < i → ∃ t, s.At m t ∧ t.isOpeningParen = true) ∧
    ∀ m, j ≤ m → m ≤ j + k → ∃ t, s.At m t ∧ t.isClosingParen = true

/-- How a visit to a node that stands from place `i` to place `j` places a token. -/
inductive Drafted (s : Source) (n : Node) (i j : Nat) (e : Entry) : Prop
  /-- A statement of a program may begin with the first token. -/
  | start {l : Nat} (kind_eq : n.kind = "program") (token_at : s.At l e.token) (le : i ≤ l)
      (lt : l < j)
  | inside {l : Nat} (token_at : s.At l e.token) (lt : i < l) (lt_stop : l < j)
  | field (kind_eq : n.kind = "field_definition") (token_at : s.At j e.token)
      (semicolon : e.token.isSemicolon = true)
  /-- What follows an opening parenthesis around the node is indented from it. -/
  | opening {l : Nat} {base : Token} (base_at : s.At l base) (token_at : s.At (l + 1) e.token)
      (eq : e = ⟨e.token, some base, 1⟩) (lt : l < i)
      (openings : ∀ k, l ≤ k → k < i → ∃ t, s.At k t ∧ t.isOpeningParen = true)
  | closing (wraps : s.Wraps i j e)

/-- Around a node in a balanced stretch, the closing parenthesis behind the stretch is placed flush
with what stands directly before the stretch. -/
theorem Wraps.eq_of_stretch {s : Source} {m : Node} {a b x y : Nat} {e : Entry} {left right : Token}
    (h : s.Wraps x y e) (hm : s.Stands m x y) (hxy : x < y) (hax : a + 1 ≤ x) (hyb : y ≤ b)
    (hbalanced : parenDepth 0 (s.tokens.extract (a + 1) b).toList = some 0)
    (hinner : parenDepth 0 (s.tokensOf m) = some 0) (hleft : s.At a left) (hright : s.At b right)
    (htoken : e.token = right) : e = ⟨right, some left, 0⟩ := by
  obtain ⟨k, base, hkx, hbase, hat, heq, hopens, hcloses⟩ := h
  rw [htoken] at hat
  have hk : y + k = b := eq_of_getElem? hat hright
  have hsize := (Array.getElem?_eq_some_iff.1 hright).1
  have hx := hm.eq_of_closing hxy hax hyb (Nat.le_of_lt hsize) hbalanced hinner
    (fun l hyl hlb => hcloses l hyl (by omega)) fun l hxl hlx => hopens l (by omega) hlx
  obtain rfl : left = base := by
    rw [show x - 1 - k = a by omega] at hbase
    exact Option.mem_unique hleft hbase
  rw [heq, htoken]

end Source

namespace Rule

open Draft

variable {s : Source} {n : Node} {ancestors : List Node} {i j : Nat}

/-! ## pairs of parentheses -/

/-- Wrapping parentheses place what follows the opening ones, and the closing ones. -/
theorem wrappingParentheses_drafted (h : s.Stands n i j) (hij : i < j) {e : Entry}
    (he : e ∈ wrappingParentheses s n) : s.Drafted n i j e := by
  obtain ⟨start, hstart, hfirst⟩ := (h.ends hij).exists_first?
  rw [wrappingParentheses_eq, hfirst] at he
  obtain ⟨k, p, hp, hcases⟩ := unwrap_places hstart (fun m p hp => getElem?_wrappers h hij hp) he
  -- all pairs up to this one are there
  have hpairs : ∀ m ≤ k, ∃ p, (wrappers s n)[m]? = some p := fun m hm => by
    have := (List.getElem?_eq_some_iff.1 hp).1
    exact ⟨_, List.getElem?_eq_getElem (by omega)⟩
  obtain ⟨hki, hleft, -, hright, -⟩ := getElem?_wrappers h hij hp
  have hopens (m : Nat) (hm : i ≤ m + 1 + k) (hmi : m < i) :
      ∃ t, s.At m t ∧ t.isOpeningParen = true := by
    obtain ⟨q, hq⟩ := hpairs (i - 1 - m) (by omega)
    obtain ⟨-, hat, hopening, -⟩ := getElem?_wrappers h hij hq
    exact ⟨q.1, by rwa [show i - 1 - (i - 1 - m) = m by omega] at hat, hopening⟩
  rcases hcases with ⟨ht, heq⟩ | rfl
  · rw [show i - k = i - 1 - k + 1 by omega] at ht
    exact .opening hleft ht heq (by omega) fun m hm hmi => hopens m (by omega) hmi
  · refine .closing ⟨k, p.1, hki, hleft, hright, rfl, hopens, fun m hjm hmk => ?_⟩
    obtain ⟨q, hq⟩ := hpairs (m - j) (by omega)
    obtain ⟨-, -, -, hat, hclosing⟩ := getElem?_wrappers h hij hq
    exact ⟨q.2, by rwa [show j + (m - j) = m by omega] at hat, hclosing⟩

/-- The parentheses directly around an expression are its innermost pair. -/
theorem wrappingParentheses_eq_append (h : s.Stands n i j) (hij : i < j) (hi : 0 < i)
    {start left right : Token} (hstart : s.At i start) (hleft : s.At (i - 1) left)
    (hopening : left.isOpeningParen = true) (hright : s.At j right)
    (hclosing : right.isClosingParen = true) : ∃ more, wrappingParentheses s n =
      Entry.offsets [start] 1 (some left) ++ Entry.offsets [right] 0 (some left) ++ more := by
  have hfirst : s.first? n = some start := (h.ends hij).first?_eq.trans hstart
  have hopeners : ∃ more, openersBelow s.tokens i = left :: more := by
    rw [show i = i - 1 + 1 by omega, openersBelow, hleft, Option.filter_some, if_pos hopening]
    exact ⟨_, rfl⟩
  have hclosers : ∃ more, closersFrom s.tokens j = right :: more := by
    obtain ⟨hsize, rfl⟩ := Array.getElem?_eq_some_iff.1 hright
    rw [closersFrom, dif_pos hsize, if_pos hclosing]
    exact ⟨_, rfl⟩
  obtain ⟨openers, hopeners⟩ := hopeners
  obtain ⟨closers, hclosers⟩ := hclosers
  rw [wrappingParentheses_eq, hfirst, wrappers_eq h hij, hopeners, hclosers]
  exact ⟨_, rfl⟩

theorem mem_wrappingParentheses (h : s.Stands n i j) (hij : i < j) (hi : 0 < i) {left right : Token}
    (hleft : s.At (i - 1) left) (hopening : left.isOpeningParen = true) (hright : s.At j right)
    (hclosing : right.isClosingParen = true) :
    ⟨right, some left, 0⟩ ∈ wrappingParentheses s n := by
  obtain ⟨start, hstart⟩ := h.exists_at hij
  obtain ⟨more, heq⟩ := wrappingParentheses_eq_append h hij hi hstart hleft hopening hright hclosing
  have hne : right ≠ left := by
    rintro rfl
    simp [isOpeningParen_eq_false hclosing] at hopening
  simp [heq, Entry.offsets, hne]

/-! ## visits -/

/-- A visit that goes through places what all statements and expressions have in common. -/
theorem mem_writes_of_common {caseLevels : Int} {draft : Draft Unit}
    (hdraft : visit? s caseLevels ⟨n, ancestors⟩ = some draft)
    (hok : draft.result = .ok ()) {e : Entry} (he : e ∈ common s n) : e ∈ draft.writes := by
  obtain ⟨construct, -, rfl⟩ := Option.map_eq_some_iff.1 hdraft
  cases hresult : (ofConstruct s caseLevels ancestors n construct).result with
  | error fault =>
    rw [bind_of_error hresult] at hok
    cases hok
  | ok =>
    rw [bind_of_ok hresult]
    exact List.mem_append_right _ he

/-- What a visit places. -/
theorem visit?_drafted (g : s.root.Grammatical s.buffer)
    (hplace : ⟨n, ancestors⟩ ∈ s.root.visited []) (h : s.Stands n i j) (hij : i < j)
    {caseLevels : Int} {draft : Draft Unit}
    (hdraft : visit? s caseLevels ⟨n, ancestors⟩ = some draft) :
    ∀ e ∈ draft.writes, s.Drafted n i j e := by
  obtain ⟨construct, hrule, rfl⟩ := Option.map_eq_some_iff.1 hdraft
  have hcommon : ∀ e ∈ common s n, s.Drafted n i j e := by
    intro e he
    rcases mem_common.1 he with ⟨-, he⟩ | ⟨-, he⟩
    · obtain ⟨l, -, hil, -, -, hl, hsemicolon, hlj | ⟨rfl, hkind⟩⟩ :=
        trailingSemicolon_entry h hij he
      · exact .inside hl hil (by omega)
      · exact .field hkind hl hsemicolon
    · exact wrappingParentheses_drafted h hij he
  refine (Meets.next (Q := fun _ => True) ?_ (meets_write hcommon)).1
  by_cases hprogram : construct = .program
  · subst hprogram
    have hkind : n.kind = "program" := by
      simpa [Construct.ruledKinds] using mem_ruledKinds hrule (by simp)
    have hn := Node.isCompound_of_ofKind? hrule (by simp) (by simp)
    refine (program_reach h hn).mono (fun e he => ?_) fun _ _ => trivial
    obtain ⟨l, hil, hlj, hl⟩ := he
    exact .start hkind hl hil hlj
  · refine (ofConstruct_staysInside g hplace h hrule hprogram caseLevels).mono (fun e he => ?_)
      fun _ _ => trivial
    obtain ⟨k, l, base, hil, hlj, hkl, -, -, hl⟩ := he
    exact .inside hl (by omega) hlj

/-- A closing parenthesis that a visit places stands in the node, or wraps it. -/
theorem closing_of_drafted {e : Entry} (h : s.Drafted n i j e) (hij : i < j)
    (hclosing : e.token.isClosingParen = true) :
    (∃ l, s.At l e.token ∧ i ≤ l ∧ l < j) ∨ s.Wraps i j e := by
  cases h with
  | start _ token_at le lt => exact .inl ⟨_, token_at, le, lt⟩
  | inside token_at lt lt_stop => exact .inl ⟨_, token_at, Nat.le_of_lt lt, lt_stop⟩
  | field _ _ semicolon =>
    rw [Token.isClosingParen, Token.isPunctuator, Bool.and_eq_true, beq_iff_eq, beq_iff_eq]
      at hclosing
    simp [Token.isSemicolon, Token.isPunctuator, hclosing.2] at semicolon
  | @opening l base _ token_at _ lt openings =>
    rcases Nat.eq_or_lt_of_le (show l + 1 ≤ i from lt) with rfl | hlt
    · exact .inl ⟨_, token_at, Nat.le_refl _, hij⟩
    · obtain ⟨t, ht, hopening⟩ := openings (l + 1) (Nat.le_succ l) hlt
      obtain rfl := Option.mem_unique token_at ht
      simp [isOpeningParen_eq_false hclosing] at hopening
  | closing wraps => exact .inr wraps

end Rule

namespace Source

variable {s : Source} {n inner : Node} {ancestors : List Node} {i j : Nat}

/-! ## parenthesized expressions -/

/-- A visited parenthesized expression stands at a place. -/
theorem exists_stands_of_parenthesizes (g : s.root.Grammatical s.buffer)
    (hplace : ⟨n, ancestors⟩ ∈ s.root.visited []) (h : n.Parenthesizes s.buffer inner) :
    ∃ i j, s.Stands n i j := by
  refine (found_of_visited g hplace).exists_stands_of_kind (by simp [h.ofKind?]) ?_
  rw [show (⟨n, ancestors⟩ : Node.Placed).node = n from rfl, h.1]
  decide

/-- A pair of parentheses at two places, with a construct between them. -/
structure Pair (s : Source) (inner : Node) (i j : Nat) (left right : Token) : Prop where
  left_at : s.At i left
  opening : left.isOpeningParen = true
  stands : s.Stands inner (i + 1) j
  lt : i + 1 < j
  right_at : s.At j right
  closing : right.isClosingParen = true

/-- The parentheses of a parenthesized expression are a pair. -/
theorem Stands.exists_pair (hn : s.Stands n i j) (h : n.Parenthesizes s.buffer inner) :
    ∃ left right, s.Pair inner i (j - 1) left right := by
  have hmember := h.mem_codeChildren
  obtain ⟨hkind, -, opening, closing, hparts, hopening, hclosing⟩ := h
  have hcompound : n.IsCompound := ⟨by rw [Node.isComment, hkind]; decide, by rw [hkind]; decide⟩
  have hmem : ∀ c ∈ n.parts, c ∈ n.children := fun c hc => (List.mem_filter.1 hc).1
  have hchildren : n.children ≠ [] := fun hnil => by simp [Node.parts, hnil] at hparts
  have hrun := hn.run_parts hcompound hchildren
  rw [hparts] at hrun hmem
  obtain ⟨a, hospans, b, hispans, c, hcspans, rfl⟩ := hrun
  obtain ⟨rfl, left, hleft, hlvalue, hlkind⟩ :=
    (hn.of_spans (hmem opening (by simp)) hospans).spells hopening (by decide)
  obtain ⟨rfl, right, hright, hrvalue, hrkind⟩ :=
    (hn.of_spans (hmem closing (by simp)) hcspans).spells hclosing (by decide)
  have hinner := hn.of_spans (hmem inner (by simp)) hispans
  exact ⟨left, right, hleft, Rule.isPunctuator_of_value hlvalue hlkind (by decide), hinner,
    hn.lt_of_mem hmember hinner, hright, Rule.isPunctuator_of_value hrvalue hrkind (by decide)⟩

namespace Pair

variable {left right : Token} (h : s.Pair inner i j left right) (g : s.root.Grammatical s.buffer)
  {caseLevels : Int}

include h g

/-- A visit that places the closing parenthesis of the pair is to a node that reaches over it, or
to one that it wraps. -/
theorem places_closing {place : Node.Placed} (hvisited : place ∈ s.root.visited [])
    {draft : Draft Unit} (hdraft : Rule.visit? s caseLevels place = some draft) {e : Entry}
    (he : e ∈ draft.writes) (htoken : e.token = right) :
    ∃ x y, s.Stands place.node x y ∧ x < y ∧ (x ≤ j ∧ j < y ∨ s.Wraps x y e) := by
  obtain ⟨x, y, -, hm, hxy, -⟩ := (Rule.visit?_reaches g hvisited caseLevels hdraft).1 e he
  refine ⟨x, y, hm, hxy, ?_⟩
  refine (Rule.closing_of_drafted (Rule.visit?_drafted g hvisited hm hxy hdraft e he) hxy
    (htoken ▸ h.closing)).imp_left ?_
  rintro ⟨l, hl, hil, hlj⟩
  obtain rfl : l = j := eq_of_getElem? (htoken ▸ hl) h.right_at
  exact ⟨hil, hlj⟩

variable (hbalanced : s.Balanced)

include hbalanced

/-- In visits within the construct and behind it, the closing parenthesis is only placed flush
with the opening one. -/
theorem eq_of_places {place : Node.Placed} (hvisited : place ∈ s.root.visited [])
    (hinner : ⟨inner, n :: ancestors⟩ ∈ s.root.visited [])
    (hplace : place.node.Within inner ∨ inner.stop ≤ place.node.start) {draft : Draft Unit}
    (hdraft : Rule.visit? s caseLevels place = some draft) {e : Entry} (he : e ∈ draft.writes)
    (htoken : e.token = right) : e = ⟨right, some left, 0⟩ := by
  obtain ⟨x, y, hm, hxy, hover | hwraps⟩ := h.places_closing g hvisited hdraft he htoken
  · exfalso
    rcases hplace with hwithin | hstop
    · have := (h.stands.le_of_within hm hxy hwithin).2
      omega
    · -- a node behind the construct would have to begin with the closing parenthesis
      have := h.stands.le_of_stop_le h.lt hm hxy hstop
      obtain rfl : x = j := by omega
      have hfirst := hm.isClosingParen hxy (hbalanced _ hvisited) h.right_at
      simp [h.closing] at hfirst
  · rcases hplace with hwithin | hstop
    · obtain ⟨hix, hyj⟩ := h.stands.le_of_within hm hxy hwithin
      have hinside := hbalanced _ hinner
      rw [(h.stands.ends h.lt).tokensOf_eq] at hinside
      exact hwraps.eq_of_stretch hm hxy hix hyj hinside (hbalanced _ hvisited) h.left_at h.right_at
        htoken
    · obtain ⟨k, -, -, -, hat, -⟩ := hwraps
      have hk : y + k = j := eq_of_getElem? (htoken ▸ hat) h.right_at
      have := h.stands.le_of_stop_le h.lt hm hxy hstop
      omega

variable (caseLevels) in
/-- The closing parenthesis around an expression is flush with the opening one, in the end. -/
theorem get?_closing (hplace : ⟨n, ancestors⟩ ∈ s.root.visited [])
    (hn : n.Parenthesizes s.buffer inner)
    (hexpression : Construct.isExpressionKind inner.kind = true) :
    (s.analyze caseLevels).registry.get? right = some ⟨right, some left, 0⟩ := by
  obtain ⟨construct, hrule⟩ := Rule.exists_ofKind? (.inr hexpression)
  have hvisited : ⟨inner, n :: ancestors⟩ ∈ s.root.visited [] :=
    Node.visited_subset hplace (Node.visited_subset_of_mem hn.ofKind? ancestors
      (List.mem_filter.1 hn.mem_codeChildren).1 (Node.mem_visited_of_ofKind? hrule _))
  obtain ⟨draft, hdraft⟩ : ∃ draft, Rule.visit? s caseLevels ⟨inner, n :: ancestors⟩ = some draft :=
    ⟨_, Rule.visit?_eq hrule s caseLevels _⟩
  have hwraps : ⟨right, some left, 0⟩ ∈ draft.writes := by
    obtain ⟨-, _, hok, -⟩ := Rule.visit?_meets g hvisited caseLevels hdraft
    refine Rule.mem_writes_of_common hdraft hok (List.mem_append_right _ ?_)
    rw [if_pos hexpression]
    exact Rule.mem_wrappingParentheses h.stands h.lt (Nat.succ_pos i) h.left_at h.opening h.right_at
      h.closing
  obtain ⟨places, rest, hsplit⟩ := List.append_of_mem hvisited
  refine get?_analyze_of_split (e := ⟨right, some left, 0⟩) g hsplit hdraft ⟨[], rfl⟩ hwraps
    (fun d hd htoken => ?_) fun q hq draft' hdraft' d hd htoken => ?_
  · exact h.eq_of_places g hbalanced hvisited hvisited (.inl (.refl inner)) hdraft hd htoken
  · have hfollows := Node.visited_split g.nested hsplit q hq
    exact h.eq_of_places g hbalanced (by simp [hsplit, hq]) hvisited
      (hfollows.imp_left Node.Below.within) hdraft' hd htoken

end Pair

end Source

end ScriptIndent
