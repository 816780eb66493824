import Mathlib.Data.List.Forall2
import ScriptIndent.Proofs.Stream.Place
import ScriptIndent.Proofs.Tree.Mirror

/-!
# ScriptIndent.Proofs.Embedding.Basic

A source inside another.

```
s'   t'₀ … │ t'₍skip₎ …… t'₍skip + n - 1₎ │ …
s          │ t₀       …… t₍n - 1₎         │
```

An *embedding* of a source into another takes each of its tokens to a token of
the same kind and value, the tokens staying next to each other and their lines in
order, and each node of a set of nodes to one of the same shape that lies in the same
way to the tokens (`Embedding`).  The other source may have more comments, in its nodes
as well (`Node.Woven`).  The embedding is *full* if the other source has no other
tokens, and *exact* if all stand on their lines too.

What a node begins and ends with corresponds (`rel_firstOfNode?`,
`rel_lastOfNode?`).
-/

namespace ScriptIndent

/-- A source inside another. -/
structure Embedding (s s' : Source) where
  /-- The number of tokens of the larger source before those of the smaller. -/
  skip : Nat
  /-- Where the lines of the tokens are found. -/
  row : Nat → Nat
  /-- Where a node of the smaller source is found in the larger one. -/
  move : Node → Node
  /-- The nodes that are found. -/
  Domain : Node → Prop
  fits : skip + s.tokens.size ≤ s'.tokens.size
  token_kind {i : Nat} {t t' : Token} : s.At i t → s'.At (skip + i) t' → t'.kind = t.kind
  token_value {i : Nat} {t t' : Token} : s.At i t → s'.At (skip + i) t' → t'.value = t.value
  token_line {i : Nat} {t t' : Token} : s.At i t → s'.At (skip + i) t' → t'.line = row t.line
  row_lt {k l : Nat} : k < l → row k < row l
  /-- One token starts behind the start of another, or before its end. -/
  token_order {i j : Nat} {t t' u u' : Token} : s.At i t → s'.At (skip + i) t' →
    s.At j u → s'.At (skip + j) u' →
    (t'.start ≤ u'.start ↔ t.start ≤ u.start) ∧ (u'.start < t'.stop ↔ u.start < t.stop)
  baseLevel {i : Nat} {t t' : Token} : s.At i t → s'.At (skip + i) t' →
    s'.baseLevel t' = s.baseLevel t
  /-- No parenthesis opens directly before the smaller source. -/
  opening {k : Nat} {t' : Token} : k + 1 = skip → s'.At k t' → t'.isOpeningParen = false
  /-- What follows the smaller source stands on a later line, and closes no
  parenthesis. -/
  closing {t' : Token} : s'.At (skip + s.tokens.size) t' →
    t'.isClosingParen = false ∧ ∀ i t, s.At i t → row t.line < t'.line
  move_kind (n : Node) : (move n).kind = n.kind
  move_isNamed (n : Node) : (move n).isNamed = n.isNamed
  move_fields (n : Node) : (move n).fields = n.fields
  move_children (n : Node) : Node.Woven (n.children.map move) (move n).children
  move_head {n : Node} : Domain n →
    (move n).children.head? = (n.children.map move).head?
  domain_child {n c : Node} : Domain n → c ∈ n.children → Domain c
  startsUpTo {n : Node} : Domain n →
    s'.startsUpTo (move n).start = skip + s.startsUpTo n.start
  startsBefore {n : Node} : Domain n →
    s'.startsBefore (move n).stop = skip + s.startsBefore n.stop
  start_lt {n : Node} {i : Nat} {t t' : Token} : Domain n → s.At i t → s'.At (skip + i) t' →
    (t'.start < (move n).stop ↔ t.start < n.stop)
  lt_stop {n : Node} {i : Nat} {t t' : Token} : Domain n → s.At i t → s'.At (skip + i) t' →
    ((move n).start < t'.stop ↔ n.start < t.stop)
  start_eq {n : Node} {i : Nat} {t t' : Token} : Domain n → s.At i t → s'.At (skip + i) t' →
    ((move n).start = t'.start ↔ n.start = t.start)
  same_iff {n c d : Node} : Domain n → c ∈ n.children → d ∈ n.children →
    (move c).same (move d) = c.same d
  /-- What comes before the smaller source stops before its nodes. -/
  before {n : Node} {k : Nat} {t' : Token} : Domain n → k < skip → s'.At k t' →
    t'.stop ≤ (move n).start
  /-- What follows the smaller source starts behind its nodes. -/
  behind {n : Node} {k : Nat} {t' : Token} : Domain n → skip + s.tokens.size ≤ k →
    s'.At k t' → (move n).stop ≤ t'.start
  lineOfNode {n : Node} : Domain n → (∀ line, row line = line) →
    s'.lineOfNode (move n) = s.lineOfNode n

namespace Embedding

variable {s s' : Source} (m : Embedding s s')

/-- The larger source has no other tokens. -/
def Full : Prop := m.skip = 0 ∧ s'.tokens.size = s.tokens.size

/-- The larger source has no other tokens, and all stand on their lines. -/
def Exact : Prop := m.Full ∧ ∀ line, m.row line = line

/-! ## lines -/

variable {m} in
theorem row_lt_iff {k l : Nat} : m.row k < m.row l ↔ k < l := by
  refine ⟨fun h => ?_, m.row_lt⟩
  rcases Nat.lt_trichotomy k l with hlt | rfl | hlt
  · exact hlt
  · omega
  · have := m.row_lt hlt
    omega

variable {m} in
theorem row_max (k l : Nat) : m.row (max k l) = max (m.row k) (m.row l) := by
  rcases Nat.lt_trichotomy k l with hlt | rfl | hlt
  · rw [Nat.max_eq_right (Nat.le_of_lt hlt), Nat.max_eq_right (Nat.le_of_lt (m.row_lt hlt))]
  · rw [Nat.max_self, Nat.max_self]
  · rw [Nat.max_eq_left (Nat.le_of_lt hlt), Nat.max_eq_left (Nat.le_of_lt (m.row_lt hlt))]

/-! ## tokens -/

/-- A token and where it is found. -/
def Pairs (t t' : Token) : Prop := ∃ i, s.At i t ∧ s'.At (m.skip + i) t'

/-- The token is found in the smaller source. -/
def owns (t' : Token) : Bool :=
  t'.index.any fun k => m.skip ≤ k && k < m.skip + s.tokens.size

variable {m}

theorem exists_pairs {i : Nat} {t : Token} (h : s.At i t) :
    ∃ t', s'.At (m.skip + i) t' ∧ m.Pairs t t' := by
  have hi := (Array.getElem?_eq_some_iff.1 h).1
  have hfits := m.fits
  have hget : s'.At (m.skip + i) s'.tokens[m.skip + i] := Array.getElem?_eq_getElem (by omega)
  exact ⟨_, hget, i, h, hget⟩

theorem owns_eq {k : Nat} {t' : Token} (h : s'.At k t') :
    m.owns t' = (m.skip ≤ k && k < m.skip + s.tokens.size) := by
  rw [owns, Source.index_of_getElem? h, Option.any_some]

namespace Pairs

variable {t t' u u' : Token}

theorem kind_eq (h : m.Pairs t t') : t'.kind = t.kind := by
  obtain ⟨i, ht, ht'⟩ := h
  exact m.token_kind ht ht'

theorem value_eq (h : m.Pairs t t') : t'.value = t.value := by
  obtain ⟨i, ht, ht'⟩ := h
  exact m.token_value ht ht'

theorem line_eq (h : m.Pairs t t') : t'.line = m.row t.line := by
  obtain ⟨i, ht, ht'⟩ := h
  exact m.token_line ht ht'

theorem line_lt (h : m.Pairs t t') (hu : m.Pairs u u') : t'.line < u'.line ↔ t.line < u.line := by
  rw [h.line_eq, hu.line_eq]
  exact row_lt_iff

theorem baseLevel_eq (h : m.Pairs t t') : s'.baseLevel t' = s.baseLevel t := by
  obtain ⟨i, ht, ht'⟩ := h
  exact m.baseLevel ht ht'

theorem isPunctuator (h : m.Pairs t t') (value : String) :
    t'.isPunctuator value = t.isPunctuator value := by
  rw [Token.isPunctuator, Token.isPunctuator, h.kind_eq, h.value_eq]

theorem owns (h : m.Pairs t t') : m.owns t' = true := by
  obtain ⟨i, ht, ht'⟩ := h
  have hi := (Array.getElem?_eq_some_iff.1 ht).1
  simp [owns_eq ht', hi]

/-- Different tokens are found at different places. -/
theorem eq_iff (h : m.Pairs t t') (hu : m.Pairs u u') : t' = u' ↔ t = u := by
  obtain ⟨i, ht, ht'⟩ := h
  obtain ⟨j, hu, hu'⟩ := hu
  constructor
  · rintro rfl
    have := Source.eq_of_getElem? ht' hu'
    obtain rfl : i = j := by omega
    exact Option.mem_unique ht hu
  · rintro rfl
    obtain rfl := Source.eq_of_getElem? ht hu
    exact Option.mem_unique ht' hu'

end Pairs

/-- A test that holds of a token where it is found if it holds of the token. -/
def Respects (m : Embedding s s') (keep : Token → Bool) : Prop :=
  ∀ t t', m.Pairs t t' → keep t' = keep t

theorem respects_isAny : m.Respects Token.isAny := fun _ _ _ => rfl

theorem respects_isPunctuator (value : String) : m.Respects (Token.isPunctuator value) :=
  fun _ _ h => h.isPunctuator value

theorem respects_isNotClosingParen : m.Respects Token.isNotClosingParen :=
  fun _ _ h => congrArg not (h.isPunctuator ")")

/-! ## the tokens of nodes -/

/-- Corresponding tokens at corresponding places. -/
theorem rel_getElem? {i : Nat} (hi : i < s.tokens.size) :
    ∃ t t', s.tokens[i]? = some t ∧ s'.tokens[m.skip + i]? = some t' ∧ m.Pairs t t' := by
  have hget : s.At i s.tokens[i] := Array.getElem?_eq_getElem hi
  obtain ⟨t', ht', hpairs⟩ := exists_pairs hget
  exact ⟨_, t', hget, ht', hpairs⟩

variable {n : Node}

/-- The token at a place, if it starts inside a node. -/
theorem rel_filter_start (hn : m.Domain n) {i : Nat} (hi : i ≤ s.tokens.size) :
    Option.Rel m.Pairs (s.tokens[i]?.filter (·.start < n.stop))
      (s'.tokens[m.skip + i]?.filter (·.start < (m.move n).stop)) := by
  rcases Nat.lt_or_eq_of_le hi with hlt | rfl
  · obtain ⟨t, t', ht, ht', hpairs⟩ := rel_getElem? (m := m) hlt
    rw [ht, ht']
    by_cases hstart : t.start < n.stop
    · simpa [Option.filter, hstart, (m.start_lt hn ht ht').2 hstart] using hpairs
    · simp [Option.filter, hstart, mt (m.start_lt hn ht ht').1 hstart]
  · rw [Array.getElem?_eq_none (Nat.le_refl _)]
    cases hget : s'.tokens[m.skip + s.tokens.size]? with
    | none => exact .none
    | some t' =>
      have := Int.not_lt.2 (m.behind hn (Nat.le_refl _) hget)
      simp [Option.filter, this]

/-- What a node begins with corresponds. -/
theorem rel_firstOfNode? (hn : m.Domain n) :
    Option.Rel m.Pairs (s.firstOfNode? n) (s'.firstOfNode? (m.move n)) := by
  have hle : s.startsUpTo n.start ≤ s.tokens.size := partitionPoint_le _ _
  rw [Source.firstOfNode?, Source.firstOfNode?, m.startsUpTo hn]
  have hfilter := rel_filter_start hn hle
  cases hi : s.startsUpTo n.start with
  | zero =>
    rw [hi] at hfilter
    have hbefore : (if m.skip + 0 = 0 then none else s'.tokens[m.skip + 0 - 1]?).filter
        ((m.move n).start < ·.stop) = none := by
      by_cases hskip : m.skip + 0 = 0
      · rw [if_pos hskip, Option.filter_none]
      · rw [if_neg hskip, Option.filter_eq_none_iff]
        intro t' ht'
        simpa using m.before hn (by omega) ht'
    simp only [hbefore, if_true, Option.filter_none]
    exact hfilter
  | succ i =>
    rw [hi] at hfilter hle
    obtain ⟨t, t', ht, ht', hpairs⟩ := rel_getElem? (m := m) (i := i) (by omega)
    simp only [Nat.add_one_ne_zero, if_false, ← Nat.add_assoc,
      Nat.add_sub_cancel, ht, ht'] at hfilter ⊢
    by_cases hstop : n.start < t.stop
    · simpa [Option.filter, hstop, (m.lt_stop hn ht ht').2 hstop] using hpairs
    · simpa [Option.filter, hstop, mt (m.lt_stop hn ht ht').1 hstop] using hfilter

/-- The search for the last token of a node stops at corresponding tokens. -/
theorem rel_scanCovered (hn : m.Domain n) {keep : Token → Bool} (hkeep : m.Respects keep)
    {i : Nat} (hi : i ≤ s.tokens.size) :
    Option.Rel m.Pairs (Source.scanCovered s.tokens n.start keep i)
      (Source.scanCovered s'.tokens (m.move n).start keep (m.skip + i)) := by
  induction i with
  | zero =>
    rw [Source.scanCovered]
    cases hskip : m.skip + 0 with
    | zero => exact .none
    | succ k =>
      rw [Source.scanCovered]
      cases hget : s'.tokens[k]? with
      | none => exact .none
      | some t' =>
        have := Int.not_lt.2 (m.before hn (by omega) hget)
        simp [this]
  | succ i ih =>
    obtain ⟨t, t', ht, ht', hpairs⟩ := rel_getElem? (m := m) (i := i) (by omega)
    rw [← Nat.add_assoc, Source.scanCovered, Source.scanCovered, ht, ht']
    by_cases hstop : n.start < t.stop
    · simp only [hstop, (m.lt_stop hn ht ht').2 hstop, if_true, hkeep t t' hpairs]
      cases keep t with
      | true => exact .some hpairs
      | false => exact ih (by omega)
    · simp [hstop, mt (m.lt_stop hn ht ht').1 hstop]

/-- What a node ends with corresponds. -/
theorem rel_lastOfNode? (hn : m.Domain n) {keep : Token → Bool} (hkeep : m.Respects keep) :
    Option.Rel m.Pairs (s.lastOfNode? n keep) (s'.lastOfNode? (m.move n) keep) := by
  rw [Source.lastOfNode?, Source.lastOfNode?, m.startsBefore hn]
  exact rel_scanCovered hn hkeep (partitionPoint_le _ _)

end Embedding

end ScriptIndent
