import ScriptIndent.Proofs.Offset.Acyclic

/-!
# ScriptIndent.Proofs.Rule.Reach

How far the visits below a node reach.

```
(   (   x   )   )          the pairs of parentheses around x
k           i   j
```

A visit to a node reaches the tokens behind the node's first, the parentheses around the
node with what they wrap, and the semicolon behind a class field (`Source.Reaches`,
`Rule.visit?_reaches`).

A node stands *apart* if no parenthesis opens directly before it and none closes
directly behind it (`Source.Apart`).  Then the parentheses around what stands in it are
its own, and what the visits to the nodes within it write stays behind its first token
(`Rule.visit?_reach`); if such a node has no rule, what is not judged because of it
stays in the node (`ignore_reach`).
-/

namespace ScriptIndent

namespace Source

variable {s : Source}

/-- A stretch of tokens with no parenthesis opening directly before it, and none closing
directly behind it. -/
structure Apart (s : Source) (a b : Nat) : Prop where
  opening {k : Nat} {t : Token} : k + 1 = a → s.At k t → t.isOpeningParen = false
  closing {t : Token} : s.At b t → t.isClosingParen = false

/-- A visit to a node that stands from place `i` to place `j` may write for the token at
place `l`. -/
inductive Reaches (s : Source) (n : Node) (i j l : Nat) : Prop
  /-- A statement of a program may begin with the first token. -/
  | start (hkind : n.kind = "program") (hil : i ≤ l) (hlj : l < j)
  | inside (hil : i < l) (hlj : l < j)
  | field (hkind : n.kind = "field_definition") (hl : l = j)
  | opening (hli : l ≤ i) (hpos : 0 < l)
      (hopening : ∀ k, l ≤ k + 1 → k < i → ∃ t, s.At k t ∧ t.isOpeningParen = true)
  | closing (hjl : j ≤ l)
      (hclosing : ∀ k, j ≤ k → k ≤ l → ∃ t, s.At k t ∧ t.isClosingParen = true)

end Source

/-- Class fields stand in class bodies. -/
def Node.FieldsInBodies (n : Node) : Prop :=
  ∀ m : Node, m.Within n → ∀ c ∈ m.children, c.kind = "field_definition" → m.kind = "class_body"

namespace Rule

open Draft

variable {s : Source} {n m : Node} {ancestors : List Node} {a b i j : Nat}

/-- Around a stretch, the entries of wrapping parentheses place opening ones, or what
they wrap, behind the outermost one, and closing ones. -/
theorem unwrap_reach {inner : Token} {pairs : List (Token × Token)} (hinner : s.At i inner)
    (hpairs : ∀ m p, pairs[m]? = some p → m < i ∧ s.At (i - 1 - m) p.1 ∧
      p.1.isOpeningParen = true ∧ s.At (j + m) p.2 ∧ p.2.isClosingParen = true)
    {e : Entry} (he : e ∈ unwrap inner pairs) :
    ∃ l, s.At l e.token ∧
      ((l ≤ i ∧ 0 < l ∧ ∀ k, l ≤ k + 1 → k < i → ∃ t, s.At k t ∧ t.isOpeningParen = true) ∨
        (j ≤ l ∧ ∀ k, j ≤ k → k ≤ l → ∃ t, s.At k t ∧ t.isClosingParen = true)) := by
  obtain ⟨m, p, hp, hcases⟩ := unwrap_places hinner hpairs he
  -- the pairs up to this one stand side by side
  have hup {k : Nat} (hk : k ≤ m) : ∃ q, pairs[k]? = some q := by
    have := (List.getElem?_eq_some_iff.1 hp).1
    exact ⟨_, List.getElem?_eq_getElem (by omega)⟩
  obtain ⟨hlt, -, -, hright, -⟩ := hpairs m p hp
  rcases hcases with ⟨ht, -⟩ | rfl
  · refine ⟨i - m, ht, .inl ⟨Nat.sub_le i m, by omega, fun k hk hki => ?_⟩⟩
    obtain ⟨q, hq⟩ := hup (show i - 1 - k ≤ m by omega)
    obtain ⟨-, hleft, hopening, -⟩ := hpairs _ q hq
    exact ⟨q.1, by rwa [show i - 1 - (i - 1 - k) = k by omega] at hleft, hopening⟩
  · refine ⟨j + m, hright, .inr ⟨Nat.le_add_right j m, fun k hjk hk => ?_⟩⟩
    obtain ⟨q, hq⟩ := hup (show k - j ≤ m by omega)
    obtain ⟨-, -, -, hright, hclosing⟩ := hpairs _ q hq
    exact ⟨q.2, by rwa [show j + (k - j) = k by omega] at hright, hclosing⟩

/-- Wrapping parentheses reach as far as they wrap. -/
theorem wrappingParentheses_reaches (h : s.Stands n i j) (hij : i < j) {e : Entry}
    (he : e ∈ wrappingParentheses s n) : ∃ l, s.At l e.token ∧ s.Reaches n i j l := by
  obtain ⟨start, hstart, hfirst⟩ := (h.ends hij).exists_first?
  rw [wrappingParentheses_eq, hfirst] at he
  obtain ⟨l, hl, hcases⟩ := unwrap_reach hstart (fun m p hp => getElem?_wrappers h hij hp) he
  rcases hcases with ⟨hle, hpos, hopening⟩ | ⟨hle, hclosing⟩
  · exact ⟨l, hl, .opening hle hpos hopening⟩
  · exact ⟨l, hl, .closing hle hclosing⟩

/-- The rules common to all statements and to all expressions. -/
theorem common_reaches (h : s.Stands n i j) (hij : i < j) {e : Entry} (he : e ∈ common s n) :
    ∃ l, s.At l e.token ∧ s.Reaches n i j l := by
  rcases mem_common.1 he with ⟨-, he⟩ | ⟨-, he⟩
  · obtain ⟨l, base, hil, -, -, hl, -, hcases⟩ := trailingSemicolon_entry h hij he
    rcases hcases with hlj | ⟨hlj, hkind⟩
    · exact ⟨l, hl, .inside hil (by omega)⟩
    · exact ⟨l, hl, .field hkind hlj⟩
  · exact wrappingParentheses_reaches h hij he

/-- The statements of a program are placed at their first tokens. -/
theorem program_reach (h : s.Stands n i j) (hn : n.IsCompound) :
    (program s n).Meets (fun e => ∃ l, i ≤ l ∧ l < j ∧ s.At l e.token) fun _ => True := by
  refine meets_each fun statement hmem => ?_
  obtain ⟨k, l, hik, hkl, hlj, hstands⟩ := h.child hn hmem
  refine (meets_first hstands hkl).bind fun token htoken => meets_write fun e he => ?_
  obtain rfl := List.mem_singleton.1 he
  exact ⟨k, hik, by omega, htoken⟩

/-- A class field stands in the body of its class, which closes behind it. -/
theorem field_reach (g : s.root.Grammatical s.buffer)
    (hvisited : ∀ p ∈ m.visited ancestors, p ∈ s.root.visited []) (hm : s.Stands m a b)
    (hkind : m.kind ≠ "field_definition") (hfields : m.FieldsInBodies) {place : Node.Placed}
    (hplace : place ∈ m.visited ancestors) (hfield : place.node.kind = "field_definition") :
    ∃ i j, s.Stands place.node i j ∧ i < j ∧ j < b := by
  rcases Node.mem_visited hplace with rfl | ⟨parent, hparent, -, hmem, -⟩
  · exact absurd hfield hkind
  have hwithin := Node.within_of_mem_visited hparent
  have hbody := hfields _ hwithin _ (Node.mem_codeChildren.1 hmem).1 hfield
  have hrule : Construct.ofKind? parent.node.kind = some .block := by
    rw [hbody]
    decide
  obtain ⟨k, l, hstands⟩ :=
    (Source.found_of_visited g (hvisited _ hparent)).exists_stands hrule (by decide)
  have hshape := Source.shape_of_visited g (hvisited _ hparent) hrule
  obtain ⟨hkl, -, -, hinner⟩ := hstands.enclosed hshape (by decide) (by decide)
  obtain ⟨i, j, -, hij, hjl, hchild⟩ := hinner _ hmem
  have := (hm.le_of_within hstands (by omega) hwithin).2
  exact ⟨i, j, hchild, hij, by omega⟩

/-- What a visit to a node of a grammatical tree writes. -/
theorem visit?_reaches (g : s.root.Grammatical s.buffer) {place : Node.Placed}
    (hplace : place ∈ s.root.visited []) (caseLevels : Int) {draft : Draft Unit}
    (hdraft : visit? s caseLevels place = some draft) :
    draft.Meets (fun e => ∃ i j l, s.Stands place.node i j ∧ i < j ∧ s.At l e.token ∧
      s.Reaches place.node i j l) fun _ => True := by
  obtain ⟨n, ancestors⟩ := place
  obtain ⟨construct, hrule, heq⟩ := Option.map_eq_some_iff.1 hdraft
  rcases (Source.found_of_visited g hplace).stands_or_isSilent (by simp [hrule]) with
    ⟨i, j, h⟩ | hsilent
  · subst heq
    have hcommon : ∀ e ∈ common s n,
        ∃ i j l, s.Stands n i j ∧ i < j ∧ s.At l e.token ∧ s.Reaches n i j l := by
      rcases Nat.lt_or_ge i j with hij | hij
      · intro e he
        obtain ⟨l, hl, hreaches⟩ := common_reaches h hij he
        exact ⟨i, j, l, h, hij, hl, hreaches⟩
      · simp [common_eq_nil (firstOfNode?_eq_none g hplace h hij)]
    refine Meets.next ?_ (meets_write hcommon)
    by_cases hprogram : construct = .program
    · subst hprogram
      have hkind : n.kind = "program" := by
        simpa [Construct.ruledKinds] using mem_ruledKinds hrule (by simp)
      have hn := Node.isCompound_of_ofKind? hrule (by simp) (by simp)
      refine (program_reach h hn).mono ?_ fun _ _ => trivial
      rintro e ⟨l, hil, hlj, hl⟩
      exact ⟨i, j, l, h, by omega, hl, .start hkind hil hlj⟩
    · refine (ofConstruct_staysInside g hplace h hrule hprogram caseLevels).mono ?_
        fun _ _ => trivial
      rintro e ⟨k, l, base, hil, hlj, -, -, -, hl⟩
      exact ⟨i, j, l, h, by omega, hl, .inside hil hlj⟩
  · rw [visit?_of_isSilent hsilent] at hdraft
    obtain rfl := Option.some.inj hdraft
    exact meets_write (by simp)

/-- What reaches from within a stretch that stands apart stays in the stretch. -/
theorem reaches_stays {l : Nat} (h : s.Reaches n i j l) (hij : i < j)
    (happart : s.Apart a b) (hai : a ≤ i) (hjb : j ≤ b)
    (hfield : n.kind = "field_definition" → j < b) :
    a ≤ l ∧ l < b ∧ (l = a → n.kind = "program") := by
  cases h with
  | start hkind hil hlj => exact ⟨by omega, by omega, fun _ => hkind⟩
  | inside hil hlj => exact ⟨by omega, by omega, by omega⟩
  | field hkind hl =>
    have := hfield hkind
    exact ⟨by omega, by omega, by omega⟩
  | opening hli hpos hopening =>
    have hal : a < l := by
      refine Nat.lt_of_not_le fun hla => ?_
      obtain ⟨t, ht, hparen⟩ := hopening (a - 1) (by omega) (by omega)
      rw [happart.opening (by omega) ht] at hparen
      cases hparen
    exact ⟨by omega, by omega, by omega⟩
  | closing hjl hclosing =>
    have hlb : l < b := by
      refine Nat.lt_of_not_le fun hbl => ?_
      obtain ⟨t, ht, hparen⟩ := hclosing b hjb hbl
      rw [happart.closing ht] at hparen
      cases hparen
    exact ⟨by omega, by omega, by omega⟩

/-- A visit to a node within a node that stands apart places tokens of that node only,
and its first token only if it visits a program. -/
theorem visit?_reach (g : s.root.Grammatical s.buffer) {place : Node.Placed}
    (hplace : place ∈ s.root.visited []) (happart : s.Apart a b) (hm : s.Stands m a b)
    (hwithin : place.node.Within m)
    (hfield : place.node.kind = "field_definition" →
      ∃ i j, s.Stands place.node i j ∧ i < j ∧ j < b) (caseLevels : Int) {draft : Draft Unit}
    (hdraft : visit? s caseLevels place = some draft) :
    draft.Meets (fun e => ∃ l, a ≤ l ∧ l < b ∧ s.At l e.token ∧
      (l = a → place.node.kind = "program")) fun _ => True := by
  refine (visit?_reaches g hplace caseLevels hdraft).mono ?_ fun _ _ => trivial
  rintro e ⟨i, j, l, h, hij, hl, hreaches⟩
  obtain ⟨hai, hjb⟩ := hm.le_of_within h hij hwithin
  obtain ⟨hal, hlb, hfirst⟩ := reaches_stays hreaches hij happart hai hjb fun hkind => by
    obtain ⟨k, l, h', hkl, hlb⟩ := hfield hkind
    obtain ⟨-, rfl⟩ := h'.unique hkl h
    exact hlb
  exact ⟨l, hal, hlb, hl, hfirst⟩

/-! ## ranges that are not judged -/

/-- What a node in the range of another begins with is a token of that one, if no token
follows directly. -/
theorem first?_reach (hm : s.Stands m a b) (hab : a < b)
    (hnext : ∀ k t, b ≤ k → s.At k t → m.stop < t.start) (hstart : m.start ≤ n.start)
    (hle : n.start ≤ n.stop) (hstop : n.stop ≤ m.stop) {t : Token} (h : s.first? n = some t) :
    ∃ k, a ≤ k ∧ k < b ∧ s.At k t := by
  have hcovers := hm.covers hab
  have hinside {k : Nat} (ht : s.At k t) (hlt : m.start < t.stop) (hle : t.start ≤ m.stop) :
      ∃ k, a ≤ k ∧ k < b ∧ s.At k t := by
    refine ⟨k, Nat.le_of_not_lt fun hka => ?_, Nat.lt_of_not_le fun hbk => ?_, ht⟩
    · have := hcovers.below hka ht
      lia
    · have := hnext k t hbk ht
      lia
  have hbelow : ∀ i u, i < s.startsUpTo n.start → s.At i u → u.start ≤ n.start :=
    fun i u hi hu => (hm.ordered.lt_startsUpTo_iff hu _).1 hi
  have habove : ∀ i u, s.startsUpTo n.start ≤ i → s.At i u → n.start < u.start := by
    intro i u hi hu
    have := mt (hm.ordered.lt_startsUpTo_iff hu n.start).2 (Nat.not_lt.2 hi)
    lia
  change s.firstOfNode? n = some t at h
  rw [Source.firstOfNode?] at h
  split at h
  · next u hu =>
    obtain rfl := Option.some.inj h
    rw [Option.filter_eq_some_iff, decide_eq_true_eq] at hu
    obtain ⟨hu, hlt⟩ := hu
    split at hu
    · cases hu
    · have := hbelow _ _ (by omega) hu
      exact hinside hu (by lia) (by lia)
  · rw [Option.filter_eq_some_iff, decide_eq_true_eq] at h
    obtain ⟨ht, hlt⟩ := h
    have := habove _ _ (Nat.le_refl _) ht
    have := hm.ordered.proper ht
    exact hinside ht (by lia) (by lia)

/-- What a node in the range of another ends with is a token of that one. -/
theorem last?_reach (hm : s.Stands m a b) (hab : a < b) (hstart : m.start ≤ n.start)
    (hstop : n.stop ≤ m.stop) {t : Token} (h : s.last? n = some t) :
    ∃ k, a ≤ k ∧ k < b ∧ s.At k t := by
  have hcovers := hm.covers hab
  obtain ⟨k, hk, ht, -, hlt⟩ := Source.scanCovered_eq_some h
  have hkstart := (hm.ordered.lt_startsBefore_iff ht n.stop).1 hk
  refine ⟨k, Nat.le_of_not_lt fun hka => ?_, Nat.lt_of_not_le fun hbk => ?_, ht⟩
  · have := hcovers.below hka ht
    lia
  · have := hcovers.above hbk ht
    lia

end Rule

/-! ## walks -/

/-- A node that stands apart from the tokens around it, and what its class fields need. -/
structure Source.StandsApart (s : Source) (n : Node) (a b : Nat) : Prop where
  stands : s.Stands n a b
  lt : a < b
  apart : s.Apart a b
  /-- No token follows directly. -/
  next {k : Nat} {t : Token} : b ≤ k → s.At k t → n.stop < t.start
  kind_ne : n.kind ≠ "field_definition"
  fields : n.FieldsInBodies

namespace Analysis

variable {s : Source} {m : Node} {ancestors : List Node} {a b : Nat}

/-- The walk over a node that stands apart keeps what entries for its tokens keep, and
ranges of its tokens that are not judged. -/
theorem visitAll_reach (g : s.root.Grammatical s.buffer) (hm : s.StandsApart m a b)
    (hvisited : ∀ p ∈ m.visited ancestors, p ∈ s.root.visited []) (caseLevels : Int)
    {P : Registry → Prop}
    (hinsert : ∀ (r : Registry) (e : Entry) (l : Nat) (n : Node), P r → n.Within m → a ≤ l →
      l < b → s.At l e.token → (l = a → n.kind = "program") → P (r.insert e))
    (hignore : ∀ (r : Registry) (i j : Nat) (t u : Token), P r → a ≤ i → j < b → s.At i t →
      s.At j u → P (r.ignore (some t) (some u)))
    {c : Analysis} (hfault : c.fault = none) (hregistry : P c.registry) :
    (c.visitAll s caseLevels (m.visited ancestors)).fault = none ∧
      P (c.visitAll s caseLevels (m.visited ancestors)).registry := by
  have hstep : ∀ place ∈ m.visited ancestors, ∀ c : Analysis, c.fault = none → P c.registry →
      (c.visit s caseLevels place).fault = none ∧ P (c.visit s caseLevels place).registry := by
    intro place hplace c hfault hregistry
    have hwithin := Node.within_of_mem_visited hplace
    unfold visit
    cases hvisit : Rule.visit? s caseLevels place with
    | some draft =>
      obtain ⟨hwrites, _, hresult, -⟩ := Rule.visit?_reach g (hvisited place hplace) hm.apart
        hm.stands hwithin (Rule.field_reach g hvisited hm.stands hm.kind_ne hm.fields hplace)
        caseLevels hvisit
      refine ⟨by simp only [hresult], ?_⟩
      dsimp only
      generalize c.registry = r at hregistry
      generalize draft.writes = es at hwrites
      induction es generalizing r with
      | nil => exact hregistry
      | cons e es ih =>
        obtain ⟨l, hal, hlb, hl, hfirst⟩ := hwrites e List.mem_cons_self
        exact ih _ (hinsert r e l place.node hregistry hwithin hal hlb hl hfirst)
          fun e he => hwrites e (List.mem_cons_of_mem _ he)
    | none =>
      refine ⟨hfault, ?_⟩
      obtain ⟨h₁, h₂, h₃⟩ := hm.stands.spans.nested.range_within hwithin
      cases hfirst : s.first? place.node with
      | none => exact hregistry
      | some t =>
        cases hlast : s.last? place.node with
        | none => exact hregistry
        | some u =>
          obtain ⟨i, hai, -, hi⟩ := Rule.first?_reach hm.stands hm.lt (fun _ _ => hm.next) h₁ h₂ h₃ hfirst
          obtain ⟨j, -, hjb, hj⟩ := Rule.last?_reach hm.stands hm.lt h₁ h₃ hlast
          exact hignore _ i j t u hregistry hai hjb hi hj
  clear hvisited
  generalize m.visited ancestors = places at hstep
  induction places generalizing c with
  | nil => exact ⟨hfault, hregistry⟩
  | cons place rest ih =>
    obtain ⟨hfault, hregistry⟩ := hstep place List.mem_cons_self c hfault hregistry
    rw [visitAll]
    simp only [hfault, Option.isSome_none, Bool.false_eq_true, if_false]
    exact ih hfault hregistry fun p hp => hstep p (List.mem_cons_of_mem place hp)

end Analysis

end ScriptIndent
