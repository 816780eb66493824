import ScriptIndent.Proofs.Offset.LineLevel
import ScriptIndent.Proofs.Rule.Lasting
import ScriptIndent.Proofs.Rule.Wrapping

/-!
# ScriptIndent.Proofs.Offset.Wrapping

How deep an expression in pairs of parentheses lies.

```
(
    (
        x        two levels below the outer parenthesis, if all three lead their lines
    )
)
```

Each pair adds one level to what it wraps (`Registry.Wraps`).  So the line of an expression is as
many levels deeper than that of the outermost parenthesis of the pairs as there are pairs
(`Source.common_wraps`).
-/

namespace ScriptIndent

/-- A token is recorded one level deeper than another. -/
def Registry.Nests (r : Registry) (inner outer : Token) : Prop :=
  r.get? inner = some ⟨inner, some outer, 1⟩

namespace Source

variable {s : Source} {n : Node} {i : Nat}

/-- What leads its line is as deep as the tokens that are recorded around it one by one, if these
stand before one another and lead their lines, too. -/
theorem Settled.exists_levelOf?_of_isChain {a : Analysis} (h : s.Settled a) (hordered : s.Ordered)
    {first : Token} {outers : List Token} (hfirst : first ∈ s.tokens)
    (hplaces : (first :: outers).IsChain fun inner outer =>
      ∃ k l, k < l ∧ s.At k outer ∧ s.At l inner)
    (hnests : (first :: outers).IsChain a.registry.Nests)
    (hleads : ∀ t ∈ first :: outers, t ∈ leaders s.lines) :
    ∃ outer, (first :: outers).getLast? = some outer ∧ ∃ level : Int,
      s.levelOf? a outer = some level ∧ s.levelOf? a first = some (level + outers.length) := by
  induction outers generalizing first with
  | nil =>
    obtain ⟨level, hlevel⟩ := h.exists_levelOf? hfirst
    exact ⟨first, rfl, level, hlevel, by simpa using hlevel⟩
  | cons outer outers ih =>
    rw [List.isChain_cons_cons] at hplaces hnests
    obtain ⟨⟨k, l, hkl, houter, hinner⟩, hplaces⟩ := hplaces
    obtain ⟨hentry, hnests⟩ := hnests
    obtain ⟨last, hlast, level, hlevel, hbase⟩ := ih (Array.mem_of_getElem? houter) hplaces hnests
      fun t ht => hleads t (List.mem_cons_of_mem first ht)
    obtain ⟨base, hbase', hfirstLevel⟩ := h.levelOf?_of_leader hordered houter hinner hkl hentry
      (hleads first List.mem_cons_self)
    obtain rfl := Option.mem_unique hbase hbase'
    refine ⟨last, by rwa [List.getLast?_cons_cons], level, hlevel, ?_⟩
    calc s.levelOf? a first = some (level + outers.length + 1) := hfirstLevel
      _ = some (level + (outer :: outers).length) := by
          rw [List.length_cons, Int.natCast_succ, Int.add_assoc]

/-- What parentheses directly before a place wrap stands behind them. -/
theorem isChain_opensBefore (hi : i ≤ s.tokens.size) {first : Token} (hfirst : s.At i first)
    (count : Nat) : (first :: (s.opensBefore i).take count).IsChain fun inner outer =>
      ∃ k l, k < l ∧ s.At k outer ∧ s.At l inner := by
  rw [← List.take_succ_cons]
  refine List.isChain_iff_getElem.2 fun m hm => ?_
  rw [List.length_take] at hm
  obtain ⟨-, hinner⟩ := at_of_cons_opensBefore (m := m) hi hfirst
    (List.getElem?_eq_getElem (by omega))
  obtain ⟨hle, houter⟩ := at_of_cons_opensBefore (m := m + 1) hi hfirst
    (List.getElem?_eq_getElem (by omega))
  refine ⟨i - (m + 1), i - m, by omega, ?_, ?_⟩
  · rwa [List.getElem_take]
  · rwa [List.getElem_take]

/-- The pairs of parentheses around an expression are recorded, and no more.  They belong together
if the expression is balanced, and each adds one level where its opening parenthesis and what it
wraps lead their lines. -/
theorem common_wraps (hordered : s.Ordered) (hkind : Construct.isExpressionKind n.kind = true)
    (htoken : ∃ t ∈ s.tokens, t.start < n.stop ∧ n.start < t.stop) :
    ∃ (i j : Nat) (first : Token), s.Covers n i j ∧ s.At i first ∧
      (∀ r : Registry,
        r.Wraps (r.record (Rule.common s n)) first (s.opensBefore i) (s.closesFrom j)) ∧
      (parenDepth 0 (s.tokensOf n) = some 0 → ∀ (m : Nat) (left right : Token),
        (s.opensBefore i)[m]? = some left → (s.closesFrom j)[m]? = some right →
          (left, right) ∈ parenPairs [] s.tokens.toList) ∧
      ∀ (a : Analysis) (levels : LineLevels) (outers : List Token),
        s.checkedLevels a = .ok levels →
        outers = (s.opensBefore i).take (s.closesFrom j).length →
        (first :: outers).IsChain a.registry.Nests →
        (∀ t ∈ first :: outers, t ∈ leaders s.lines) →
        ∃ outer, (first :: outers).getLast? = some outer ∧
          (∃ level : Int, s.levelOf? a outer = some level ∧
            s.levelOf? a first = some (level + outers.length)) ∧
          ∀ level level', (first.line, level) ∈ levels → (outer.line, level') ∈ levels →
            level = level' + outers.length := by
  obtain ⟨i, j, hcovers⟩ := hordered.exists_covers htoken
  have hends := hcovers.ends hordered
  obtain ⟨first, hfirst, -⟩ := hends.exists_first?
  have hi : i ≤ s.tokens.size := Nat.le_of_lt (Array.getElem?_eq_some_iff.1 hfirst).1
  refine ⟨i, j, first, hcovers, hfirst, fun r => ?_, fun hbalanced m left right => ?_, ?_⟩
  · rw [Rule.common_eq_of_isExpressionKind hkind]
    exact Registry.wraps_record hends hfirst r
  · rw [hends.tokensOf_eq] at hbalanced
    exact mem_parenPairs_of_around (Nat.le_of_lt hcovers.lt) hcovers.le_size hbalanced
  · rintro a levels outers hlevels rfl hnests hleads
    obtain ⟨all, hsettle, -⟩ := settled_of_checkedLevels hlevels
    obtain ⟨outer, houter, level, hlevel, hfirstLevel⟩ :=
      Settled.exists_levelOf?_of_isChain hsettle.remembers hordered (Array.mem_of_getElem? hfirst)
        (isChain_opensBefore hi hfirst _) hnests hleads
    refine ⟨outer, houter, ⟨level, hlevel, hfirstLevel⟩, fun l l' hmem hmem' => ?_⟩
    have hl := levelOf?_of_leads hlevels (hleads first List.mem_cons_self) hmem
    have hl' := levelOf?_of_leads hlevels (hleads outer (List.mem_of_getLast? houter)) hmem'
    calc l = level + ((s.opensBefore i).take (s.closesFrom j).length).length :=
          Option.mem_unique hl hfirstLevel
      _ = l' + ((s.opensBefore i).take (s.closesFrom j).length).length := by
          rw [Option.mem_unique hl' hlevel]

/-! ## a name in two pairs of parentheses -/

def wrappedName : Node := ⟨"identifier", true, false, false, [], 4, 5, []⟩

/-- The inner parentheses with the name. -/
def wrappedInner : Node :=
  ⟨"parenthesized_expression", true, false, false, [], 2, 7,
    [⟨"(", false, false, false, [], 2, 3, []⟩, wrappedName,
      ⟨")", false, false, false, [], 6, 7, []⟩]⟩

def wrappedStatement : Node :=
  ⟨"expression_statement", true, false, false, [], 0, 9,
    [⟨"parenthesized_expression", true, false, false, [], 0, 9,
      [⟨"(", false, false, false, [], 0, 1, []⟩, wrappedInner,
        ⟨")", false, false, false, [], 8, 9, []⟩]⟩]⟩

/-- A program of five lines, each with a parenthesis or the name. -/
def wrappedSource : Source :=
  .ofTree "(\n(\na\n)\n)".toUTF8.data
    ⟨"program", true, false, false, [], 0, 9, [wrappedStatement]⟩ none []

theorem wrappedSource_ordered : wrappedSource.Ordered := by
  refine (stands_root (Orderly.grammatical (.of_passes (by decide +kernel) ?_))).ordered
  have hnodes : wrappedSource.root.nodes.filter Node.isRuled = [wrappedSource.root] := rfl
  simp only [hnodes, List.forall_mem_cons]
  exact ⟨.of_shape .program (by decide) trivial, by simp⟩

private theorem lines_wrappedSource : wrappedSource.lines = groupsFrom 0 []
    (wrappedSource.tokens.toList ++ wrappedSource.comments) :=
  lines_eq_groupsFrom (by decide +kernel)

theorem checkedLevels_wrappedSource :
    wrappedSource.checkedLevels (wrappedSource.analyze 1) =
      .ok [(1, 0), (2, 1), (3, 2), (4, 1), (5, 0)] :=
  checkedLevels_eq_ok (by decide +kernel) (by decide +kernel) (by decide +kernel)
    (by decide +kernel)

/-- The parenthesis that opens on the first line. -/
def wrappedOuterParen : Token := ⟨0, 1, .punctuator, "(", 1, 0, 1, some 0⟩

/-- The parenthesis that opens on the second line. -/
def wrappedInnerParen : Token := ⟨2, 3, .punctuator, "(", 2, 0, 2, some 1⟩

/-- The name on the third line. -/
def wrappedToken : Token := ⟨4, 5, .identifier, "a", 3, 0, 3, some 2⟩

/-- The name is two levels deeper than the outer parenthesis. -/
theorem common_wraps_wrappedName :
    (∀ r : Registry, (r.record (Rule.common wrappedSource wrappedName)).get? wrappedToken =
        some ⟨wrappedToken, some wrappedInnerParen, 1⟩ ∧
      (r.record (Rule.common wrappedSource wrappedName)).get? wrappedInnerParen =
        some ⟨wrappedInnerParen, some wrappedOuterParen, 1⟩) ∧
      ∃ level, wrappedSource.levelOf? (wrappedSource.analyze 1) wrappedOuterParen = some level ∧
        wrappedSource.levelOf? (wrappedSource.analyze 1) wrappedToken = some (level + 2) := by
  obtain ⟨i, j, first, hcovers, hfirst, hwraps, -, hlevels⟩ :=
    common_wraps (n := wrappedName) wrappedSource_ordered (by decide)
      ⟨wrappedToken, by decide +kernel, by decide, by decide⟩
  have hends := hcovers.ends wrappedSource_ordered
  obtain rfl : wrappedToken = first := by
    have hname : wrappedSource.first? wrappedName = some wrappedToken := by decide +kernel
    exact Option.mem_unique hname (hends.first?_eq.trans hfirst)
  obtain rfl : 2 = i := Option.some.inj (index_of_getElem? hfirst)
  obtain rfl : 3 = j := by
    have hlast : wrappedSource.last? wrappedName = some wrappedToken := by decide +kernel
    have := Option.some.inj (index_of_getElem? (hends.last?_eq.symm.trans hlast))
    have := hcovers.lt
    omega
  have hopens : wrappedSource.opensBefore 2 = [wrappedInnerParen, wrappedOuterParen] := by
    decide +kernel
  have hcloses : wrappedSource.closesFrom 3 =
      [⟨6, 7, .punctuator, ")", 4, 0, 4, some 3⟩, ⟨8, 9, .punctuator, ")", 5, 0, 5, some 4⟩] := by
    decide +kernel
  rw [hopens, hcloses] at hwraps hlevels
  refine ⟨fun r => ⟨((hwraps r).pair (m := 0) rfl rfl rfl).1,
    ((hwraps r).pair (m := 1) rfl rfl rfl).1⟩, ?_⟩
  have hnests : [wrappedToken, wrappedInnerParen, wrappedOuterParen].IsChain
      (wrappedSource.analyze 1).registry.Nests := by
    refine .cons_cons ?_ (.cons_cons ?_ (.singleton _)) <;> rw [Registry.Nests] <;> decide +kernel
  have hleads : ∀ t ∈ [wrappedToken, wrappedInnerParen, wrappedOuterParen],
      t ∈ leaders wrappedSource.lines := by
    rw [lines_wrappedSource]
    decide +kernel
  obtain ⟨outer, houter, hlevel, -⟩ :=
    hlevels (wrappedSource.analyze 1) _ _ checkedLevels_wrappedSource rfl hnests hleads
  obtain rfl := Option.some.inj houter
  exact hlevel

end Source

end ScriptIndent
