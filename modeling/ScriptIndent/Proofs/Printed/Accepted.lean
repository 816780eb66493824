import ScriptIndent.Check.Result
import ScriptIndent.Proofs.Language.Reading
import ScriptIndent.Proofs.Offset.LineByLine
import ScriptIndent.Proofs.Printed.Levels

/-!
# ScriptIndent.Proofs.Printed.Accepted

A program in canonical layout is accepted.

The statements of a program start at level 0, and their lines hang below
(`Program.hanging_lines`).  Every construct in a program has a rule, so no line is left out.
What a check expects of each printed line is therefore its depth
(`Program.expectedLevels_eq`), however deep clauses are asked to lie.
-/

namespace ScriptIndent

open Bytes Sketch

/-! ## ranges that are left out -/

/-- If all nodes have rules, no range is left out. -/
theorem Analysis.ignored_visitAll {s : Source} {caseLevels : Int} {places : List Node.Placed}
    (h : ∀ place ∈ places, (Construct.ofKind? place.node.kind).isSome) (a : Analysis) :
    (a.visitAll s caseLevels places).registry.ignored = a.registry.ignored := by
  induction places generalizing a with
  | nil => rfl
  | cons place rest ih =>
    obtain ⟨construct, hrule⟩ := Option.isSome_iff_exists.1 (h place List.mem_cons_self)
    have hstep : (a.visit s caseLevels place).registry.ignored = a.registry.ignored := by
      simp only [visit, Rule.visit?, hrule, Option.map_some]
      exact Registry.ignored_record _ _
    simp only [visitAll]
    split
    · exact hstep
    · rw [ih (fun p hp => h p (List.mem_cons_of_mem place hp)), hstep]

namespace Program

variable (p : Program) (path : Option String)

/-! ## the constructs of a program -/

theorem ofKind?_tree : Construct.ofKind? p.tree.kind = some .program :=
  show Construct.ofKind? "program" = _ by decide

/-- A program is visited before what is in it. -/
theorem visited_source : (p.source path).root.visited [] =
    ⟨p.tree, []⟩ :: Node.visitedAmong [p.tree] (placeAll 0 p.sketches) := by
  have hcode : p.tree.isComment = false := show Node.isCommentKind "program" = _ by decide
  rw [show (p.source path).root = p.tree from rfl, Node.visited_eq, hcode, ofKind?_tree]
  rfl

/-- The visited nodes below the root of a program are those of frames and identifiers. -/
theorem kind_of_visited {place : Node.Placed}
    (h : place ∈ Node.visitedAmong [p.tree] (placeAll 0 p.sketches)) :
    IsFrame place.node.kind ∨ place.node.kind = "identifier" := by
  rw [Node.visitedAmong_eq] at h
  obtain ⟨c, hc, hplace⟩ := List.mem_flatMap.1 h
  obtain ⟨hc, hnamed⟩ := List.mem_filter.1 hc
  obtain ⟨o, k, hnode⟩ := exists_of_within_all 0 p.sketches hc (Node.within_of_mem_visited hplace)
  have hconstruct : place.node.isNamed = true := by
    rcases Node.mem_visited hplace with rfl | ⟨parent, -, -, hmem, -⟩
    · exact hnamed
    · exact (Node.mem_codeChildren.1 hmem).2.1
  rw [hnode, isNamed_place] at hconstruct
  rw [hnode, kind_place]
  exact k.kind_of_isNamed hconstruct

theorem hasNoFields_source : (p.source path).HasNoFields := by
  intro place hplace
  rw [visited_source, List.tail_cons] at hplace
  rcases p.kind_of_visited hplace with h | h
  · exact ⟨fun heq => h.2.2 (by simp [heq]), fun heq => h.2.2 (by simp [heq])⟩
  · rw [h]
    decide

/-- No range of a program is left out. -/
theorem ignored_analyze (caseLevels : Int) :
    ((p.source path).analyze caseLevels).registry.ignored = [] := by
  refine Analysis.ignored_visitAll (fun place hplace => ?_) {}
  rw [visited_source] at hplace
  rcases List.mem_cons.1 hplace with rfl | hplace
  · rw [ofKind?_tree]
    rfl
  · rcases p.kind_of_visited hplace with h | h
    · exact h.1
    · rw [h]
      decide

/-! ## the lines of a program -/

theorem isNamed_sketches : ∀ k ∈ p.sketches, k.isNamed = true := by
  rw [sketches]
  cases p.body with
  | nil => simp
  | cons margin first rest =>
    exact List.forall_mem_cons.2
      ⟨first.isNamed_sketch [] margin.blanks, rest.isNamed_sketches []⟩

/-- The statements of a program lie in its text. -/
theorem allLie_sketches : AllLie (p.source path) p.sketches 0 0 := by
  by_cases hnil : p.sketches = []
  · rw [hnil]
    trivial
  have hstands := Source.stands_root (p.grammatical_source path)
  have hchildren : (p.source path).root.children = placeAll 0 p.sketches := rfl
  have hcompound : (p.source path).root.IsCompound :=
    ⟨show Node.isCommentKind "program" = _ by decide, show Node.isLiteralKind "program" = _ by decide⟩
  have hrun := hstands.spans.run hcompound (by
    obtain ⟨k, ks, hks⟩ := List.exists_cons_of_ne_nil hnil
    simp [hchildren, hks, placeAll_cons])
  refine allLie_of_run hrun (fun c hc a b hspans => hstands.of_spans hc hspans) fun c hc hnamed => ?_
  exact ⟨_, Node.visited_subset_of_mem p.ofKind?_tree [] (List.mem_filter.2 ⟨hc, hnamed⟩)⟩

/-- The statements of a program start at the level of a script. -/
theorem allHang_sketches (caseLevels : Int) :
    (p.source path).AllHang caseLevels (placeAll 0 p.sketches) [] 0 := by
  intro c hc a b t hstands hcalm ht
  have hsize := (p.calmFrom_lines path).ends
  rw [Nat.zero_add, ← size_source] at hsize
  have hmem : c ∈ (p.source path).root.codeChildren := by
    rwa [Node.codeChildren, Node.namedChildren, show (p.source path).root.children =
      placeAll 0 p.sketches from rfl, filter_placeAll p.isNamed_sketches]
  exact .start (Source.get?_of_statement (p.grammatical_source path) (p.hasNoFields_source path) rfl
    hsize hmem hstands hcalm ht) rfl

/-- The lines of a program hang from the level of a script. -/
theorem hanging_lines (caseLevels : Int) :
    ((p.source path).analyze caseLevels).registry.Hanging [] ((p.source path).rows 0 p.lines)
      (p.body.depths caseLevels 0) := by
  have g := p.grammatical_source path
  have hkinds := p.hasNoFields_source path
  have hcalm := p.calmFrom_lines path
  have hlie := p.allLie_sketches path
  have hangs := p.allHang_sketches path caseLevels
  rw [lines] at hcalm ⊢
  rw [sketches] at hlie hangs
  cases hbody : p.body with
  | nil =>
    simp only [Body.depths]
    exact .nil
  | cons margin first rest =>
    simp only [hbody] at hcalm hlie hangs
    simp only [Body.depths]
    exact (first.hung g hkinds [] margin.blanks).cons (first.isNamed_sketch [] margin.blanks)
      (first.marks_sketch [] margin.blanks) (rest.allHung g hkinds []) 0 0 [] 0 hlie hcalm hangs

/-- The lines of a program hold its tokens. -/
theorem flatten_rows : ((p.source path).rows 0 p.lines).flatten.Perm (p.source path).tokens.toList := by
  rw [← lines_source, Source.lines, Source.merged, comments_source, List.append_nil]
  have hflatten := Source.flatten_groupsFrom 0 [] ((p.source path).tokens.toList.mergeSort
    fun a b => decide (a.start ≤ b.start))
  rw [hflatten, List.reverse_nil, List.nil_append]
  exact List.mergeSort_perm _ _

variable {p path}

/-- The lines of a program are numbered in turn. -/
theorem leveled_rows {above below : List (List Mark)} (hlines : p.lines = above ++ below)
    (levels : List Int) :
    Registry.leveled ((p.source path).rows above.flatten.length below) levels =
      (List.range' (above.length + 1) below.length).zip levels := by
  induction below generalizing above levels with
  | nil => rfl
  | cons l below ih =>
    cases levels with
    | nil => simp [Registry.leveled]
    | cons level levels =>
      have hlines' : p.lines = (above ++ [l]) ++ below := by simpa using hlines
      have hbelow := ih hlines' levels
      rw [List.flatten_append, List.length_append, List.flatten_singleton, List.length_append,
        List.length_singleton] at hbelow
      obtain ⟨t, ht⟩ := Option.isSome_iff_exists.1 (List.isSome_head?.2 (row_ne_nil path hlines))
      rw [Source.rows, Registry.leveled, List.zip_cons_cons, List.filterMap_cons, ht,
        Option.map_some, (line_of_mem_row hlines (List.mem_of_head? ht)).1, List.length_cons,
        List.range'_succ, List.zip_cons_cons]
      exact congrArg _ hbelow

variable (p)

/-- The levels of a program are its depths. -/
theorem checkedLevels_source (caseLevels : Int) :
    (p.source path).checkedLevels ((p.source path).analyze caseLevels) =
      .ok ((List.range' 1 p.lines.length).zip (p.body.depths caseLevels 0)) := by
  have hnodup : ((p.source path).rows 0 p.lines).flatten.Nodup :=
    (p.flatten_rows path).nodup_iff.2 (p.source path).nodup_tokens
  have hcode : ∀ t ∈ ((p.source path).rows 0 p.lines).flatten, t.isComment = false := fun t ht =>
    Source.isComment_of_mem_tokens (Array.mem_toList_iff.1 ((p.flatten_rows path).mem_iff.1 ht))
  have hresult := (p.hanging_lines path caseLevels).result_settle (k := [])
    (p.ignored_analyze path caseLevels) hcode hnodup (fun _ _ => rfl) (by simp)
  have hlines : p.lines = [] ++ p.lines := rfl
  rw [show Registry.leveled ((p.source path).rows 0 p.lines) (p.body.depths caseLevels 0) = _ from
    leveled_rows hlines _] at hresult
  have hblocks : (p.source path).blocks = [] := rfl
  simp only [Source.checkedLevels, (Source.analyze_pointsBack (p.grammatical_source path) _).1,
    lines_source, hresult, Source.withoutBlockStarts, hblocks]
  simp

/-- A program is read as it stands in a file of its language. -/
theorem result_read {parsers : Parsers} {layout : Host.Layout} {path : String}
    (hpath : Languages.ending (.ofString path) = ".js")
    (hparsed : parsers "javascript" p.text = some p.tree) :
    (Source.read .builtin parsers layout p.text (some path)).result = .ok (p.source (some path)) := by
  rw [Source.read, (Reading.Finds.of_script hpath hparsed).result_eq (some path)]
  rfl

/-- Each line of a program is expected at its depth. -/
theorem expectedLevels_eq (parsers : Parsers) (style : Style) (path : String)
    (hpath : Languages.ending (.ofString path) = ".js")
    (hparsed : parsers "javascript" p.text = some p.tree) :
    (p.body.depths style.caseLevels 0).length = p.lines.length ∧
      (expectedLevels .builtin parsers style p.text (some path)).result =
        .ok ((List.range' 1 p.lines.length).zip (p.body.depths style.caseLevels 0)) := by
  refine ⟨?_, ?_⟩
  · rw [lines]
    cases p.body with
    | nil => simp [Body.depths]
    | cons margin first rest =>
      simp [Body.depths, first.length_depths _ _ margin.blanks, rest.length_depths]
  · simp only [expectedLevels, Judged.of, p.result_read hpath hparsed, checkedLevels_source]
    rfl

/-- A margin of spaces. -/
def spaces (n : Nat) : Margin where
  blanks := .replicate n space
  isIndent b hb := by
    rw [List.eq_of_mem_replicate hb]
    decide

/-- The identifier `x`. -/
def x : Name := ⟨[0x78], by decide, by decide⟩

/-- The program

```
if (x) {
  x;
} else {
  switch (x) {
    case x:
      x;
  }
}
```
-/
def branching : Program where
  body :=
    .cons (spaces 0)
      (.alternative x (.cons (spaces 2) (.use x) .nil) (spaces 0)
        (.cons (spaces 2)
          (.switch x (.cons (spaces 4) x (.cons (spaces 6) (.use x) .nil) .nil) (spaces 2)) .nil)
        (spaces 0)) .nil
  endsWithFeed := true

theorem expectedLevels_branching :
    Languages.ending (.ofString "a.js") = ".js" ∧
      (expectedLevels .builtin (fun _ _ => some branching.tree) {} branching.text
        (some "a.js")).result =
          .ok [(1, 0), (2, 1), (3, 0), (4, 1), (5, 2), (6, 3), (7, 1), (8, 0)] := by
  have hpath : Languages.ending (.ofString "a.js") = ".js" := by decide +kernel
  exact ⟨hpath, (expectedLevels_eq branching (fun _ _ => some branching.tree) {} "a.js" hpath
    rfl).2.trans rfl⟩

end Program

end ScriptIndent
