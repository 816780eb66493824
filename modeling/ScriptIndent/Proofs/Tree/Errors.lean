import ScriptIndent.Proofs.Language.Reading
import ScriptIndent.Proofs.Layout.Lines
import ScriptIndent.Proofs.Tree.Sound

/-!
# ScriptIndent.Proofs.Tree.Errors

The error at which a text is refused.

```
program            marked
  identifier         not marked: passed over, with all that is below it
  (                  marked, since there is an error below it
    number             missing: the error that is told
  ERROR              an error as well, but behind the first one
```

A parser marks the nodes at or below which there is an error (`Node.Flagged`), and the search for
the first error goes down only from marked nodes.  It finds what a search through all nodes in
document order finds (`Flagged.firstError?_eq_find?`).  So a text is refused if there is an error
anywhere in its tree, and the line told is that of the first one (`Source.read_refuses`).
-/

namespace ScriptIndent

namespace Node

variable {m n : Node}

/-- The parser could not take what stands here, or invented it. -/
def isError (n : Node) : Bool := n.kind == "ERROR" || n.isMissing

/-- Each node is marked if there is an error at it or below it, and only then. -/
def Flagged (n : Node) : Prop :=
  ∀ m : Node, m.Within n → (m.hasError = true ↔ ∃ k : Node, k.Within m ∧ k.isError = true)

theorem Flagged.of_mem {c : Node} (h : n.Flagged) (hc : c ∈ n.children) : c.Flagged :=
  fun m hm => h m (hm.trans (.of_mem hc))

/-! ## all nodes -/

theorem mem_nodes_iff : m ∈ n.nodes ↔ m.Within n := by
  refine ⟨fun h => ?_, mem_nodes⟩
  induction n using induct with
  | step n ih =>
    rw [nodes_eq, List.mem_cons, List.mem_flatMap] at h
    obtain rfl | ⟨c, hc, hm⟩ := h
    · exact .refl m
    · exact .child hc (ih c hc hm)

theorem find?_isError_eq_none_iff :
    n.nodes.find? isError = none ↔ ∀ m : Node, m.Within n → m.isError = false := by
  simp only [List.find?_eq_none, mem_nodes_iff, Bool.not_eq_true]

/-- Marks can be checked node by node. -/
theorem Flagged.of_all (h : n.all (fun m => m.hasError == m.nodes.any isError) = true) :
    n.Flagged := by
  intro m hm
  have hmark : m.hasError = m.nodes.any isError := by simpa using Node.of_all h hm
  simp only [hmark, List.any_eq_true, mem_nodes_iff]

/-! ## the search -/

theorem firstError?_eq (n : Node) : n.firstError? =
    if n.isError then some n
    else if n.hasError then firstErrorAmong? n.children
    else none := by
  obtain ⟨kind, isNamed, isMissing, hasError, fields, start, stop, children⟩ := n
  rw [firstError?]
  rfl

/-- Of some trees the first that has an error gives the first error. -/
theorem firstErrorAmong?_eq {ns : List Node}
    (h : ∀ n ∈ ns, n.firstError? = n.nodes.find? isError) :
    firstErrorAmong? ns = (ns.flatMap nodes).find? isError := by
  induction ns with
  | nil => rfl
  | cons n rest ih =>
    rw [firstErrorAmong?, h n List.mem_cons_self,
      ih fun c hc => h c (List.mem_cons_of_mem n hc), List.flatMap_cons, List.find?_append]

/-- No error is passed over in a node that is not marked. -/
theorem Flagged.firstError?_eq_find? (h : n.Flagged) : n.firstError? = n.nodes.find? isError := by
  induction n using induct with
  | step n ih =>
    have hbelow : firstErrorAmong? n.children = (n.children.flatMap nodes).find? isError :=
      firstErrorAmong?_eq fun c hc => ih c hc (h.of_mem hc)
    rw [firstError?_eq, nodes_eq, List.find?_cons]
    by_cases herror : n.isError = true
    · simp only [herror, if_true]
    by_cases hmark : n.hasError = true
    · simp only [herror, hmark, if_true, Bool.false_eq_true, if_false, hbelow]
    · have hnone : (n.children.flatMap nodes).find? isError = none := by
        refine List.find?_eq_none.2 fun m hm herror => hmark ?_
        obtain ⟨c, hc, hm⟩ := List.mem_flatMap.1 hm
        exact (h n (.refl n)).2 ⟨m, .child hc (mem_nodes_iff.1 hm), herror⟩
      simp only [herror, hmark, Bool.false_eq_true, if_false, hnone]

/-- The number of line feeds before a node. -/
def row (bytes : Bytes) (n : Node) : Nat := Bytes.feeds (bytes.toList.take n.start.toNat)

end Node

/-! ## reading -/

namespace Reading

/-- The line of a node is told behind the line feeds before it. -/
theorem lineOf_start (bytes : Bytes) {n : Node} (h : 0 ≤ n.start) :
    (Buffer.ofBytes bytes).lineOf n.start = 1 + n.row bytes := by
  rw [Buffer.lineOf_eq _ h, Nat.add_comm]
  rfl

/-- The line told is that of the first error in document order, and that of the root if there is
none. -/
theorem errorLine_eq {root : Node} (hflags : root.Flagged)
    (hstarts : ∀ m : Node, m.Within root → 0 ≤ m.start) (bytes : Bytes) :
    errorLine (.ofBytes bytes) root =
      1 + ((root.nodes.find? Node.isError).getD root).row bytes := by
  rw [errorLine, hflags.firstError?_eq_find?]
  refine lineOf_start bytes ?_
  cases hfind : root.nodes.find? Node.isError with
  | none => exact hstarts root (.refl root)
  | some n => exact hstarts n (Node.mem_nodes_iff.1 (List.mem_of_find?_eq_some hfind))

end Reading

/-- A text is refused if there is an error anywhere in the tree of its script, and the line told is
that of the first error in document order. -/
theorem Source.read_refuses {root : Node} (hflags : root.Flagged)
    (hstarts : ∀ m : Node, m.Within root → 0 ≤ m.start) :
    (∀ bytes, Reading.errorLine (.ofBytes bytes) root =
      1 + ((root.nodes.find? Node.isError).getD root).row bytes) ∧
    (root.nodes.find? Node.isError = none ↔ ∀ m : Node, m.Within root → m.isError = false) ∧
    ∀ languages parsers layout bytes path script blocks,
      Reading.Finds parsers layout (Languages.ofSource languages (path.map Path.ofString)) bytes
        script blocks root →
      (Source.read languages parsers layout bytes path).result =
        match root.nodes.find? Node.isError with
        | some n => .error (.unparsed "Syntax error" path (some (1 + n.row script : Nat)))
        | none => .ok (.ofTree script root path blocks) := by
  refine ⟨Reading.errorLine_eq hflags hstarts, Node.find?_isError_eq_none_iff, ?_⟩
  intro languages parsers layout bytes path script blocks hfinds
  have hmark : root.hasError = (root.nodes.find? Node.isError).isSome := by
    rw [Bool.eq_iff_iff, hflags root (.refl root), List.find?_isSome]
    simp only [Node.mem_nodes_iff]
  rw [Source.read, hfinds.result_eq path, Reading.ofTree, Reading.errorLine_eq hflags hstarts,
    hmark]
  cases root.nodes.find? Node.isError <;> rfl

/-! ## a broken text -/

/-- The text `a`, `(`, `;` on three lines. -/
def broken : Bytes := #[0x61, 0x0A, 0x28, 0x0A, 0x3B]

/-- A tree of the text: a number is missing below the parenthesis, and there is an error in an
error behind it. -/
def brokenTree : Node :=
  ⟨"program", true, false, true, [], 0, 5,
    [⟨"expression_statement", true, false, false, [], 0, 1,
      [⟨"identifier", true, false, false, [], 0, 1, []⟩]⟩,
    ⟨"(", false, false, true, [], 2, 4, [⟨"number", true, true, true, [], 4, 4, []⟩]⟩,
    ⟨"ERROR", true, false, true, [], 4, 5, [⟨"ERROR", true, false, true, [], 4, 5, []⟩]⟩]⟩

/-- The text is refused for the number that is missing. -/
theorem read_brokenTree :
    brokenTree.Flagged ∧ (∀ m : Node, m.Within brokenTree → 0 ≤ m.start) ∧
    (Source.read .builtin (fun _ _ => some brokenTree) {} broken (some "a.js")).result =
      .error (.unparsed "Syntax error" (some "a.js") (some 3)) := by
  have hflags : brokenTree.Flagged := .of_all (by decide +kernel)
  have hstarts (m : Node) (hm : m.Within brokenTree) : 0 ≤ m.start :=
    of_decide_eq_true (Node.of_all (p := fun m => decide (0 ≤ m.start)) (by decide +kernel) hm)
  have hfinds : Reading.Finds (fun _ _ => some brokenTree) {}
      (Languages.builtin.ofSource ((some "a.js").map .ofString)) broken broken [] brokenTree :=
    .of_script (by decide +kernel) rfl
  exact ⟨hflags, hstarts, ((Source.read_refuses hflags hstarts).2.2 _ _ _ _ _ _ _ hfinds).trans rfl⟩

end ScriptIndent
