import ScriptIndent.Proofs.Embedding.Lines
import ScriptIndent.Proofs.Remark.Text

/-!
# ScriptIndent.Proofs.Remark.Tree

Sources with comments put in.

*Remarks* say which text is put into a source and which comments are put among the
children of its nodes (`Remarks`).  A node starts where its start is found, and ends where
its last byte is found, or behind the last comment that is put into it
(`Remarks.node`).

If comments are put only into constructs that are cut into their children, not before the
first child of a node below the root, and so that the tree stays nested
(`Remarks.Suits`), the pieces of the source are found as they are, with comments of one
line among them (`Remarks.Suits.strewn_pieces`), and what stands behind a node stays
behind it (`Remarks.Suits.stop_le_start`).
-/

namespace ScriptIndent

/-- Comments that are put into a source. -/
structure Remarks where
  /-- The text that is put in. -/
  texts : Inserts
  /-- The comments that are put before each of the children of a node, and behind the
  last one. -/
  comments : Node → Nat → List Node
  /-- The range that the root takes up. -/
  start : Offset
  stop : Offset
  isComment {n : Node} {i : Nat} {c : Node} : c ∈ comments n i → c.isComment = true
  isNamed {n : Node} {i : Nat} {c : Node} : c ∈ comments n i → c.isNamed = true
  fields {n : Node} {i : Nat} {c : Node} : c ∈ comments n i → c.fields = []

namespace Remarks

/-- Put nodes before each node of a list, counted from `i`, and behind the last one. -/
def weave (before : Nat → List Node) : Nat → List Node → List Node
  | i, [] => before i
  | i, n :: rest => before i ++ n :: weave before (i + 1) rest

/-- The furthest that an offset and the ends of some nodes reach. -/
def reach (o : Offset) (ns : List Node) : Offset := ns.foldr (fun n o => max n.stop o) o

/-- Where a stretch ends: behind its last byte. -/
def stopOf (k : Inserts) (start stop : Offset) : Offset :=
  if start = stop then k.offset start else k.offset (stop - 1) + 1

variable (r : Remarks)

mutual

/-- A tree with comments put in. -/
def node : Node → Node
  | n@⟨kind, isNamed, isMissing, hasError, fields, start, stop, children⟩ =>
    let inner := weave (r.comments n) 0 (nodes children)
    ⟨kind, isNamed, isMissing, hasError, fields, r.texts.offset start,
      if Node.isCommentKind kind || Node.isLiteralKind kind then stopOf r.texts start stop
      else reach (stopOf r.texts start stop) inner,
      inner⟩

/-- Trees with comments put in. -/
def nodes : List Node → List Node
  | [] => []
  | n :: rest => node n :: nodes rest

end

/-- The tree of a source with comments put in. -/
def root (n : Node) : Node := { r.node n with start := r.start, stop := r.stop }

/-- A block of script, with what is put in at its ends. -/
def block (k : ScriptBlock) : ScriptBlock :=
  ⟨r.texts.offset (k.start - 1) + 1, r.texts.offset k.stop, k.baseLevel⟩

/-- A source with comments put in. -/
def source (s : Source) : Source :=
  .ofTree (r.texts.text s.buffer.bytes.toList).toArray (r.root s.root) s.path
    (s.blocks.map r.block)

/-! ## children -/

theorem strewn_weave {P : Node → Prop} {before : Nat → List Node}
    (h : ∀ i, ∀ c ∈ before i, P c) (i : Nat) (ns : List Node) :
    Strewn P ns (weave before i ns) := by
  induction ns generalizing i with
  | nil => exact .all (h i)
  | cons n rest ih => exact (Strewn.all (h i)).append (.keep n (ih (i + 1)))

theorem weave_of_nil {before : Nat → List Node} (h : ∀ i, before i = []) (i : Nat)
    (ns : List Node) : weave before i ns = ns := by
  induction ns generalizing i with
  | nil => exact h i
  | cons n rest ih => rw [weave, h i, ih, List.nil_append]

theorem head?_weave {before : Nat → List Node} {i : Nat} (h : before i = []) (ns : List Node) :
    (weave before i ns).head? = ns.head? := by
  cases ns with
  | nil => rw [weave, h]
  | cons n rest => rw [weave, h]; rfl

theorem le_reach (o : Offset) (ns : List Node) : o ≤ reach o ns := by
  induction ns with
  | nil => exact Int.le_refl o
  | cons n rest ih => exact Int.le_trans ih (Int.le_max_right _ _)

private theorem reach_le {o p : Offset} {ns : List Node} (ho : o ≤ p) (h : ∀ n ∈ ns, n.stop ≤ p) :
    reach o ns ≤ p := by
  induction ns with
  | nil => exact ho
  | cons n rest ih =>
    exact Int.max_le.2 ⟨h n List.mem_cons_self, ih fun m hm => h m (List.mem_cons_of_mem n hm)⟩

theorem nodes_eq (ns : List Node) : r.nodes ns = ns.map r.node := by
  induction ns with
  | nil => rfl
  | cons n rest ih => rw [nodes, ih, List.map_cons]

@[simp] theorem node_kind (n : Node) : (r.node n).kind = n.kind := by
  cases n
  rfl

@[simp] theorem node_isNamed (n : Node) : (r.node n).isNamed = n.isNamed := by
  cases n
  rfl

@[simp] theorem node_fields (n : Node) : (r.node n).fields = n.fields := by
  cases n
  rfl

@[simp] theorem node_start (n : Node) : (r.node n).start = r.texts.offset n.start := by
  cases n
  rfl

theorem node_children (n : Node) :
    (r.node n).children = weave (r.comments n) 0 (n.children.map r.node) := by
  rw [← r.nodes_eq]
  cases n
  rfl

/-- Comments and literals end where their last bytes are found, and other nodes where their
last bytes or their last children are. -/
theorem node_stop (n : Node) :
    (r.node n).stop =
      if n.isComment || Node.isLiteralKind n.kind then stopOf r.texts n.start n.stop
      else reach (stopOf r.texts n.start n.stop) (r.node n).children := by
  cases n
  rfl

@[simp] theorem node_isComment (n : Node) : (r.node n).isComment = n.isComment := by
  rw [Node.isComment, Node.isComment, node_kind]

theorem le_node_stop (n : Node) : stopOf r.texts n.start n.stop ≤ (r.node n).stop := by
  rw [node_stop]
  split
  · exact Int.le_refl _
  · exact le_reach _ _

/-- What is asked of the comments of a node is asked of what is put among its
children. -/
theorem strewn_children {P : Node → Prop} {n : Node} (h : ∀ i, ∀ c ∈ r.comments n i, P c) :
    Strewn P (n.children.map r.node) (r.node n).children := by
  rw [node_children]
  exact strewn_weave h 0 _

/-- Only comments are put in. -/
theorem woven_children (n : Node) : Node.Woven (n.children.map r.node) (r.node n).children := by
  have hstrewn := r.strewn_children (n := n)
    (P := fun c => c.isComment = true ∧ c.isNamed = true ∧ c.fields = [])
    fun i c hc => ⟨r.isComment hc, r.isNamed hc, r.fields hc⟩
  generalize n.children.map r.node = ns, (r.node n).children = ns' at hstrewn
  induction hstrewn with
  | nil => exact .nil
  | keep m _ ih => exact .keep m ih
  | more hc _ ih => exact .comment hc.1 hc.2.1 hc.2.2 ih

theorem node_mem {c n : Node} (h : c ∈ n.children) : r.node c ∈ (r.node n).children :=
  (r.strewn_children (P := fun _ => True) fun _ _ _ => trivial).mem (List.mem_map_of_mem h)

theorem node_within {m n : Node} (h : m.Within n) : (r.node m).Within (r.node n) := by
  induction h with
  | refl => exact .refl _
  | child mem _ ih => exact .child (r.node_mem mem) ih

theorem node_below_root {m n : Node} (h : m.Below n) : (r.node m).Below (r.root n) := by
  obtain ⟨c, hc, hm⟩ := h
  exact ⟨r.node c, r.node_mem hc, r.node_within hm⟩

/-! ## suitable comments -/

/-- Comments of one line are put into a source so that it stays a source. -/
structure Suits (r : Remarks) (s : Source) : Prop where
  inText {p : Piece} : p ∈ s.pieces → 0 ≤ p.start ∧ p.stop ≤ s.buffer.bytes.size
  /-- Nothing is put into a token or a comment. -/
  apart {p : Piece} {i : Nat} : p ∈ s.pieces → p.start < i → i < p.stop → r.texts i = []
  /-- No line end is put between tokens of one line. -/
  level {p q : Piece} : p ∈ s.pieces → q ∈ s.pieces → p.stop ≤ q.start →
    s.buffer.lineOf (p.stop - 1) = s.buffer.lineOf q.start →
    r.texts.lines (p.stop - 1) = r.texts.lines q.start
  /-- Comments stand in constructs that are cut into their children, behind the first
  one. -/
  host {n : Node} {i : Nat} : n.Below s.root → r.comments n i ≠ [] →
    n.isNamed = true ∧ n.IsCut ∧ 0 < i
  /-- Comments stand on one line. -/
  line {n : Node} {i : Nat} {c : Node} : n.Within s.root → c ∈ r.comments n i →
    (r.source s).buffer.lineOf c.start = (r.source s).buffer.lineOf (c.stop - 1)
  nested : (r.root s.root).Nested
  bracketed : (r.root s.root).Bracketed
  /-- Programs of nothing but blanks are empty. -/
  blank : s.root.children = [] → s.root.start = s.root.stop
  blank' : (r.root s.root).children = [] → r.start = r.stop

namespace Suits

variable {r} {s : Source} (h : r.Suits s)

include h

theorem comments_of_not_isCut {n : Node} (hn : n.Below s.root) (hcut : ¬n.IsCut) (i : Nat) :
    r.comments n i = [] := by
  by_contra hne
  exact hcut (h.host hn hne).2.1

theorem children_of_not_isCut {n : Node} (hn : n.Below s.root) (hcut : ¬n.IsCut) :
    (r.node n).children = n.children.map r.node := by
  rw [node_children, weave_of_nil (h.comments_of_not_isCut hn hcut)]

/-- Comments, literals and leaves end where their last bytes are found. -/
theorem stop_of_not_isCut {n : Node} (hn : n.Below s.root) (hcut : ¬n.IsCut) :
    (r.node n).stop = stopOf r.texts n.start n.stop := by
  rw [node_stop]
  split
  · rfl
  · next hcompound =>
    rw [Bool.or_eq_true, not_or, Bool.not_eq_true, Bool.not_eq_true] at hcompound
    have hchildren : n.children = [] := by
      by_contra hne
      exact hcut ⟨hcompound, hne⟩
    rw [h.children_of_not_isCut hn hcut, hchildren]
    rfl

theorem nested_node {n : Node} (hn : n.Below s.root) : (r.node n).Nested :=
  h.nested.of_within (r.node_below_root hn).within

theorem inOrder_children {n : Node} (hn : n.Within s.root) :
    ∃ lo hi, Node.InOrder lo hi (r.node n).children := by
  rcases hn.eq_or_below with rfl | hbelow
  · exact ⟨_, _, h.nested.inOrder⟩
  · exact ⟨_, _, (h.nested_node hbelow).inOrder⟩

section Grammatical

variable (g : s.root.Grammatical s.buffer)

include g

theorem texts : r.texts.Suits s.buffer s.pieces where
  ordered := (Node.pieces_between g.nested g.bracketed).pairwise
  proper hp := ⟨(h.inText hp).1, ((Node.pieces_between g.nested g.bracketed).mem hp).2.1,
    (h.inText hp).2⟩
  apart := h.apart
  level := h.level

/-- Where the offsets of the source are found. -/
abbrev shift : Shift s.buffer (r.source s).buffer := Inserts.shift (h.texts g)

omit h in
/-- A construct that holds comments is not empty. -/
theorem lt_of_named {n : Node} (hn : n.Below s.root) (hnamed : n.isNamed = true) (hcut : n.IsCut) :
    n.start < n.stop := by
  have hle := (g.nested.of_within hn.within).le
  rcases Int.lt_or_eq_of_le hle with hlt | heq
  · exact hlt
  · have htoken := g.hasToken n hn ⟨hnamed, hcut.1.1⟩
    rw [Node.HasToken, Node.pieces_eq, if_pos heq] at htoken
    exact absurd htoken (Nat.lt_irrefl 0)

/-- An empty node stays empty. -/
theorem stop_of_empty {n : Node} (hn : n.Below s.root) (hempty : n.start = n.stop) :
    (r.node n).stop = r.texts.offset n.start := by
  induction n using Node.induct with
  | step n ih =>
    have hstop : stopOf r.texts n.start n.stop = r.texts.offset n.start := if_pos hempty
    have hnone : ∀ i, r.comments n i = [] := by
      intro i
      by_contra hne
      obtain ⟨hnamed, hcut, -⟩ := h.host hn hne
      have := lt_of_named g hn hnamed hcut
      lia
    have hnested := g.nested.of_within hn.within
    rw [node_stop]
    split
    · exact hstop
    · rw [node_children, weave_of_nil hnone, hstop]
      refine Int.le_antisymm (reach_le (Int.le_refl _) fun c' hc' => ?_) (le_reach _ _)
      obtain ⟨c, hc, rfl⟩ := List.mem_map.1 hc'
      obtain ⟨hlo, hle, hhi⟩ := hnested.inOrder.mem hc
      have hstart : c.start = n.start := by lia
      exact Int.le_of_eq (by rw [ih c hc (hn.below_of_mem hc) (by lia), hstart])

theorem empty_iff {n : Node} (hn : n.Below s.root) :
    (r.node n).start = (r.node n).stop ↔ n.start = n.stop := by
  have hle := (g.nested.of_within hn.within).le
  constructor
  · intro hempty
    by_contra hne
    have hlt : n.start < n.stop := by lia
    have hreach := r.le_node_stop n
    have hmono : r.texts.offset n.start ≤ r.texts.offset (n.stop - 1) := by
      rcases Int.lt_or_eq_of_le (show n.start ≤ n.stop - 1 by lia) with hlt | heq
      · exact Int.le_of_lt (r.texts.offset_lt hlt)
      · exact Int.le_of_eq (by rw [heq])
    rw [stopOf, if_neg hne] at hreach
    rw [node_start] at hempty
    lia
  · intro hempty
    rw [node_start, h.stop_of_empty g hn hempty]

/-- A substitution ends with its bracket. -/
theorem stop_of_substitution {n : Node} (hn : n.Below s.root)
    (hkind : n.kind = "template_substitution") :
    (r.node n).stop = stopOf r.texts n.start n.stop := by
  obtain ⟨opening, inner, closing, hcs, -, hostart, hostop, hck, hcstart, -⟩ :=
    g.bracketed n hn.within hkind
  obtain ⟨opening', inner', closing', hcs', -, -, -, hck', hcstart', -⟩ :=
    h.bracketed (r.node n) (r.node_below_root hn).within (by rw [node_kind, hkind])
  have hlast : (r.node n).children.getLast? = some closing' := by
    rw [hcs', ← List.cons_append, List.getLast?_concat]
  have hother : ¬closing'.isComment = true := by
    rw [Node.isComment, hck']
    decide
  have hclosing := (r.strewn_children (n := n) (P := fun c => c.isComment = true)
    fun i c hc => r.isComment hc).getLast?_eq hlast hother
  rw [hcs, List.map_cons, List.map_append, ← List.cons_append, List.map_singleton,
    List.getLast?_concat, Option.some.injEq] at hclosing
  have hle := (Node.IsBracketed.inOrder (g.nested.of_within hn.within) hcs hostop hcstart).le
  rw [← hclosing, node_start, hcstart] at hcstart'
  rw [stopOf, if_neg (by lia)]
  lia

/-- Nodes below the root are found in the other text. -/
theorem moves {n : Node} (hn : n.Below s.root) :
    (h.shift g).Moves
      (fun p => p.isComment = true ∧
        (r.source s).buffer.lineOf p.start = (r.source s).buffer.lineOf (p.stop - 1))
      r.node n where
  kind := r.node_kind n
  isNamed := r.node_isNamed n
  start := r.node_start n
  empty := h.empty_iff g hn
  whole hcut := ⟨h.stop_of_not_isCut hn hcut, h.children_of_not_isCut hn hcut⟩
  substitution := h.stop_of_substitution g hn
  children := r.strewn_children fun i c hc p hp => by
    rw [Node.pieces_eq] at hp
    split at hp
    · cases hp
    · rw [if_pos (r.isComment hc), List.mem_singleton] at hp
      subst hp
      exact ⟨rfl, h.line hn.within hc⟩

/-! ## pieces -/

/-- The pieces of a program are found as they are, with comments of one line among
them. -/
theorem strewn_pieces (hkind : s.root.kind = "program") :
    Strewn (fun p => p.isComment = true ∧
        (r.source s).buffer.lineOf p.start = (r.source s).buffer.lineOf (p.stop - 1))
      (s.pieces.map (h.shift g).piece) (r.source s).pieces := by
  have hpieces : s.pieces = s.root.children.flatMap (·.pieces s.buffer) :=
    Node.pieces_program hkind g.nested h.blank
  have hpieces' : (r.source s).pieces =
      (r.root s.root).children.flatMap (·.pieces (r.source s).buffer) :=
    Node.pieces_program ((r.node_kind s.root).trans hkind) h.nested h.blank'
  have hmoved := congrArg (List.map (h.shift g).piece) hpieces
  rw [hmoved, hpieces']
  refine (r.strewn_children fun i c hc p hp => ?_).flatMap (fun c hc => ?_) fun _ hc => hc
  · rw [Node.pieces_eq] at hp
    split at hp
    · cases hp
    · rw [if_pos (r.isComment hc), List.mem_singleton] at hp
      subst hp
      exact ⟨rfl, h.line (.refl _) hc⟩
  · refine Shift.pieces_strewn (g.nested.of_mem hc) (fun m hm => h.moves g ⟨c, hc, hm⟩)
      fun p hp => Inserts.Suits.solid (h.texts g) ?_
    exact hpieces ▸ List.mem_flatMap.2 ⟨c, hc, hp⟩

/-- The tokens are the same. -/
theorem codePieces_eq (hkind : s.root.kind = "program") :
    (r.source s).codePieces = s.codePieces.map (h.shift g).piece := by
  have hfilter := (h.strewn_pieces g hkind).filter_eq (q := fun p => !p.isComment)
    fun p hp => by rw [hp.1]; rfl
  rw [Source.codePieces, ← Source.pieces, hfilter, List.filter_map]
  rfl

/-! ## what stands behind a node -/

/-- What starts behind a node is found behind it. -/
theorem stop_le_start {a q n : Node} (hn : n.Within s.root) (ha : a.Below n) (hq : q.Below n)
    (hlt : q.start < q.stop) (hle : a.stop ≤ q.start) : (r.node a).stop ≤ (r.node q).start := by
  induction n using Node.induct with
  | step n ih =>
    obtain ⟨c, hc, hac⟩ := ha
    obtain ⟨d, hd, hqd⟩ := hq
    have hnested := g.nested.of_within hn
    obtain ⟨ha₁, ha₂, ha₃⟩ := (hnested.of_mem hc).range_within hac
    obtain ⟨hq₁, -, hq₂⟩ := (hnested.of_mem hd).range_within hqd
    have hcbelow : c.Below s.root := hn.below_of_mem hc
    have hdbelow : d.Below s.root := hn.below_of_mem hd
    by_cases hcd : c = d
    · subst hcd
      rcases hac.eq_or_below with rfl | hac
      · lia
      rcases hqd.eq_or_below with rfl | hqd
      · -- only what is empty stands before the first byte of a node in it
        have habelow := hac.within.trans_below hcbelow
        have hsame : a.start = q.start := by lia
        exact Int.le_of_eq (by rw [h.stop_of_empty g habelow (by lia), node_start, hsame])
      · exact ih c hc hcbelow.within hac hqd
    · obtain ⟨lo, hi, horder⟩ := h.inOrder_children hn
      have hmoved := (r.strewn_children (n := n) (P := fun _ => True) fun _ _ _ => trivial).sublist
      rcases Node.sublist_or_sublist hc hd hcd with hsub | hsub
      · have hstop := ((h.nested_node hcbelow).range_within (r.node_within hac)).2.2
        have hstart := ((h.nested_node hdbelow).range_within (r.node_within hqd)).1
        have := horder.le_of_sublist ((hsub.map r.node).trans hmoved)
        lia
      · have := hnested.inOrder.le_of_sublist hsub
        lia

end Grammatical

end Suits

end Remarks

end ScriptIndent
