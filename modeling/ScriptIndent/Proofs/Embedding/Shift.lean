import ScriptIndent.Proofs.Embedding.Settle

/-!
# ScriptIndent.Proofs.Embedding.Shift

Trees and pieces under a shift of offsets.

```
b    ┆  let x = 1 ;┆
b'   ┆      let x = 1 ;┆
```

A *shift* of one text into another says where each offset is found and which
stretches of the text are found as they are, the *solid* ones (`Shift`).  Nodes
and pieces are moved by their first and last bytes.  If the pieces of a nested
tree are solid, the pieces of the moved tree are the moved pieces
(`Shift.pieces_node`), with more among them if more is put among its nodes
(`Shift.pieces_strewn`), and tokens and nodes lie to each other as before
(`Shift.lt_iff`, `Shift.Bounds.lt_stop_iff`).  So the source over the moved pieces
embeds the source over the pieces (`Shift.Lodges.embedding`).
-/

namespace ScriptIndent

/-- More is put among the elements of a list, all of it passing a test. -/
inductive Strewn {α : Type} (P : α → Prop) : List α → List α → Prop
  | nil : Strewn P [] []
  | keep (a : α) {as as' : List α} (h : Strewn P as as') : Strewn P (a :: as) (a :: as')
  | more {a : α} {as as' : List α} (ha : P a) (h : Strewn P as as') : Strewn P as (a :: as')

namespace Strewn

variable {α : Type} {P : α → Prop} {as as' bs bs' : List α}

theorem refl (as : List α) : Strewn P as as := by
  induction as with
  | nil => exact .nil
  | cons a rest ih => exact .keep a ih

theorem all (h : ∀ a ∈ as, P a) : Strewn P [] as := by
  induction as with
  | nil => exact .nil
  | cons a rest ih =>
    exact .more (h a List.mem_cons_self) (ih fun b hb => h b (List.mem_cons_of_mem a hb))

theorem sublist (h : Strewn P as as') : as.Sublist as' := by
  induction h with
  | nil => exact .slnil
  | keep a _ ih => exact ih.cons_cons a
  | more _ _ ih => exact ih.cons _

theorem mem (h : Strewn P as as') {a : α} (ha : a ∈ as) : a ∈ as' := h.sublist.subset ha

/-- What stands last and was not put in was last before. -/
theorem getLast?_eq (h : Strewn P as as') {a : α} (ha : as'.getLast? = some a) (hP : ¬P a) :
    as.getLast? = some a := by
  induction h with
  | nil => exact ha
  | @keep b as as' h ih =>
    cases as' with
    | nil =>
      rw [List.sublist_nil.1 h.sublist]
      exact ha
    | cons c as' =>
      rw [List.getLast?_cons_cons] at ha
      rw [List.getLast?_cons, ih ha]
      rfl
  | @more b as as' hb h ih =>
    cases as' with
    | nil =>
      rw [List.getLast?_singleton, Option.some.injEq] at ha
      exact absurd (ha ▸ hb) hP
    | cons c as' =>
      rw [List.getLast?_cons_cons] at ha
      exact ih ha

theorem append (ha : Strewn P as as') (hb : Strewn P bs bs') : Strewn P (as ++ bs) (as' ++ bs') := by
  induction ha with
  | nil => exact hb
  | keep a _ ih => exact .keep a ih
  | more ha _ ih => exact .more ha ih

/-- If nothing passes the test, nothing is put in. -/
theorem eq_of_false (h : Strewn (fun _ => False) as as') : as' = as := by
  induction h with
  | nil => rfl
  | keep a _ ih => rw [ih]
  | more ha => exact ha.elim

theorem ne_nil (h : Strewn P as as') (has : as ≠ []) : as' ≠ [] := by
  cases h with
  | nil => exact has
  | keep => exact List.cons_ne_nil _ _
  | more => exact List.cons_ne_nil _ _

/-- What is not put in passes no test that all that is put in fails. -/
theorem filter_eq (h : Strewn P as as') {q : α → Bool} (hq : ∀ a, P a → q a = false) :
    as'.filter q = as.filter q := by
  induction h with
  | nil => rfl
  | keep a _ ih => rw [List.filter_cons, List.filter_cons, ih]
  | @more a _ _ ha _ ih =>
    rw [List.filter_cons, hq a ha, ih]
    rfl

/-- More is put among what moved nodes make. -/
theorem flatMap {Q : Node → Prop} {move : Node → Node} {f : Piece → Piece} {R : Piece → Prop}
    {g g' : Node → List Piece} {ns ns' : List Node} (h : Strewn Q (ns.map move) ns')
    (hg : ∀ n ∈ ns, Strewn R ((g n).map f) (g' (move n))) (hmore : ∀ c, Q c → ∀ p ∈ g' c, R p) :
    Strewn R ((ns.flatMap g).map f) (ns'.flatMap g') := by
  generalize hms : ns.map move = ms at h
  induction h generalizing ns with
  | nil =>
    obtain rfl := List.map_eq_nil_iff.1 hms
    exact .nil
  | keep m _ ih =>
    obtain ⟨n, rest, rfl, rfl, rfl⟩ := List.map_eq_cons_iff.1 hms
    rw [List.flatMap_cons, List.flatMap_cons, List.map_append]
    exact (hg n List.mem_cons_self).append
      (ih (fun k hk => hg k (List.mem_cons_of_mem n hk)) rfl)
  | @more c _ _ hc _ ih =>
    rw [List.flatMap_cons]
    exact (all (hmore c hc)).append (ih hg hms)

end Strewn

/-- Where the offsets of a text are found in another text. -/
structure Shift (b b' : Buffer) where
  map : Offset → Offset
  /-- Where the lines of the text are found. -/
  row : Nat → Nat
  row_lt {k l : Nat} : k < l → row k < row l
  /-- The stretches that are found as they are. -/
  Solid : Offset → Offset → Prop
  lt_of_solid {start stop : Offset} : Solid start stop → start < stop
  narrow {start stop start' stop' : Offset} : Solid start stop → start ≤ start' →
    start' < stop' → stop' ≤ stop → Solid start' stop'
  mono {o p : Offset} : o ≤ p → map o ≤ map p
  /-- A byte of a solid stretch is found before everything that follows it. -/
  strict {o p : Offset} : Solid o (o + 1) → o < p → map o < map p
  map_eq {start stop o : Offset} : Solid start stop → start ≤ o → o < stop →
    map o = map start + (o - start)
  lineOf {o : Offset} : Solid o (o + 1) → b'.lineOf (map o) = row (b.lineOf o)
  text {start stop : Offset} : Solid start stop →
    b'.text (map start) (map start + (stop - start)) = b.text start stop

namespace Shift

variable {b b' : Buffer} (f : Shift b b')

/-- What follows an offset is found behind it. -/
def Kept (o : Offset) : Prop := ∀ p, o < p → f.map o < f.map p

/-- Where a stretch ends that starts at an offset: behind its last byte. -/
def stop (start stop : Offset) : Offset :=
  if start = stop then f.map start else f.map (stop - 1) + 1

/-- A piece in the other text. -/
def piece (p : Piece) : Piece := ⟨p.kind, f.map p.start, f.stop p.start p.stop⟩

/-- Moving pieces makes no token and loses none. -/
theorem codeCount_map (ps : List Piece) : Piece.codeCount (ps.map f.piece) = Piece.codeCount ps := by
  rw [Piece.codeCount, List.countP_map]
  rfl

mutual

/-- A tree in the other text. -/
def node : Node → Node
  | ⟨kind, isNamed, isMissing, hasError, fields, start, stop, children⟩ =>
    ⟨kind, isNamed, isMissing, hasError, fields, f.map start, f.stop start stop, nodes children⟩

/-- Trees in the other text. -/
def nodes : List Node → List Node
  | [] => []
  | n :: rest => node n :: nodes rest

end

theorem nodes_eq (ns : List Node) : f.nodes ns = ns.map f.node := by
  induction ns with
  | nil => rfl
  | cons n rest ih => rw [nodes, ih, List.map_cons]

@[simp] theorem node_kind (n : Node) : (f.node n).kind = n.kind := by
  cases n
  rfl

@[simp] theorem node_isNamed (n : Node) : (f.node n).isNamed = n.isNamed := by
  cases n
  rfl

@[simp] theorem node_fields (n : Node) : (f.node n).fields = n.fields := by
  cases n
  rfl

@[simp] theorem node_start (n : Node) : (f.node n).start = f.map n.start := by
  cases n
  rfl

@[simp] theorem node_stop (n : Node) : (f.node n).stop = f.stop n.start n.stop := by
  cases n
  rfl

@[simp] theorem node_children (n : Node) : (f.node n).children = n.children.map f.node := by
  cases n
  exact f.nodes_eq _

@[simp] theorem node_isComment (n : Node) : (f.node n).isComment = n.isComment := by
  rw [Node.isComment, Node.isComment, node_kind]

variable {f}

/-! ## offsets -/

/-- Every byte of a solid stretch is solid. -/
theorem solid_byte {start stop o : Offset} (h : f.Solid start stop) (hstart : start ≤ o)
    (hstop : o < stop) : f.Solid o (o + 1) := f.narrow h hstart (by lia) (by lia)

/-- The bytes of a solid stretch are kept. -/
theorem kept_of_solid {start stop o : Offset} (h : f.Solid start stop) (hstart : start ≤ o)
    (hstop : o < stop) : f.Kept o := fun _ => f.strict (solid_byte h hstart hstop)

/-- What follows a kept offset follows it in the other text, and nothing else does. -/
theorem lt_iff {o p : Offset} (h : f.Kept o) : f.map o < f.map p ↔ o < p := by
  constructor
  · intro hlt
    by_contra hle
    have := f.mono (Int.not_lt.1 hle)
    lia
  · exact h p

theorem le_iff {o p : Offset} (h : f.Kept p) : f.map o ≤ f.map p ↔ o ≤ p := by
  rw [← Int.not_lt, lt_iff h, Int.not_lt]

theorem map_inj {o p : Offset} (ho : f.Kept o) (hp : f.Kept p) : f.map o = f.map p ↔ o = p := by
  constructor
  · intro heq
    have h₁ := (le_iff (o := o) hp).1 (Int.le_of_eq heq)
    have h₂ := (le_iff (o := p) ho).1 (Int.le_of_eq heq.symm)
    lia
  · rintro rfl
    rfl

theorem stop_of_lt {start stop : Offset} (h : start < stop) :
    f.stop start stop = f.map (stop - 1) + 1 := by
  rw [Shift.stop, if_neg (by lia)]

theorem stop_self (o : Offset) : f.stop o o = f.map o := by
  rw [Shift.stop, if_pos rfl]

theorem stop_of_solid {start stop : Offset} (h : f.Solid start stop) :
    f.stop start stop = f.map start + (stop - start) := by
  have hlt := f.lt_of_solid h
  rw [stop_of_lt hlt, f.map_eq h (o := stop - 1) (by lia) (by lia)]
  lia

/-- A stretch is empty if it is so in the other text. -/
theorem start_eq_stop_iff {start stop : Offset} (h : start ≤ stop) :
    f.map start = f.stop start stop ↔ start = stop := by
  constructor
  · intro heq
    by_contra hne
    rw [stop_of_lt (by lia)] at heq
    have := f.mono (o := start) (p := stop - 1) (by lia)
    lia
  · rintro rfl
    rw [stop_self]

/-! ## pieces -/

/-- The rest of a template literal starts with a piece of literal text, which goes on
into the first substitution or to the end. -/
theorem exists_head_templatePieces (position : Offset) {lo stop : Offset} {ns : List Node}
    (h : Node.InOrder lo stop ns) :
    ∃ p ∈ Node.templatePieces b position stop ns,
      p.start = position ∧ (lo + 2 ≤ p.stop ∨ p.stop = stop) := by
  induction ns generalizing lo with
  | nil =>
    rw [Node.templatePieces]
    exact ⟨_, List.mem_singleton_self _, rfl, .inr rfl⟩
  | cons n rest ih =>
    obtain ⟨hlo, hle, hrest⟩ := h
    rw [Node.templatePieces_cons]
    split
    · refine ⟨_, List.mem_cons_self, rfl, .inl ?_⟩
      dsimp only
      lia
    · exact ih (hrest.weaken (Int.le_trans hlo hle))

/-- The pieces of the rest of a template literal, if the pieces of what its
substitutions put in are known to move, with more among them. -/
theorem templatePieces_strewn {P : Piece → Prop} {move : Node → Node} {position lo stop : Offset}
    {ns : List Node} (h : Node.InOrder lo stop ns) (hposition : position ≤ lo)
    (hlt : position < stop)
    (hsolid : ∀ p ∈ Node.templatePieces b position stop ns, f.Solid p.start p.stop)
    (hkind : ∀ n ∈ ns, (move n).kind = n.kind)
    (hsub : ∀ n ∈ ns, n.kind = "template_substitution" →
      (move n).start = f.map n.start ∧ (move n).stop = f.stop n.start n.stop ∧
        ((∀ p ∈ Node.substitutedPieces b n.children, f.Solid p.start p.stop) →
          Strewn P ((Node.substitutedPieces b n.children).map f.piece)
            (Node.substitutedPieces b' (move n).children))) :
    Strewn P ((Node.templatePieces b position stop ns).map f.piece)
      (Node.templatePieces b' (f.map position) (f.map (stop - 1) + 1) (ns.map move)) := by
  induction ns generalizing position lo with
  | nil =>
    simp only [List.map_nil, Node.templatePieces, List.map_cons, piece, stop_of_lt hlt]
    exact .refl _
  | cons n rest ih =>
    obtain ⟨hlo, hle, hrest⟩ := h
    have hkinds := fun m hm => hkind m (List.mem_cons_of_mem n hm)
    have hmore := fun m hm => hsub m (List.mem_cons_of_mem n hm)
    rw [List.map_cons, Node.templatePieces_cons, Node.templatePieces_cons,
      hkind n List.mem_cons_self]
    rw [Node.templatePieces_cons] at hsolid
    split
    · next hkind =>
      rw [if_pos hkind] at hsolid
      obtain ⟨hstart, hstop', hinner⟩ := hsub n List.mem_cons_self hkind
      have hfirst : f.Solid position (n.start + 2) := hsolid _ List.mem_cons_self
      have hinside := fun p hp =>
        hsolid p (List.mem_cons_of_mem _ (List.mem_append_left _ hp))
      have hafter := fun p hp =>
        hsolid p (List.mem_cons_of_mem _ (List.mem_append_right _ hp))
      have hstop : n.stop - 1 < stop := by have := hrest.le; lia
      have hopening : f.map n.start + 2 = f.stop position (n.start + 2) := by
        rw [stop_of_solid hfirst, f.map_eq hfirst (o := n.start) (by lia) (by lia)]
        lia
      -- an empty substitution ends where it starts, inside one of the stretches around it
      have hclosing : f.stop n.start n.stop - 1 = f.map (n.stop - 1) := by
        rcases Int.lt_or_eq_of_le hle with hlt' | heq
        · rw [stop_of_lt hlt']
          lia
        rw [← heq, stop_self]
        by_cases hin : position < n.start
        · rw [f.map_eq hfirst (o := n.start) (by lia) (by lia),
            f.map_eq hfirst (o := n.start - 1) (by lia) (by lia)]
          lia
        · obtain ⟨p, hp, hstart, hcases⟩ := exists_head_templatePieces (n.stop - 1) hrest
          have hnext := hafter p hp
          rw [hstart] at hnext
          rw [f.map_eq hnext (o := n.start) (by lia) (by lia),
            f.map_eq hnext (o := n.start - 1) (by lia) (by lia)]
          lia
      rw [hstart, hstop', hclosing, hopening, List.map_cons, List.map_append]
      exact .keep _ ((hinner hinside).append (ih hrest (by lia) hstop hafter hkinds hmore))
    · next hkind =>
      rw [if_neg hkind] at hsolid
      exact ih (hrest.weaken (Int.le_trans hlo hle)) hposition hlt hsolid hkinds hmore

/-- A node is found in the other text, with more among its children if it is cut into
them. -/
structure Moves (f : Shift b b') (P : Piece → Prop) (move : Node → Node) (n : Node) : Prop where
  kind : (move n).kind = n.kind
  isNamed : (move n).isNamed = n.isNamed
  start : (move n).start = f.map n.start
  empty : (move n).start = (move n).stop ↔ n.start = n.stop
  /-- Leaves, comments and literals end where their last bytes are found. -/
  whole : ¬n.IsCut → (move n).stop = f.stop n.start n.stop ∧
    (move n).children = n.children.map move
  substitution : n.kind = "template_substitution" → (move n).stop = f.stop n.start n.stop
  children : Strewn (fun c => ∀ p ∈ c.pieces b', P p) (n.children.map move) (move n).children

/-- The pieces of a moved tree are the moved pieces, with more among them. -/
theorem pieces_strewn {P : Piece → Prop} {move : Node → Node} {n : Node} (hn : n.Nested)
    (hmoves : ∀ m : Node, m.Within n → f.Moves P move m)
    (hsolid : ∀ p ∈ n.pieces b, f.Solid p.start p.stop) :
    Strewn P ((n.pieces b).map f.piece) ((move n).pieces b') := by
  induction n using Node.induct_below with
  | step n ih =>
    have hmove := hmoves n (.refl n)
    by_cases hempty : n.start = n.stop
    · rw [Node.pieces_eq, if_pos hempty, Node.pieces_eq, if_pos (hmove.empty.2 hempty)]
      exact .nil
    have hempty' := mt hmove.empty.1 hempty
    have hlt : n.start < n.stop := by have := hn.le; lia
    have hbelow : ∀ m : Node, m.Below n → (∀ p ∈ m.pieces b, f.Solid p.start p.stop) →
        Strewn P ((m.pieces b).map f.piece) ((move m).pieces b') := fun m hm =>
      ih m hm (hn.of_within hm.within) fun k hk => hmoves k (hk.trans hm.within)
    by_cases hcut : n.IsCut
    · have hcut' : (move n).IsCut := by
        obtain ⟨⟨hcomment, hliteral⟩, hchildren⟩ := hcut
        refine ⟨⟨?_, hmove.kind ▸ hliteral⟩, hmove.children.ne_nil (by simpa using hchildren)⟩
        rw [Node.isComment, hmove.kind]
        exact hcomment
      rw [Node.pieces_of_isCut hempty hcut] at hsolid ⊢
      rw [Node.pieces_of_isCut hempty' hcut']
      exact hmove.children.flatMap (fun c hc => hbelow c (.of_mem hc) fun p hp =>
        hsolid p (List.mem_flatMap.2 ⟨c, hc, hp⟩)) fun _ hc => hc
    obtain ⟨hstop, hchildren⟩ := hmove.whole hcut
    have hcomment' : (move n).isComment = n.isComment := by
      rw [Node.isComment, hmove.kind, Node.isComment]
    rw [Node.pieces_eq, if_neg hempty] at hsolid ⊢
    rw [Node.pieces_eq, if_neg hempty', hmove.kind, hmove.isNamed, hcomment', hmove.start, hstop,
      hchildren, List.isEmpty_map]
    split
    · exact .refl _
    next hcomment =>
    rw [if_neg hcomment] at hsolid
    split
    · next htemplate =>
      rw [if_pos htemplate] at hsolid
      rw [stop_of_lt hlt]
      refine templatePieces_strewn hn.inOrder (Int.le_refl _) hlt hsolid
        (fun c hc => (hmoves c (.of_mem hc)).kind) fun c hc hkind => ?_
      have hc' := hmoves c (.of_mem hc)
      refine ⟨hc'.start, hc'.substitution hkind, fun hinner => ?_⟩
      rw [Node.substitutedPieces_eq] at hinner
      rw [Node.substitutedPieces_eq, Node.substitutedPieces_eq]
      refine hc'.children.flatMap (fun d hd => ?_) fun d hd p hp => hd p ?_
      · rw [Node.substitutedPiece, Node.substitutedPiece,
          (hmoves d ((Node.Within.of_mem hd).trans (.of_mem hc))).kind]
        split
        · exact .nil
        · next hbracket =>
          have hdn : d.Below n := (Node.Below.of_mem hc).below_of_mem hd
          refine hbelow d hdn fun p hp => hinner p ?_
          refine List.mem_flatMap.2 ⟨d, hd, ?_⟩
          rwa [Node.substitutedPiece, if_neg hbracket]
      · rw [Node.substitutedPiece] at hp
        split at hp
        · cases hp
        · exact hp
    next htemplate =>
    rw [if_neg htemplate] at hsolid
    have hleaf : (Node.isAtomicKind n.kind || n.children.isEmpty) = true := by
      by_contra hleaf
      rw [Bool.not_eq_true, Bool.or_eq_false_iff] at hleaf
      refine hcut ⟨⟨Bool.eq_false_iff.2 hcomment, ?_⟩, by simpa using hleaf.2⟩
      rw [Node.isLiteralKind, hleaf.1, Bool.or_false, beq_eq_false_iff_ne]
      exact htemplate
    rw [if_pos hleaf] at hsolid ⊢
    have hpiece := hsolid _ (List.mem_singleton_self _)
    rw [if_pos hleaf, List.map_singleton, piece, stop_of_solid hpiece, f.text hpiece]
    exact .refl _

/-- The pieces of a moved tree are the moved pieces. -/
theorem pieces_node {n : Node} (hn : n.Nested)
    (hsolid : ∀ p ∈ n.pieces b, f.Solid p.start p.stop) :
    (f.node n).pieces b' = (n.pieces b).map f.piece := by
  refine (pieces_strewn hn (fun m hm => ?_) hsolid).eq_of_false
  exact {
    kind := f.node_kind m
    isNamed := f.node_isNamed m
    start := f.node_start m
    empty := by rw [node_start, node_stop, start_eq_stop_iff (hn.of_within hm).le]
    whole := fun _ => ⟨f.node_stop m, f.node_children m⟩
    substitution := fun _ => f.node_stop m
    children := by
      rw [node_children]
      exact .refl _ }

/-! ## tokens -/

/-- A token of a solid piece and the token of the moved piece. -/
theorem token_piece {p : Piece} (h : f.Solid p.start p.stop) (i j : Option Nat) :
    (b'.token (f.piece p) j).kind = (b.token p i).kind ∧
      (b'.token (f.piece p) j).value = (b.token p i).value ∧
      (b'.token (f.piece p) j).line = f.row (b.token p i).line ∧
      (b'.token (f.piece p) j).endLine = f.row (b.token p i).endLine := by
  have hlt := f.lt_of_solid h
  have hfirst := f.lineOf (solid_byte h (Int.le_refl _) hlt)
  have hlast := f.lineOf (solid_byte h (o := p.stop - 1) (by lia) (by lia))
  have hend : max (f.map p.start) (f.stop p.start p.stop - 1) = f.map (p.stop - 1) := by
    have := f.mono (o := p.start) (p := p.stop - 1) (by lia)
    rw [stop_of_lt hlt]
    lia
  have hend' : max p.start (p.stop - 1) = p.stop - 1 := by lia
  simp only [Buffer.token, piece, hend, hend', hfirst, hlast, and_true, true_and]
  rw [stop_of_solid h, f.text h]

/-! ## nodes -/

variable (f) in
/-- The first and the last byte of a node are kept. -/
structure Bounds (n : Node) : Prop where
  le : n.start ≤ n.stop
  first : f.Kept n.start
  last : n.start < n.stop → f.Kept (n.stop - 1)

/-- A kept offset lies before the end of a node. -/
theorem Bounds.lt_stop_iff {n : Node} (h : f.Bounds n) {o : Offset} (ho : f.Kept o) :
    f.map o < f.stop n.start n.stop ↔ o < n.stop := by
  rcases Int.lt_or_eq_of_le h.le with hlt | heq
  · rw [stop_of_lt hlt, Int.lt_add_one_iff, le_iff (h.last hlt)]
    lia
  · rw [← heq, stop_self, lt_iff ho]

/-- A node starts before the end of a solid piece. -/
theorem node_start_lt_iff (n : Node) {start stop : Offset} (hsolid : f.Solid start stop) :
    f.map n.start < f.stop start stop ↔ n.start < stop := by
  have hlt := f.lt_of_solid hsolid
  have hlast : f.Kept (stop - 1) := kept_of_solid hsolid (by lia) (by lia)
  rw [stop_of_lt hlt, Int.lt_add_one_iff, le_iff hlast]
  lia

/-- Nodes start and end together if they do so in the other text. -/
theorem Bounds.range_eq_iff {m n : Node} (hm : f.Bounds m) (hn : f.Bounds n) :
    f.map m.start = f.map n.start ∧ f.stop m.start m.stop = f.stop n.start n.stop ↔
      m.start = n.start ∧ m.stop = n.stop := by
  rw [map_inj hm.first hn.first]
  refine and_congr_right fun hstart => ?_
  rcases Int.lt_or_eq_of_le hm.le with hmlt | hmeq <;>
    rcases Int.lt_or_eq_of_le hn.le with hnlt | hneq
  · rw [stop_of_lt hmlt, stop_of_lt hnlt]
    have := map_inj (hm.last hmlt) (hn.last hnlt)
    lia
  · rw [← hneq, ← hstart, stop_self, eq_comm, start_eq_stop_iff hm.le, eq_comm]
  · rw [← hmeq, hstart, stop_self, start_eq_stop_iff hn.le]
  · rw [← hmeq, ← hneq, stop_self, stop_self, map_inj hm.first hn.first]

/-! ## sources -/

section Sources

/-- A token that lies to moved blocks of script as a token lies to the blocks. -/
theorem baseLevel_map {s s' : Source} {g : ScriptBlock → ScriptBlock}
    (hblocks : s'.blocks = s.blocks.map g) (hlevel : ∀ k, (g k).baseLevel = k.baseLevel)
    {t t' : Token} (hiff : ∀ k : ScriptBlock,
      (g k).start ≤ t'.start ∧ t'.start < (g k).stop ↔ k.start ≤ t.start ∧ t.start < k.stop) :
    s'.baseLevel t' = s.baseLevel t := by
  have hfind : (s'.blocks.find? fun b => b.start ≤ t'.start && t'.start < b.stop) =
      (s.blocks.find? fun b => b.start ≤ t.start && t.start < b.stop).map g := by
    rw [hblocks, List.find?_map]
    congr 2
    funext k
    rw [Function.comp, ← Bool.decide_and, ← Bool.decide_and, decide_eq_decide]
    exact hiff k
  rw [Source.baseLevel, Source.baseLevel, hfind]
  cases s.blocks.find? _ with
  | none => rfl
  | some k => exact hlevel k

variable {s s' : Source} {f : Shift s.buffer s'.buffer} {move : Node → Node} {Held : Node → Prop}
  {skip : Nat}

/-- The tokens of a source are found among those of another, the solid pieces of the
one being moved to pieces of the other. -/
structure Finds (f : Shift s.buffer s'.buffer) (skip : Nat) : Prop where
  fits : skip + s.tokens.size ≤ s'.tokens.size
  solid {p : Piece} : p ∈ s.codePieces → f.Solid p.start p.stop
  pieces {i : Nat} {p : Piece} : s.codePieces[i]? = some p →
    s'.codePieces[skip + i]? = some (f.piece p)

/-- The tokens of a source are found among those of another, and some of its nodes, the
*held* ones, are found among the nodes of the other. -/
structure Lodges (f : Shift s.buffer s'.buffer) (move : Node → Node) (Held : Node → Prop)
    (skip : Nat) : Prop extends f.Finds skip where
  baseLevel {i : Nat} {t t' : Token} : s.At i t → s'.At (skip + i) t' →
    s'.baseLevel t' = s.baseLevel t
  opening {k : Nat} {t' : Token} : k + 1 = skip → s'.At k t' → t'.isOpeningParen = false
  closing {t' : Token} : s'.At (skip + s.tokens.size) t' →
    t'.isClosingParen = false ∧ ∀ i t, s.At i t → f.row t.line < t'.line
  mirrors : Node.Mirrors move
  child {n c : Node} : Held n → c ∈ n.children → Held c
  bounds {n : Node} : Held n → f.Bounds n
  start {n : Node} : Held n → (move n).start = f.map n.start
  stop {n : Node} : Held n → (move n).stop = f.stop n.start n.stop
  head {n : Node} : Held n → (move n).children.head? = (n.children.map move).head?
  startsUpTo {n : Node} : Held n → s'.startsUpTo (f.map n.start) = skip + s.startsUpTo n.start
  startsBefore {n : Node} : Held n →
    s'.startsBefore (f.stop n.start n.stop) = skip + s.startsBefore n.stop
  before {n : Node} {k : Nat} {t' : Token} : Held n → k < skip → s'.At k t' →
    t'.stop ≤ f.map n.start
  behind {n : Node} {k : Nat} {t' : Token} : Held n → skip + s.tokens.size ≤ k →
    s'.At k t' → f.stop n.start n.stop ≤ t'.start
  line {n : Node} : Held n → (∀ line, f.row line = line) →
    s'.buffer.lineOf (f.map n.start) = s.buffer.lineOf n.start

/-- The map of nodes has all that is asked of it. -/
theorem mirrors_node (f : Shift s.buffer s'.buffer) : Node.Mirrors f.node where
  kind := f.node_kind
  isNamed := f.node_isNamed
  fields := f.node_fields
  children n := by
    rw [node_children]
    exact .refl _

namespace Finds

/-- Corresponding tokens are those of a solid piece and the moved piece. -/
theorem exists_piece (h : f.Finds skip) {i : Nat} {t t' : Token} (ht : s.At i t)
    (ht' : s'.At (skip + i) t') :
    ∃ p, f.Solid p.start p.stop ∧ t = s.buffer.token p (some i) ∧
      t' = s'.buffer.token (f.piece p) (some (skip + i)) := by
  obtain ⟨p, hp, rfl⟩ := Source.exists_codePiece ht
  obtain ⟨p', hp', rfl⟩ := Source.exists_codePiece ht'
  obtain rfl := Option.mem_unique (h.pieces hp) hp'
  exact ⟨p, h.solid (List.mem_of_getElem? hp), rfl, rfl⟩

/-- Tokens lie to each other as before. -/
theorem token_order (h : f.Finds skip) {i j : Nat} {t t' u u' : Token} (ht : s.At i t)
    (ht' : s'.At (skip + i) t') (hu : s.At j u) (hu' : s'.At (skip + j) u') :
    (t'.start ≤ u'.start ↔ t.start ≤ u.start) ∧ (u'.start < t'.stop ↔ u.start < t.stop) := by
  obtain ⟨p, hp, rfl, rfl⟩ := h.exists_piece ht ht'
  obtain ⟨q, hq, rfl, rfl⟩ := h.exists_piece hu hu'
  have hlt := f.lt_of_solid hp
  have hqlt := f.lt_of_solid hq
  have hlast : f.Kept (p.stop - 1) := kept_of_solid hp (by lia) (by lia)
  have hstart : f.Kept q.start := kept_of_solid hq (Int.le_refl _) hqlt
  simp only [Buffer.token, piece, stop_of_lt hlt, le_iff hstart, Int.lt_add_one_iff,
    le_iff hlast, true_and]
  lia

end Finds

namespace Lodges

/-- The source is embedded, with the nodes that are held. -/
def embedding (h : f.Lodges move Held skip) : Embedding s s' where
  skip := skip
  row := f.row
  move := move
  Domain := Held
  fits := h.fits
  token_kind ht ht' := by
    obtain ⟨p, hp, rfl, rfl⟩ := h.exists_piece ht ht'
    exact (token_piece hp _ _).1
  token_value ht ht' := by
    obtain ⟨p, hp, rfl, rfl⟩ := h.exists_piece ht ht'
    exact (token_piece hp _ _).2.1
  token_line ht ht' := by
    obtain ⟨p, hp, rfl, rfl⟩ := h.exists_piece ht ht'
    exact (token_piece hp _ _).2.2.1
  row_lt := f.row_lt
  token_order := h.token_order
  baseLevel := h.baseLevel
  opening := h.opening
  closing := h.closing
  move_kind := h.mirrors.kind
  move_isNamed := h.mirrors.isNamed
  move_fields := h.mirrors.fields
  move_children := h.mirrors.children
  move_head := h.head
  domain_child := h.child
  startsUpTo hn := by rw [h.start hn, h.startsUpTo hn]
  startsBefore hn := by rw [h.stop hn, h.startsBefore hn]
  start_lt hn ht ht' := by
    obtain ⟨p, hp, rfl, rfl⟩ := h.exists_piece ht ht'
    have hstart : f.Kept p.start := kept_of_solid hp (Int.le_refl _) (f.lt_of_solid hp)
    rw [h.stop hn]
    exact (h.bounds hn).lt_stop_iff hstart
  lt_stop hn ht ht' := by
    obtain ⟨p, hp, rfl, rfl⟩ := h.exists_piece ht ht'
    rw [h.start hn]
    exact node_start_lt_iff _ hp
  start_eq hn ht ht' := by
    obtain ⟨p, hp, rfl, rfl⟩ := h.exists_piece ht ht'
    have hstart : f.Kept p.start := kept_of_solid hp (Int.le_refl _) (f.lt_of_solid hp)
    rw [h.start hn]
    exact map_inj (h.bounds hn).first hstart
  same_iff hn hc hd := by
    have hm := h.child hn hc
    replace hn := h.child hn hd
    rw [Bool.eq_iff_iff]
    simp only [Node.same, h.mirrors.kind, h.start hm, h.start hn, h.stop hm, h.stop hn,
      Bool.and_eq_true, beq_iff_eq, and_assoc, (h.bounds hm).range_eq_iff (h.bounds hn)]
  before hn hk ht' := by
    rw [h.start hn]
    exact h.before hn hk ht'
  behind hn hk ht' := by
    rw [h.stop hn]
    exact h.behind hn hk ht'
  lineOfNode hn hrow := by
    rw [Source.lineOfNode, h.start hn]
    exact h.line hn hrow

end Lodges

end Sources

end Shift

end ScriptIndent
