import ScriptIndent.Proofs.Embedding.Records
import ScriptIndent.Proofs.Remark.Tree

/-!
# ScriptIndent.Proofs.Remark.Embedding

A source in the source with comments put in.

Each token starts where a node starts that is not empty
(`Node.exists_start_of_mem_pieces`), so the tokens lie to the nodes as before
(`Remarks.Suits.start_lt_iff`) and the source with comments embeds the source
(`Remarks.Suits.embedding`), with no other tokens.  The walks through both record the same
(`Remarks.Suits.relations_eq`).
-/

namespace ScriptIndent

namespace Node

/-- Literal text starts with the literal or with the bracket that closes a
substitution; the other pieces are put in. -/
theorem start_of_mem_templatePieces {b : Buffer} {position stop : Offset} {ns : List Node}
    {p : Piece} (h : p ∈ templatePieces b position stop ns) :
    p.start = position ∨
      ∃ n ∈ ns, n.kind = "template_substitution" ∧
        (p.start = n.stop - 1 ∨ ∃ c ∈ n.children, p ∈ c.pieces b) := by
  induction ns generalizing position with
  | nil =>
    rw [templatePieces, List.mem_singleton] at h
    exact .inl (congrArg Piece.start h)
  | cons n rest ih =>
    have hmore : ∀ {q : Offset}, p ∈ templatePieces b q stop rest → p.start = q ∨
        ∃ m ∈ n :: rest, m.kind = "template_substitution" ∧
          (p.start = m.stop - 1 ∨ ∃ c ∈ m.children, p ∈ c.pieces b) := by
      intro q hp
      obtain hstart | ⟨m, hm, hrest⟩ := ih hp
      · exact .inl hstart
      · exact .inr ⟨m, List.mem_cons_of_mem n hm, hrest⟩
    rw [templatePieces_cons] at h
    split at h
    · next hkind =>
      rcases List.mem_cons.1 h with rfl | h
      · exact .inl rfl
      rcases List.mem_append.1 h with h | h
      · rw [substitutedPieces_eq, List.mem_flatMap] at h
        obtain ⟨c, hc, h⟩ := h
        rw [substitutedPiece] at h
        split at h
        · cases h
        · exact .inr ⟨n, List.mem_cons_self, hkind, .inr ⟨c, hc, h⟩⟩
      · rcases hmore h with hstart | hcase
        · exact .inr ⟨n, List.mem_cons_self, hkind, .inl hstart⟩
        · exact .inr hcase
    · exact hmore h

/-- Every piece starts where a node starts that is not empty. -/
theorem exists_start_of_mem_pieces {b : Buffer} {n : Node} (hn : n.Nested) (hb : n.Bracketed)
    {p : Piece} (hp : p ∈ n.pieces b) :
    ∃ q : Node, q.Within n ∧ q.start = p.start ∧ q.start < q.stop := by
  induction n using induct_below generalizing p with
  | step n ih =>
    have hbelow : ∀ {m : Node}, m.Below n → p ∈ m.pieces b →
        ∃ q : Node, q.Within n ∧ q.start = p.start ∧ q.start < q.stop := by
      intro m hm hp
      obtain ⟨q, hq, hrest⟩ := ih m hm (hn.of_within hm.within) (hb.of_within hm.within) hp
      exact ⟨q, hq.trans hm.within, hrest⟩
    rw [pieces_eq] at hp
    split at hp
    · cases hp
    next hempty =>
    have hlt : n.start < n.stop := by have := hn.le; lia
    split at hp
    · obtain rfl := List.mem_singleton.1 hp
      exact ⟨n, .refl n, rfl, hlt⟩
    split at hp
    · rcases start_of_mem_templatePieces hp with hstart | ⟨c, hc, hkind, hstart | ⟨d, hd, hp⟩⟩
      · exact ⟨n, .refl n, hstart.symm, hlt⟩
      · obtain ⟨opening, inner, closing, hcs, -, -, -, -, hcstart, hcstop⟩ := hb c (.of_mem hc) hkind
        refine ⟨closing, (Within.of_mem ?_).trans (.of_mem hc), by lia, by lia⟩
        rw [hcs]
        simp
      · exact hbelow ((Below.of_mem hc).below_of_mem hd) hp
    split at hp
    · obtain rfl := List.mem_singleton.1 hp
      exact ⟨n, .refl n, rfl, hlt⟩
    · obtain ⟨c, hc, hp⟩ := List.mem_flatMap.1 hp
      exact hbelow (.of_mem hc) hp

end Node

namespace Remarks.Suits

variable {r : Remarks} {s : Source} (h : r.Suits s) (g : s.root.Grammatical s.buffer)

include h g

/-- Every token starts where a node below the root starts that is not empty. -/
theorem exists_start_of_mem (hkind : s.root.kind = "program") {p : Piece} (hp : p ∈ s.pieces) :
    ∃ q : Node, q.Below s.root ∧ q.start = p.start ∧ q.start < q.stop := by
  have hpieces : s.pieces = s.root.children.flatMap (·.pieces s.buffer) :=
    Node.pieces_program hkind g.nested h.blank
  obtain ⟨c, hc, hp⟩ := List.mem_flatMap.1 (hpieces ▸ hp)
  obtain ⟨q, hq, hrest⟩ := Node.exists_start_of_mem_pieces (g.nested.of_mem hc)
    (g.bracketed.of_within (.of_mem hc)) hp
  exact ⟨q, ⟨c, hc, hq⟩, hrest⟩

/-- Tokens start before the end of a node as before. -/
theorem start_lt_iff (hkind : s.root.kind = "program") {n : Node} (hn : n.Below s.root)
    {p : Piece} (hp : p ∈ s.pieces) :
    r.texts.offset p.start < (r.node n).stop ↔ p.start < n.stop := by
  constructor
  · intro hlt
    by_contra hle
    obtain ⟨q, hq, hstart, hproper⟩ := h.exists_start_of_mem g hkind hp
    have := h.stop_le_start g (.refl s.root) hn hq hproper (by lia)
    rw [node_start, hstart] at this
    lia
  · intro hlt
    have hle := (g.nested.of_within hn.within).le
    refine Int.lt_of_lt_of_le ?_ (r.le_node_stop n)
    rw [stopOf]
    split
    · next hempty =>
      rw [hempty]
      exact r.texts.offset_lt hlt
    · have := (h.shift g).mono (o := p.start) (p := n.stop - 1) (by lia)
      exact Int.lt_add_one_of_le this

/-- Corresponding tokens have starts that are told apart in the same way. -/
theorem startCount_eq (hkind : s.root.kind = "program") (q q' : Offset → Bool)
    (hq : ∀ p ∈ s.pieces, q' (r.texts.offset p.start) = q p.start) :
    partitionPoint (r.source s).tokens.size (fun i => (r.source s).tokens[i]?.any (q' ·.start)) =
      partitionPoint s.tokens.size fun i => s.tokens[i]?.any (q ·.start) := by
  rw [Source.size_tokens, Source.size_tokens, h.codePieces_eq g hkind, List.length_map]
  congr 1
  funext i
  rw [Source.getElem?_tokens, Source.getElem?_tokens, h.codePieces_eq g hkind, List.getElem?_map]
  cases hp : s.codePieces[i]? with
  | none => rfl
  | some p => exact hq p (Source.mem_pieces_of_mem_codePieces (List.mem_of_getElem? hp))

/-- Two children of a node take up the same range as before. -/
theorem range_eq_iff {n c d : Node} (hn : n.Below s.root) (hc : c ∈ n.children)
    (hd : d ∈ n.children) :
    (r.node c).start = (r.node d).start ∧ (r.node c).stop = (r.node d).stop ↔
      c.start = d.start ∧ c.stop = d.stop := by
  have hcbelow := hn.below_of_mem hc
  have hdbelow := hn.below_of_mem hd
  have hcempty := h.empty_iff g hcbelow
  have hdempty := h.empty_iff g hdbelow
  have hinj : (r.node c).start = (r.node d).start ↔ c.start = d.start := by
    rw [node_start, node_start]
    exact Shift.map_inj (f := h.shift g) (Inserts.kept_shift _ _) (Inserts.kept_shift _ _)
  by_cases hcd : c = d
  · rw [hcd]
    simp
  -- of two nodes with one range, the first is empty
  have hnested := g.nested.of_within hn.within
  have hmoved := (r.strewn_children (n := n) (P := fun _ => True) fun _ _ _ => trivial).sublist
  have horder : ∀ {x y : Node}, [x, y].Sublist n.children →
      x.stop ≤ y.start ∧ (r.node x).stop ≤ (r.node y).start := fun hsub =>
    ⟨hnested.inOrder.le_of_sublist hsub,
      (h.nested_node hn).inOrder.le_of_sublist ((hsub.map r.node).trans hmoved)⟩
  have hle := (g.nested.of_within hcbelow.within).le
  have hle' := (g.nested.of_within hdbelow.within).le
  have hle₁ := (h.nested_node hcbelow).le
  have hle₂ := (h.nested_node hdbelow).le
  rcases Node.sublist_or_sublist hc hd hcd with hsub | hsub <;>
  · obtain ⟨h₁, h₂⟩ := horder hsub
    lia

/-! ## the embedding -/

section Program

variable (hkind : s.root.kind = "program")

include hkind

theorem size_tokens_eq : (r.source s).tokens.size = s.tokens.size := by
  rw [Source.size_tokens, Source.size_tokens, h.codePieces_eq g hkind, List.length_map]

theorem finds : (h.shift g).Finds 0 where
  fits := by rw [h.size_tokens_eq g hkind, Nat.zero_add]
  solid hp := Inserts.Suits.solid _ (Source.mem_pieces_of_mem_codePieces hp)
  pieces hp := by
    rw [Nat.zero_add, h.codePieces_eq g hkind, List.getElem?_map, hp, Option.map_some]

/-- Corresponding tokens are those of a piece and of the piece that is found. -/
theorem exists_piece {i : Nat} {t t' : Token} (ht : s.At i t) (ht' : (r.source s).At (0 + i) t') :
    ∃ p ∈ s.pieces, t = s.buffer.token p (some i) ∧
      t' = (r.source s).buffer.token ((h.shift g).piece p) (some (0 + i)) := by
  obtain ⟨p, hp, rfl⟩ := Source.exists_codePiece ht
  obtain ⟨p', hp', rfl⟩ := Source.exists_codePiece ht'
  obtain rfl := Option.mem_unique ((h.finds g hkind).pieces hp) hp'
  exact ⟨p, Source.mem_pieces_of_mem_codePieces (List.mem_of_getElem? hp), rfl, rfl⟩

/-- Corresponding tokens read alike, on corresponding lines. -/
theorem reads_alike {i : Nat} {t t' : Token} (ht : s.At i t) (ht' : (r.source s).At (0 + i) t') :
    t'.kind = t.kind ∧ t'.value = t.value ∧
      t'.line = r.texts.row s.buffer s.pieces t.line := by
  obtain ⟨p, hp, rfl, rfl⟩ := h.exists_piece g hkind ht ht'
  obtain ⟨hkind, hvalue, hline, -⟩ :=
    Shift.token_piece (Inserts.Suits.solid (h.texts g) hp) (some i) (some (0 + i))
  exact ⟨hkind, hvalue, hline⟩

theorem baseLevel_eq {i : Nat} {t t' : Token} (ht : s.At i t)
    (ht' : (r.source s).At (0 + i) t') : (r.source s).baseLevel t' = s.baseLevel t := by
  obtain ⟨p, -, rfl, rfl⟩ := h.exists_piece g hkind ht ht'
  refine Shift.baseLevel_map (g := r.block) rfl (fun _ => rfl) fun k => ?_
  have hkept : ∀ o, (h.shift g).Kept o := Inserts.kept_shift _
  refine and_congr ?_ (Shift.lt_iff (f := h.shift g) (hkept _))
  rw [block, ← Int.lt_iff_add_one_le]
  exact (Shift.lt_iff (f := h.shift g) (hkept _)).trans (by simp only [Buffer.token]; lia)

/-- There are no tokens behind those that correspond. -/
theorem not_at_behind {k : Nat} {t' : Token} (hk : 0 + s.tokens.size ≤ k) :
    ¬(r.source s).At k t' := by
  intro ht'
  have := (Array.getElem?_eq_some_iff.1 ht').1
  rw [h.size_tokens_eq g hkind] at this
  omega

omit g hkind in
/-- A node below the root keeps its first child. -/
theorem head?_node {n : Node} (hn : n.Below s.root) :
    (r.node n).children.head? = (n.children.map r.node).head? := by
  rw [node_children, head?_weave]
  by_contra hne
  exact Nat.lt_irrefl 0 (h.host hn hne).2.2

theorem startsUpTo_node (n : Node) :
    (r.source s).startsUpTo (r.node n).start = 0 + s.startsUpTo n.start := by
  rw [Nat.zero_add, node_start]
  refine h.startCount_eq g hkind (· ≤ n.start) (· ≤ r.texts.offset n.start) fun p _ => ?_
  exact decide_eq_decide.2 (Shift.le_iff (f := h.shift g) (Inserts.kept_shift _ _))

theorem startsBefore_node {n : Node} (hn : n.Below s.root) :
    (r.source s).startsBefore (r.node n).stop = 0 + s.startsBefore n.stop := by
  rw [Nat.zero_add]
  exact h.startCount_eq g hkind (· < n.stop) (· < (r.node n).stop) fun p hp =>
    decide_eq_decide.2 (h.start_lt_iff g hkind hn hp)

/-- A token stands to a node as before. -/
theorem stands_alike {n : Node} (hn : n.Below s.root) {i : Nat} {t t' : Token} (ht : s.At i t)
    (ht' : (r.source s).At (0 + i) t') :
    (t'.start < (r.node n).stop ↔ t.start < n.stop) ∧
      ((r.node n).start < t'.stop ↔ n.start < t.stop) ∧
      ((r.node n).start = t'.start ↔ n.start = t.start) := by
  obtain ⟨p, hp, rfl, rfl⟩ := h.exists_piece g hkind ht ht'
  refine ⟨h.start_lt_iff g hkind hn hp, ?_, ?_⟩
  · rw [node_start]
    exact Shift.node_start_lt_iff n (Inserts.Suits.solid (h.texts g) hp)
  · rw [node_start]
    exact Shift.map_inj (f := h.shift g) (Inserts.kept_shift _ _) (Inserts.kept_shift _ _)

omit hkind in
/-- Two children of a node are one node just as before. -/
theorem same_node {n c d : Node} (hn : n.Below s.root) (hc : c ∈ n.children)
    (hd : d ∈ n.children) : (r.node c).same (r.node d) = c.same d := by
  rw [Bool.eq_iff_iff]
  simp only [Node.same, node_kind, Bool.and_eq_true, beq_iff_eq, and_assoc,
    h.range_eq_iff g hn hc hd]

omit h g hkind in
theorem lineOfNode_node (n : Node)
    (hrow : ∀ line, r.texts.row s.buffer s.pieces line = line) :
    (r.source s).lineOfNode (r.node n) = s.lineOfNode n := by
  rw [Source.lineOfNode, node_start]
  exact Inserts.lineOf_offset_of_row hrow n.start

/-- The source in the source with comments, with the nodes below the root. -/
def embedding : Embedding s (r.source s) where
  skip := 0
  row := r.texts.row s.buffer s.pieces
  move := r.node
  Domain n := n.Below s.root
  fits := (h.finds g hkind).fits
  token_kind ht ht' := (h.reads_alike g hkind ht ht').1
  token_value ht ht' := (h.reads_alike g hkind ht ht').2.1
  token_line ht ht' := (h.reads_alike g hkind ht ht').2.2
  row_lt := (h.texts g).row_lt
  token_order := (h.finds g hkind).token_order
  baseLevel := h.baseLevel_eq g hkind
  opening hskip := absurd hskip (Nat.succ_ne_zero _)
  closing ht' := absurd ht' (h.not_at_behind g hkind (Nat.le_refl _))
  move_kind := r.node_kind
  move_isNamed := r.node_isNamed
  move_fields := r.node_fields
  move_children := r.woven_children
  move_head := h.head?_node
  domain_child hn hc := hn.below_of_mem hc
  startsUpTo _ := h.startsUpTo_node g hkind _
  startsBefore := h.startsBefore_node g hkind
  start_lt hn ht ht' := (h.stands_alike g hkind hn ht ht').1
  lt_stop hn ht ht' := (h.stands_alike g hkind hn ht ht').2.1
  start_eq hn ht ht' := (h.stands_alike g hkind hn ht ht').2.2
  same_iff := h.same_node g
  before _ hk := absurd hk (Nat.not_lt_zero _)
  behind _ hk ht' := absurd ht' (h.not_at_behind g hkind hk)
  lineOfNode _ := lineOfNode_node _

theorem full_embedding : (h.embedding g hkind).Full := ⟨rfl, h.size_tokens_eq g hkind⟩

/-! ## walks -/

/-- The walks through both trees meet places that are alike. -/
theorem visited_alike (caseLevels : Int) :
    List.Forall₂ ((h.embedding g hkind).Alike caseLevels) (s.root.visited [])
      ((r.source s).root.visited []) :=
  Embedding.alike_programs hkind ((r.node_kind s.root).trans hkind) (r.woven_children s.root)
    (fun _ hc => .of_mem hc) fun _ _ =>
      ⟨fun _ => .inl (h.full_embedding g hkind), fun _ => .inl (h.full_embedding g hkind)⟩

/-- Both walks go through, and leave registries that agree. -/
theorem registers (caseLevels : Int) :
    (h.embedding g hkind).Registers ((h.embedding g hkind).Places fun _ => False)
        (s.analyze caseLevels).registry ((r.source s).analyze caseLevels).registry ∧
      ((r.source s).analyze caseLevels).fault = none := by
  have hfault := (Source.analyze_pointsBack g caseLevels).1
  have hempty : (h.embedding g hkind).Registers ((h.embedding g hkind).Places fun _ => False)
      ({} : Analysis).registry ({} : Analysis).registry := ⟨fun _ => .none, fun _ => rfl⟩
  obtain ⟨hregistry, hfault'⟩ := Embedding.visitAll_registers (h.visited_alike g hkind caseLevels)
    (fun _ _ _ _ _ _ _ hcarries => ⟨hcarries.2.2, .inl hcarries.2.1⟩) rfl rfl hempty (.inr hfault)
  exact ⟨hregistry, hfault'.trans hfault⟩

/-- Both walks record the same of the same tokens. -/
theorem relations_eq (caseLevels : Int) :
    ((r.source s).analyze caseLevels).registry.relations =
      (s.analyze caseLevels).registry.relations :=
  Embedding.relations_eq (h.full_embedding g hkind)
    (Embedding.carries_visitAll (h.full_embedding g hkind) (h.visited_alike g hkind caseLevels)
      (fun _ hplace => hplace) (Source.analyze_pointsBack g caseLevels).1
      (h.registers g hkind caseLevels).2 .nil)

end Program

end Remarks.Suits

end ScriptIndent
