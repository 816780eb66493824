import ScriptIndent.Proofs.Embedding.Lines
import ScriptIndent.Proofs.Layout.Margins

/-!
# ScriptIndent.Proofs.Layout.Reindent

Levels do not depend on the layout.

A source whose lines get new margins has the same tokens on the same lines, and
its tree lies in the same way to them (`Source.lodges_reindent`).  So the source
with new margins embeds the source exactly, and both have the same levels or fail
in the same way (`Source.checkedLevels_reindent`).

This is asked of the tree only (`Source.Framed`): the children of a node stand in
order and disjoint in it, and the nodes below the root start and end with tokens
or comments.  The margins must not change a token or a comment
(`Margins.Clears`).
-/

namespace ScriptIndent

open Bytes

namespace Source

variable (s : Source)

/-- A node starts in a token or a comment, and ends in one unless it is empty. -/
structure Frames (n : Node) : Prop where
  start : ∃ p ∈ s.pieces, p.start ≤ n.start ∧ n.start < p.stop
  stop : n.start < n.stop → ∃ p ∈ s.pieces, p.start < n.stop ∧ n.stop ≤ p.stop

/-- The tree of a source is nested, and its nodes start and end with the tokens and
comments of the text; the root of a program may start and end anywhere. -/
structure Framed : Prop where
  nested : s.root.Nested
  inText {p : Piece} : p ∈ s.pieces → 0 ≤ p.start ∧ p.stop ≤ s.buffer.bytes.size
  below {n : Node} : n.Below s.root → s.Frames n
  root : s.root.kind = "program" ∨ s.Frames s.root

end Source

/-- No token or comment of a source reaches over the indentation of a line that gets a
margin. -/
def Margins.Clears (m : Margins) (s : Source) : Prop :=
  ∀ line, 0 < line → line ≤ s.buffer.lineCount → (m.blanks line).isSome → ∀ p ∈ s.pieces,
    p.stop ≤ s.buffer.lineStart line ∨
      s.buffer.lineStart line + (s.buffer.indentation line).length ≤ p.start

/-- A block of script in the other text. -/
def Shift.block {b b' : Buffer} (f : Shift b b') (k : ScriptBlock) : ScriptBlock :=
  ⟨f.map k.start, f.map k.stop, k.baseLevel⟩

namespace Source

variable {s : Source} {m : Margins}

/-- A source whose lines get new margins.  The tree and the blocks of script are
shifted with the text. -/
def reindent (s : Source) (m : Margins) : Source :=
  .ofTree (m.reindent s.buffer.bytes.toList).toArray ((m.shift s.buffer).node s.root) s.path
    (s.blocks.map (m.shift s.buffer).block)

/-- The shift of the offsets of a source that gets margins. -/
def marginShift (s : Source) (m : Margins) : Shift s.buffer (s.reindent m).buffer :=
  m.shift s.buffer

/-- What keeps its place is in the same block of script. -/
theorem baseLevel_reindent {t t' : Token} (ho : (s.marginShift m).Kept t.start)
    (hstart : t'.start = (s.marginShift m).map t.start) :
    (s.reindent m).baseLevel t' = s.baseLevel t := by
  refine Shift.baseLevel_map (g := (s.marginShift m).block) rfl (fun _ => rfl) fun k => ?_
  rw [hstart, Shift.block, Shift.le_iff ho, Shift.lt_iff ho]

section Cleared

variable (h : s.Framed) (hm : m.Clears s)

include h hm

theorem solid_of_mem {p : Piece} (hp : p ∈ s.pieces) : (s.marginShift m).Solid p.start p.stop where
  lt := Node.pieces_proper h.nested hp
  nonneg := (h.inText hp).1
  le := (h.inText hp).2
  margins hpos hle hsome := hm _ hpos hle hsome p hp

/-- Tokens and comments are the moved ones. -/
theorem pieces_reindent : (s.reindent m).pieces = s.pieces.map (s.marginShift m).piece :=
  Shift.pieces_node h.nested fun _ hp => solid_of_mem h hm hp

theorem filter_pieces_reindent {keep : Piece → Bool}
    (hkeep : ∀ p, keep ((s.marginShift m).piece p) = keep p) :
    (s.reindent m).pieces.filter keep = (s.pieces.filter keep).map (s.marginShift m).piece := by
  rw [pieces_reindent h hm, List.filter_map]
  congr 1
  exact List.filter_congr fun p _ => hkeep p

theorem codePieces_reindent :
    (s.reindent m).codePieces = s.codePieces.map (s.marginShift m).piece :=
  filter_pieces_reindent h hm fun _ => rfl

theorem commentPieces_reindent :
    (s.reindent m).commentPieces = s.commentPieces.map (s.marginShift m).piece :=
  filter_pieces_reindent h hm fun _ => rfl

theorem size_tokens_reindent : (s.reindent m).tokens.size = s.tokens.size := by
  rw [size_tokens, size_tokens, codePieces_reindent h hm, List.length_map]

/-- Corresponding tokens have starts that are told apart in the same way from what
keeps its place. -/
theorem startCount_reindent (q q' : Offset → Bool)
    (hq : ∀ p ∈ s.codePieces, q' ((s.marginShift m).map p.start) = q p.start) :
    partitionPoint (s.reindent m).tokens.size (fun i => (s.reindent m).tokens[i]?.any (q' ·.start)) =
      partitionPoint s.tokens.size fun i => s.tokens[i]?.any (q ·.start) := by
  rw [size_tokens_reindent h hm]
  congr 1
  funext i
  rw [getElem?_tokens, getElem?_tokens, codePieces_reindent h hm, List.getElem?_map]
  cases hp : s.codePieces[i]? with
  | none => rfl
  | some p => exact hq p (List.mem_of_getElem? hp)

theorem kept_of_mem {p : Piece} (hp : p ∈ s.pieces) : (s.marginShift m).Kept p.start := by
  have hsolid := solid_of_mem h hm hp
  exact Shift.kept_of_solid hsolid (Int.le_refl _) hsolid.lt

/-- The source with new margins has the tokens of the source, and none besides. -/
theorem lodges_reindent : (s.marginShift m).Lodges (s.marginShift m).node
    (fun n => ∀ k : Node, k.Within n → (s.marginShift m).Bounds k) 0 where
  fits := by rw [size_tokens_reindent h hm, Nat.zero_add]
  solid hp := solid_of_mem h hm (mem_pieces_of_mem_codePieces hp)
  pieces hp := by rw [Nat.zero_add, codePieces_reindent h hm, List.getElem?_map, hp, Option.map_some]
  baseLevel {i t t'} ht ht' := by
    obtain ⟨p, hp, rfl⟩ := exists_codePiece ht
    obtain ⟨p', hp', rfl⟩ := exists_codePiece ht'
    rw [Nat.zero_add, codePieces_reindent h hm, List.getElem?_map, hp, Option.map_some] at hp'
    obtain rfl := Option.some.inj hp'
    have hmem := mem_pieces_of_mem_codePieces (List.mem_of_getElem? hp)
    exact baseLevel_reindent (kept_of_mem h hm hmem) rfl
  opening hskip := absurd hskip (Nat.succ_ne_zero _)
  closing ht' := by
    have := (Array.getElem?_eq_some_iff.1 ht').1
    rw [size_tokens_reindent h hm] at this
    omega
  mirrors := Shift.mirrors_node _
  child hn hc k hk := hn k (hk.trans (.of_mem hc))
  bounds {n} hn := hn n (.refl n)
  start _ := Shift.node_start _ _
  stop _ := Shift.node_stop _ _
  head _ := by rw [Shift.node_children]
  startsUpTo {n} hn := by
    rw [Nat.zero_add]
    refine startCount_reindent h hm (· ≤ n.start) (· ≤ (s.marginShift m).map n.start) fun p _ => ?_
    exact decide_eq_decide.2 (Shift.le_iff (hn n (.refl n)).first)
  startsBefore {n} hn := by
    rw [Nat.zero_add]
    refine startCount_reindent h hm (· < n.stop) (· < (s.marginShift m).stop n.start n.stop)
      fun p hp => ?_
    have hkept := kept_of_mem h hm (mem_pieces_of_mem_codePieces hp)
    exact decide_eq_decide.2 ((hn n (.refl n)).lt_stop_iff hkept)
  before _ hk := absurd hk (Nat.not_lt_zero _)
  behind _ hk ht' := by
    have := (Array.getElem?_eq_some_iff.1 ht').1
    rw [size_tokens_reindent h hm] at this
    omega
  line _ _ := m.lineOf_offset s.buffer _

/-- The embedding of a source into itself with new margins. -/
noncomputable abbrev marginEmbedding : Embedding s (s.reindent m) := (lodges_reindent h hm).embedding

theorem exact_marginEmbedding : (marginEmbedding h hm).Exact :=
  ⟨⟨rfl, size_tokens_reindent h hm⟩, fun _ => rfl⟩

/-! ## analyses -/

theorem Frames.bounds {n : Node} (hn : s.Frames n) (hle : n.start ≤ n.stop) :
    (s.marginShift m).Bounds n where
  le := hle
  first := by
    obtain ⟨p, hp, hstart, hlt⟩ := hn.start
    exact Shift.kept_of_solid (solid_of_mem h hm hp) hstart hlt
  last hlt := by
    obtain ⟨p, hp, hstart, hstop⟩ := hn.stop hlt
    exact Shift.kept_of_solid (solid_of_mem h hm hp) (by lia) (by lia)

theorem domain_of_within {n : Node} (hn : n.Within s.root) (hroot : s.Frames s.root) :
    (marginEmbedding h hm).Domain n := by
  intro k hk
  have hwithin := hk.trans hn
  have hle := (h.nested.of_within hwithin).le
  rcases hwithin.eq_or_below with rfl | hbelow
  · exact hroot.bounds h hm hle
  · exact (h.below hbelow).bounds h hm hle

theorem domain_of_below {n : Node} (hn : n.Below s.root) : (marginEmbedding h hm).Domain n := by
  intro k hk
  obtain ⟨c, hc, hn⟩ := hn
  have hbelow : k.Below s.root := ⟨c, hc, hk.trans hn⟩
  exact (h.below hbelow).bounds h hm (h.nested.of_within hbelow.within).le

/-- The walks through both trees meet places that are alike. -/
theorem visited_reindent (caseLevels : Int) :
    List.Forall₂ ((marginEmbedding h hm).Alike caseLevels) (s.root.visited [])
      ((s.reindent m).root.visited []) := by
  have hexact := exact_marginEmbedding h hm
  have hnil : Embedding.Barrier [] := fun a ha => by cases ha
  have hroot' : (s.reindent m).root = (marginEmbedding h hm).move s.root := rfl
  rw [hroot']
  rcases h.root with hkind | hroot
  · refine Embedding.alike_programs hkind ?_ ((marginEmbedding h hm).move_children _)
      (fun c hc => domain_of_below h hm (.of_mem hc)) fun _ _ => ?_
    · rw [(marginEmbedding h hm).move_kind, hkind]
    · exact ⟨fun _ => .inl hexact.1, fun _ => .inl hexact.1⟩
  · have hmoves : List.Forall₂ ((marginEmbedding h hm).PlaceMoves [] [])
        (s.root.visited ([] ++ [])) (((marginEmbedding h hm).move s.root).visited
          (([] : List Node).map (marginEmbedding h hm).move ++ [])) :=
      Embedding.visited_move (domain_of_within h hm (.refl s.root) hroot) (by simp)
        (.singleton s.root)
    exact hmoves.imp fun place place' hplace =>
      hplace.alike hnil hnil (fun _ => .inl hexact.1) fun _ => .inl hexact.1

/-- Tokens and comments stand on the same lines. -/
theorem lines_reindent : (marginEmbedding h hm).LinesStay s.lines (s.reindent m).lines := by
  have hitems : (s.reindent m).items =
      s.items.map fun x => ((s.marginShift m).piece x.1, x.2) := by
    rw [items, items, codePieces_reindent h hm, commentPieces_reindent h hm, List.map_append,
      List.zipIdx_map, List.map_map, List.map_map, List.map_map, List.map_map]
    rfl
  have hsorted : (s.reindent m).sortedItems =
      s.sortedItems.map fun x => ((s.marginShift m).piece x.1, x.2) := by
    rw [sortedItems, sortedItems, hitems, List.map_mergeSort]
    rintro ⟨p, i⟩ - ⟨q, j⟩ hq
    exact (decide_eq_decide.2
      (Shift.le_iff (kept_of_mem h hm (s.mem_pieces_of_mem_items hq)))).symm
  have haligned : List.Forall₂ (marginEmbedding h hm).Aligned s.merged (s.reindent m).merged := by
    rw [merged_eq, merged_eq, hsorted, List.map_map, List.forall₂_map_left_iff,
      List.forall₂_map_right_iff, List.forall₂_same]
    rintro ⟨p, i⟩ hp
    have halign := (lodges_reindent h hm).toFinds.aligned
      (m := marginEmbedding h hm) rfl rfl
      (fun q hq => solid_of_mem h hm (List.mem_filter.1 hq).1)
      (List.mem_mergeSort.1 hp)
    have hid : i.map (0 + ·) = i := by cases i <;> simp
    rwa [hid] at halign
  exact Embedding.Aligned.linesStay (Embedding.groupsFrom_aligned haligned .nil 0)

end Cleared

/-- Blocks of script start on the same lines. -/
theorem withoutBlockStarts_reindent (s : Source) (m : Margins) (levels : LineLevels) :
    (s.reindent m).withoutBlockStarts levels = s.withoutBlockStarts levels := by
  rw [withoutBlockStarts, withoutBlockStarts]
  have hblocks : (s.reindent m).blocks = s.blocks.map (s.marginShift m).block := rfl
  refine List.filter_congr ?_
  rintro ⟨line, level⟩ -
  dsimp only
  rw [hblocks, List.any_map]
  congr 2
  funext b
  have hline : (s.reindent m).buffer.lineOf ((s.marginShift m).block b).start =
      s.buffer.lineOf b.start := m.lineOf_offset s.buffer b.start
  simp only [Function.comp, hline]

/-- The levels of a source whose lines get new margins are those of the source, and
if there are none the failure is the same. -/
theorem checkedLevels_reindent (h : s.Framed) (hm : m.Clears s) (caseLevels : Int) :
    (s.reindent m).checkedLevels ((s.reindent m).analyze caseLevels) =
      s.checkedLevels (s.analyze caseLevels) := by
  let e := marginEmbedding h hm
  have hexact : e.Exact := exact_marginEmbedding h hm
  have hshift : ∀ levels, e.shift levels = levels := fun levels => List.map_id _
  obtain ⟨hregistry, hfault⟩ : e.Registers (e.Places fun _ => False)
      (s.analyze caseLevels).registry ((s.reindent m).analyze caseLevels).registry ∧
      ((s.reindent m).analyze caseLevels).fault = (s.analyze caseLevels).fault :=
    Embedding.visitAll_registers (visited_reindent h hm caseLevels)
      (fun _ _ _ _ _ _ _ hcarries => ⟨hcarries.2.2, .inl hcarries.2.1⟩) rfl rfl
      ⟨fun _ => .none, fun _ => rfl⟩ (.inl hexact)
  have hknows : e.Knows [] [] := fun _ _ _ => rfl
  have hsettles := Embedding.settle_registers hregistry hknows (fun _ hb => hb.elim)
    (lines_reindent h hm)
  rw [checkedLevels, checkedLevels, hfault]
  cases (s.analyze caseLevels).fault with
  | some fault => rfl
  | none =>
    generalize ((s.analyze caseLevels).registry.settle [] s.lines).result = x at hsettles
    generalize (((s.reindent m).analyze caseLevels).registry.settle []
      (s.reindent m).lines).result = x' at hsettles
    cases hsettles with
    | ok levels =>
      dsimp only
      rw [hshift, withoutBlockStarts_reindent]
    | error hcycle =>
      have hproblem := hcycle.line_eq
      dsimp only
      rw [Problem.ofCycle, Problem.ofCycle, hcycle.line_eq, hcycle.value_eq]
      rfl

end Source

end ScriptIndent
