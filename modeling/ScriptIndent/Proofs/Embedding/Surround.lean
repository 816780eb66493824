import ScriptIndent.Proofs.Embedding.Excerpt
import ScriptIndent.Proofs.Embedding.Levels

/-!
# ScriptIndent.Proofs.Embedding.Surround

A source in the middle of another.

```
s'   before ┆            ┆ after
            ┆ t₀ t₁ … tₙ ┆
s           ┆ t₀ t₁ … tₙ ┆
```

The text of one source is found in that of another, its pieces among the pieces of the
other, and what comes before and behind stands on other lines (`Source.Surrounds`).  So
the source is embedded (`Surrounds.embedding`), and the lines of both meet
(`Surrounds.meets`).
-/

namespace ScriptIndent

namespace Source

variable {s : Source}

/-! ## sources in the middle of others -/

/-- A source is found in the middle of another, behind some bytes and pieces and before
others, which stand on other lines.  Its own pieces stand between two offsets. -/
structure Surrounds (s' s : Source) (xs zs : List UInt8) (before after : List Piece)
    (lo hi : Offset) : Prop where
  text : s'.buffer.bytes.toList = xs ++ (s.buffer.bytes.toList ++ zs)
  pieces : s'.root.pieces s'.buffer =
    before ++ ((s.root.pieces s.buffer).map (Shift.excerpt text).piece ++ after)
  between : Piece.Between lo hi (s.root.pieces s.buffer)
  nonneg : 0 ≤ lo
  le : hi ≤ s.buffer.bytes.size
  ordered : ∃ lo' hi', Piece.Between lo' hi' (s'.root.pieces s'.buffer)
  above {p : Piece} : p ∈ before →
    s'.buffer.lineOf (p.stop - 1) < s'.buffer.lineOf (lo + xs.length)
  below {p : Piece} : p ∈ after →
    s'.buffer.lineOf (hi + xs.length) < s'.buffer.lineOf p.start
  baseLevel {t t' : Token} : t'.start = t.start + xs.length → s'.baseLevel t' = s.baseLevel t
  /-- No parenthesis opens directly before the source. -/
  opening {k : Nat} {t' : Token} : k + 1 = Piece.codeCount before → s'.At k t' →
    t'.isOpeningParen = false
  /-- No parenthesis closes directly behind the source. -/
  closing {t' : Token} : s'.At (Piece.codeCount before + s.tokens.size) t' →
    t'.isClosingParen = false

namespace Surrounds

variable {s' : Source} {xs zs : List UInt8} {before after : List Piece} {lo hi : Offset}

/-- Offsets on an earlier line come before. -/
theorem lt_of_lineOf_lt {b : Buffer} {o p : Offset} (h : b.lineOf o < b.lineOf p) : o < p :=
  Int.lt_of_not_ge fun hle => Nat.not_lt.2 (b.lineOf_mono hle) h

section Order

variable (h : s'.Surrounds s xs zs before after lo hi)

include h

theorem ordered_inner : s.Ordered := ordered_of_between h.between

theorem ordered_outer : s'.Ordered := by
  obtain ⟨_, _, hbetween⟩ := h.ordered
  exact ordered_of_between hbetween

theorem stop_le {p : Piece} (hp : p ∈ before) : p.stop ≤ lo + xs.length := by
  have := lt_of_lineOf_lt (h.above hp)
  lia

theorem lt_start {p : Piece} (hp : p ∈ after) : hi + xs.length < p.start :=
  lt_of_lineOf_lt (h.below hp)

theorem codePieces_eq : s'.codePieces = before.filter (!·.isComment) ++
    (s.codePieces.map (Shift.excerpt h.text).piece ++ after.filter (!·.isComment)) := by
  rw [codePieces, h.pieces, List.filter_append, List.filter_append, List.filter_map, codePieces]
  rfl

theorem solid {p : Piece} (hp : p ∈ s.root.pieces s.buffer) :
    (Shift.excerpt h.text).Solid p.start p.stop := by
  obtain ⟨hlo, hlt, hhi⟩ := h.between.mem hp
  exact ⟨Int.le_trans h.nonneg hlo, hlt, Int.le_trans hhi h.le⟩

theorem size_eq : s'.tokens.size =
    Piece.codeCount before + (s.tokens.size + Piece.codeCount after) := by
  rw [size_tokens, size_tokens, h.codePieces_eq, List.length_append, List.length_append,
    List.length_map, Piece.codeCount_eq_length_filter, Piece.codeCount_eq_length_filter]

/-- The code pieces of the smaller source, moved. -/
theorem getElem?_codePieces {i : Nat} {p : Piece} (hp : s.codePieces[i]? = some p) :
    s'.codePieces[Piece.codeCount before + i]? = some ((Shift.excerpt h.text).piece p) := by
  have hi : i < (s.codePieces.map (Shift.excerpt h.text).piece).length := by
    rw [List.length_map]
    exact (List.getElem?_eq_some_iff.1 hp).1
  rw [h.codePieces_eq, Piece.codeCount_eq_length_filter, List.getElem?_append_right (by omega),
    Nat.add_sub_cancel_left, List.getElem?_append_left hi, List.getElem?_map, hp,
    Option.map_some]

/-- A token of the larger source is made of a piece before the smaller one, of a moved
piece, or of a piece behind. -/
theorem token_cases {k : Nat} {t' : Token} (ht' : s'.At k t') :
    (k < Piece.codeCount before ∧ ∃ p ∈ before, t' = s'.buffer.token p (some k)) ∨
      (∃ i p t, k = Piece.codeCount before + i ∧ s.codePieces[i]? = some p ∧ s.At i t ∧
        t.start = p.start ∧
        t' = s'.buffer.token ((Shift.excerpt h.text).piece p) (some k)) ∨
      (Piece.codeCount before + s.tokens.size ≤ k ∧
        ∃ p ∈ after, t' = s'.buffer.token p (some k)) := by
  obtain ⟨p', hp', rfl⟩ := exists_codePiece ht'
  have hcodes := h.codePieces_eq
  rw [Piece.codeCount_eq_length_filter, size_tokens]
  rcases Nat.lt_or_ge k (before.filter (!·.isComment)).length with hk | hk
  · rw [hcodes, List.getElem?_append_left hk] at hp'
    exact .inl ⟨hk, p', (List.mem_filter.1 (List.mem_of_getElem? hp')).1, rfl⟩
  obtain ⟨i, rfl⟩ := Nat.exists_eq_add_of_le hk
  rw [hcodes, List.getElem?_append_right hk, Nat.add_sub_cancel_left] at hp'
  have hlen : (s.codePieces.map (Shift.excerpt h.text).piece).length = s.codePieces.length :=
    List.length_map _
  rcases Nat.lt_or_ge i (s.codePieces.map (Shift.excerpt h.text).piece).length with hl | hl
  · rw [List.getElem?_append_left hl, List.getElem?_map, Option.map_eq_some_iff] at hp'
    obtain ⟨p, hp, rfl⟩ := hp'
    refine .inr (.inl ⟨i, p, s.buffer.token p (some i), rfl, hp, ?_, rfl, rfl⟩)
    rw [At, getElem?_tokens, hp, Option.map_some]
  · rw [List.getElem?_append_right hl] at hp'
    exact .inr (.inr ⟨by omega, p', (List.mem_filter.1 (List.mem_of_getElem? hp')).1, rfl⟩)

/-- A node of the smaller source with the tokens counted that start before a place in
it. -/
theorem count_eq (q q' : Offset → Bool) {c : Nat} (hc : c ≤ s.tokens.size)
    (hinner : ∀ i t, s.At i t → (q t.start = true ↔ i < c))
    (hmoved : ∀ p ∈ s.codePieces, q' (p.start + xs.length) = q p.start)
    (hbefore : ∀ p ∈ before, p.start < p.stop → q' p.start = true)
    (hafter : ∀ p ∈ after, q' p.start = false) :
    partitionPoint s'.tokens.size (fun k => s'.tokens[k]?.any (q' ·.start)) =
      Piece.codeCount before + c := by
  refine partitionPoint_eq (by rw [h.size_eq]; omega) fun k hk => ?_
  have hget : s'.At k s'.tokens[k] := Array.getElem?_eq_getElem hk
  rw [hget, Option.any_some]
  have hproper := h.ordered_outer.proper hget
  rcases h.token_cases hget with ⟨hlt, p, hp, heq⟩ | ⟨i, p, t, rfl, hp, ht, hstart, heq⟩ |
    ⟨hle, p, hp, heq⟩
  · rw [heq] at hproper ⊢
    simp only [Buffer.token, hbefore p hp hproper, true_iff]
    omega
  · rw [heq]
    have hiff := hinner i t ht
    rw [hstart, ← hmoved p (List.mem_of_getElem? hp)] at hiff
    refine hiff.trans ?_
    omega
  · rw [heq]
    simp only [Buffer.token, hafter p hp, Bool.false_eq_true, false_iff]
    omega

/-- The source is embedded, with the nodes that stand between the offsets. -/
theorem lodges : (Shift.excerpt h.text).Lodges (Node.shift xs.length)
    (fun n => n.Nested ∧ lo ≤ n.start ∧ n.stop ≤ hi) (Piece.codeCount before) where
  fits := by
    rw [h.size_eq]
    omega
  solid hp := h.solid (List.mem_filter.1 hp).1
  pieces := h.getElem?_codePieces
  baseLevel {i t t'} ht ht' := by
    obtain ⟨p, hp, rfl⟩ := exists_codePiece ht
    obtain ⟨p', hp', rfl⟩ := exists_codePiece ht'
    obtain rfl := Option.mem_unique (h.getElem?_codePieces hp) hp'
    exact h.baseLevel rfl
  opening := h.opening
  closing {t'} ht' := by
    refine ⟨h.closing ht', fun i t ht => ?_⟩
    rcases h.token_cases ht' with ⟨hlt, -⟩ | ⟨j, p, u, hj, hp, hu, -⟩ | ⟨-, p, hp, rfl⟩
    · omega
    · obtain rfl : s.tokens.size = j := by omega
      have := (Array.getElem?_eq_some_iff.1 hu).1
      omega
    obtain ⟨q, hq, rfl⟩ := exists_codePiece ht
    obtain ⟨hlo, hlt, hhi⟩ := h.between.mem (List.mem_filter.1 (List.mem_of_getElem? hq)).1
    have hnonneg := h.nonneg
    have hle := h.le
    have hline := Shift.lineOf_shift h.text (o := q.start) (by lia) (by lia)
    have hmono := s'.buffer.lineOf_mono (o := q.start + xs.length) (p := hi + xs.length) (by lia)
    have hbelow := h.below hp
    change s.buffer.lineOf q.start + Bytes.feeds xs < s'.buffer.lineOf p.start
    omega
  mirrors := by
    have hmirrors := Shift.mirrors_node (Shift.excerpt h.text)
    rwa [show (Shift.excerpt h.text).node = Node.shift xs.length from
      funext Shift.node_excerpt] at hmirrors
  child {n c} hn hc := by
    obtain ⟨hnested, hlo, hhi⟩ := hn
    obtain ⟨h₁, -, h₂⟩ := hnested.inOrder.mem hc
    exact ⟨hnested.of_mem hc, Int.le_trans hlo h₁, Int.le_trans h₂ hhi⟩
  bounds hn := Shift.bounds_excerpt hn.1.le
  start _ := Node.shift_start _
  stop _ := by rw [Node.shift_stop, Shift.stop_excerpt]
  head _ := by rw [Node.shift_children]
  startsUpTo {n} hn := by
    obtain ⟨hnested, hlo, hhi⟩ := hn
    have hle := hnested.le
    refine h.count_eq (· ≤ n.start) (· ≤ n.start + xs.length)
      (partitionPoint_le _ _) (fun i t ht => ?_) (fun p _ => ?_) (fun p hp hlt => ?_) fun p hp => ?_
    · rw [decide_eq_true_eq, h.ordered_inner.lt_startsUpTo_iff ht]
    · exact decide_eq_decide.2 (by lia)
    · have := h.stop_le hp
      exact decide_eq_true (by lia)
    · have := h.lt_start hp
      exact decide_eq_false (by lia)
  startsBefore {n} hn := by
    obtain ⟨hnested, hlo, hhi⟩ := hn
    have hle := hnested.le
    rw [Shift.stop_excerpt]
    refine h.count_eq (· < n.stop) (· < n.stop + xs.length)
      (partitionPoint_le _ _) (fun i t ht => ?_) (fun p _ => ?_) (fun p hp hlt => ?_) fun p hp => ?_
    · rw [decide_eq_true_eq, h.ordered_inner.lt_startsBefore_iff ht]
    · exact decide_eq_decide.2 (by lia)
    · have := h.stop_le hp
      exact decide_eq_true (by lia)
    · have := h.lt_start hp
      exact decide_eq_false (by lia)
  before {n k t'} hn hk ht' := by
    rcases h.token_cases ht' with ⟨-, p, hp, rfl⟩ | ⟨i, p, t, rfl, -⟩ | ⟨hle, -⟩
    · have := h.stop_le hp
      obtain ⟨-, hlo, -⟩ := hn
      change p.stop ≤ n.start + xs.length
      lia
    · omega
    · omega
  behind {n k t'} hn hk ht' := by
    rcases h.token_cases ht' with ⟨hlt, -⟩ | ⟨i, p, t, rfl, -, ht, -⟩ | ⟨-, p, hp, rfl⟩
    · omega
    · have := (Array.getElem?_eq_some_iff.1 ht).1
      omega
    · have := h.lt_start hp
      obtain ⟨-, -, hhi⟩ := hn
      rw [Shift.stop_excerpt]
      change n.stop + xs.length ≤ p.start
      lia
  line {n} hn hrow := by
    obtain ⟨hnested, hlo, hhi⟩ := hn
    have hle := hnested.le
    have hnonneg := h.nonneg
    have hsize := h.le
    change s'.buffer.lineOf (n.start + xs.length) = _
    rw [Shift.lineOf_shift h.text (by lia) (by lia)]
    exact hrow _

/-- The embedding of a source into one around it. -/
noncomputable abbrev embedding : Embedding s s' := h.lodges.embedding

theorem skip_embedding : h.embedding.skip = Piece.codeCount before := rfl

theorem move_embedding (n : Node) : h.embedding.move n = n.shift xs.length := rfl

theorem domain_embedding {n : Node} :
    h.embedding.Domain n ↔ n.Nested ∧ lo ≤ n.start ∧ n.stop ≤ hi := .rfl

end Order

/-! ## lines -/

theorem numbered_map (g : Piece → Piece) (hg : ∀ p, (g p).isComment = p.isComment) (k l : Nat)
    (ps : List Piece) :
    numbered (k + l) (ps.map g) = (numbered l ps).map fun x => (g x.1, x.2.map (k + ·)) := by
  induction ps generalizing l with
  | nil => rfl
  | cons p rest ih =>
    rw [List.map_cons, numbered, numbered, hg]
    split
    · rw [ih]
      rfl
    · rw [Nat.add_assoc, ih]
      rfl

/-- What the numbered pieces become has the lines of the pieces. -/
theorem mem_tokensOf_numbered {k : Nat} {ps : List Piece} {t : Token}
    (ht : t ∈ (numbered k ps).map s.tokenOf) :
    ∃ p ∈ ps, ∃ i, t = s.buffer.token p i ∧
      ∀ j, i = some j → k ≤ j ∧ j < k + Piece.codeCount ps := by
  obtain ⟨⟨p, i⟩, hp, rfl⟩ := List.mem_map.1 ht
  refine ⟨p, ?_, i, rfl, ?_⟩
  · rw [← map_numbered k ps]
    exact List.mem_map_of_mem hp
  rintro j rfl
  have hmem := (numbered_perm k ps).mem_iff.1 hp
  rw [List.mem_append, List.mem_map, List.mem_map] at hmem
  rcases hmem with ⟨⟨q, l⟩, hq, heq⟩ | ⟨q, -, heq⟩
  · obtain ⟨rfl, hl⟩ := Prod.mk.injEq .. ▸ heq
    obtain rfl := Option.some.inj hl
    obtain ⟨h₁, h₂⟩ := List.mem_zipIdx hq
    rw [Piece.codeCount_eq_length_filter]
    omega
  · simp at heq

theorem endLine_token {b : Buffer} {p : Piece} (hp : p.start < p.stop) (i : Option Nat) :
    (b.token p i).endLine = b.lineOf (p.stop - 1) := by
  rw [Buffer.token, Int.max_eq_right (by lia)]

section Order

variable (h : s'.Surrounds s xs zs before after lo hi)

include h

/-- The tokens and comments of the larger source, those before the smaller source first,
and those behind it last. -/
theorem merged_eq : s'.merged = (numbered 0 before).map s'.tokenOf ++
    ((numbered (Piece.codeCount before)
        ((s.root.pieces s.buffer).map (Shift.excerpt h.text).piece)).map s'.tokenOf ++
      (numbered (Piece.codeCount before + s.tokens.size) after).map s'.tokenOf) := by
  obtain ⟨_, _, hbetween⟩ := h.ordered
  have hcount : Piece.codeCount ((s.root.pieces s.buffer).map (Shift.excerpt h.text).piece) =
      s.tokens.size := by
    rw [Shift.codeCount_map, size_tokens, codePieces, ← Piece.codeCount_eq_length_filter]
  rw [s'.merged_eq_numbered hbetween, h.pieces, numbered_append, numbered_append,
    List.map_append, List.map_append, hcount, Nat.zero_add]

/-- The tokens and comments of the smaller source and where they are found. -/
theorem aligned : List.Forall₂ h.embedding.Aligned s.merged
    ((numbered (Piece.codeCount before)
      ((s.root.pieces s.buffer).map (Shift.excerpt h.text).piece)).map s'.tokenOf) := by
  have hnumbered := numbered_map (Shift.excerpt h.text).piece (fun _ => rfl)
    (Piece.codeCount before) 0 (s.root.pieces s.buffer)
  rw [Nat.add_zero] at hnumbered
  rw [s.merged_eq_numbered h.between, hnumbered, List.map_map,
    List.forall₂_map_left_iff, List.forall₂_map_right_iff, List.forall₂_same]
  rintro ⟨p, i⟩ hp
  refine h.lodges.toFinds.aligned rfl rfl (fun q hq => h.solid (List.mem_filter.1 hq).1) ?_
  exact (numbered_perm 0 _).mem_iff.1 hp

/-- The tokens before the smaller source are listed first. -/
theorem mem_before {k : Nat} {t : Token} (hk : k < Piece.codeCount before) (ht : s'.At k t) :
    t ∈ (numbered 0 before).map s'.tokenOf := by
  obtain ⟨p, hp, rfl⟩ := exists_codePiece ht
  rw [h.codePieces_eq, List.getElem?_append_left
    (by rwa [← Piece.codeCount_eq_length_filter])] at hp
  refine List.mem_map.2 ⟨(p, some k), (numbered_perm 0 before).mem_iff.2 ?_, rfl⟩
  exact List.mem_append_left _
    (List.mem_map.2 ⟨(p, k), List.mem_zipIdx_iff_getElem?.2 hp, rfl⟩)

/-- What comes before or behind is not found in the smaller source. -/
theorem not_owns {k : Nat} (ps : List Piece)
    (hk : k + Piece.codeCount ps ≤ Piece.codeCount before ∨
      Piece.codeCount before + s.tokens.size ≤ k) :
    ∀ line ∈ groupsFrom 0 [] ((numbered k ps).map s'.tokenOf), ∀ t' ∈ Registry.codeOf line,
      h.embedding.owns t' = false := by
  intro line hline t' ht'
  have hflatten := flatten_groupsFrom 0 [] ((numbered k ps).map s'.tokenOf)
  rw [List.reverse_nil, List.nil_append] at hflatten
  have hmem : t' ∈ (numbered k ps).map s'.tokenOf := by
    rw [← hflatten]
    exact List.mem_flatten.2 ⟨line, hline, (List.mem_filter.1 ht').1⟩
  obtain ⟨p, -, i, rfl, hi⟩ := mem_tokensOf_numbered hmem
  cases i with
  | none => rfl
  | some j =>
    have hj := hi j rfl
    change (decide (Piece.codeCount before ≤ j) &&
      decide (j < Piece.codeCount before + s.tokens.size)) = false
    rw [Bool.and_eq_false_iff, decide_eq_false_iff_not, decide_eq_false_iff_not]
    omega

/-- What comes before the smaller source ends above its lines. -/
theorem endLine_lt_of_before {t : Token} (ht : t ∈ (numbered 0 before).map s'.tokenOf) :
    t.endLine < s'.buffer.lineOf (lo + xs.length) := by
  obtain ⟨_, _, hbetween⟩ := h.ordered
  rw [h.pieces] at hbetween
  obtain ⟨p, hp, i, rfl, -⟩ := mem_tokensOf_numbered ht
  rw [endLine_token (hbetween.mem (List.mem_append_left _ hp)).2.1]
  exact h.above hp

/-- Where the tokens and comments of the smaller source stand. -/
theorem line_of_middle {t : Token} (ht : t ∈ (numbered (Piece.codeCount before)
      ((s.root.pieces s.buffer).map (Shift.excerpt h.text).piece)).map s'.tokenOf) :
    s'.buffer.lineOf (lo + xs.length) ≤ t.line ∧ t.line ≤ t.endLine ∧
      t.endLine ≤ s'.buffer.lineOf (hi + xs.length) := by
  obtain ⟨p, hp, i, rfl, -⟩ := mem_tokensOf_numbered ht
  obtain ⟨q, hq, rfl⟩ := List.mem_map.1 hp
  obtain ⟨h₁, h₂, h₃⟩ := h.between.mem hq
  have hstop : ((Shift.excerpt h.text).piece q).stop = q.stop + xs.length :=
    Shift.stop_excerpt _ _
  have hstart : ((Shift.excerpt h.text).piece q).start = q.start + xs.length := rfl
  rw [endLine_token (by rw [hstart, hstop]; lia), hstop]
  refine ⟨Buffer.lineOf_mono _ ?_, Buffer.lineOf_mono _ ?_, Buffer.lineOf_mono _ (by lia)⟩
  · rw [hstart]
    lia
  · rw [hstart]
    lia

/-- What comes behind the smaller source starts below its lines. -/
theorem lt_line_of_after {t : Token}
    (ht : t ∈ (numbered (Piece.codeCount before + s.tokens.size) after).map s'.tokenOf) :
    s'.buffer.lineOf (hi + xs.length) < t.line ∧ t.line ≤ t.endLine := by
  obtain ⟨_, _, hbetween⟩ := h.ordered
  rw [h.pieces] at hbetween
  obtain ⟨p, hp, i, rfl, -⟩ := mem_tokensOf_numbered ht
  rw [endLine_token (hbetween.mem (List.mem_append_right _ (List.mem_append_right _ hp))).2.1]
  have hproper := (hbetween.mem (List.mem_append_right _ (List.mem_append_right _ hp))).2.1
  exact ⟨h.below hp, Buffer.lineOf_mono _ (by lia)⟩

/-- The tokens of the smaller source are cut into its lines. -/
theorem groupsFrom_aligned : List.Forall₂ (List.Forall₂ h.embedding.Aligned) s.lines
    (groupsFrom 0 [] ((numbered (Piece.codeCount before)
      ((s.root.pieces s.buffer).map (Shift.excerpt h.text).piece)).map s'.tokenOf)) := by
  have haligned := h.aligned
  have hlines := Embedding.groupsFrom_aligned haligned .nil 0
  rw [lines]
  generalize s.merged = ts at haligned hlines
  generalize List.map s'.tokenOf _ = ts' at haligned hlines
  cases haligned with
  | nil => exact hlines
  | @cons t t' _ _ ht _ =>
    have hle : h.embedding.row 0 ≤ t'.endLine := by
      rw [ht.2.2]
      exact Nat.add_le_add_right (Nat.zero_le _) _
    rwa [Embedding.groupsFrom_of_le hle] at hlines

/-- The lines of the larger source: those of what comes before, those of the smaller source,
and those of what comes behind. -/
theorem lines_eq : s'.lines = groupsFrom 0 [] ((numbered 0 before).map s'.tokenOf) ++
    (groupsFrom 0 [] ((numbered (Piece.codeCount before)
        ((s.root.pieces s.buffer).map (Shift.excerpt h.text).piece)).map s'.tokenOf) ++
      groupsFrom 0 [] ((numbered (Piece.codeCount before + s.tokens.size) after).map
        s'.tokenOf)) := by
  have hnonneg := h.nonneg
  have hle := h.between.le
  have hwide := s'.buffer.lineOf_mono (o := lo + xs.length) (p := hi + xs.length) (by lia)
  have hpos := s'.buffer.lineOf_pos (o := lo + xs.length) (by lia)
  have hbehind : ∀ u ∈ (numbered (Piece.codeCount before)
        ((s.root.pieces s.buffer).map (Shift.excerpt h.text).piece)).map s'.tokenOf ++
      (numbered (Piece.codeCount before + s.tokens.size) after).map s'.tokenOf,
      s'.buffer.lineOf (lo + xs.length) ≤ u.line ∧ u.line ≤ u.endLine := by
    intro u hu
    rcases List.mem_append.1 hu with hu | hu
    · have := h.line_of_middle hu
      omega
    · have := h.lt_line_of_after hu
      omega
  rw [lines, h.merged_eq, Embedding.groupsFrom_append fun u hu => (hbehind u hu).2,
    Embedding.groupsFrom_append fun u hu => (h.lt_line_of_after hu).2]
  · intro u hu
    have := h.lt_line_of_after hu
    omega
  · intro t ht u hu
    have := h.line_of_middle ht
    have := h.lt_line_of_after hu
    omega
  · intro u hu
    have := hbehind u hu
    omega
  · intro t ht u hu
    have := h.endLine_lt_of_before ht
    have := hbehind u hu
    omega

/-- The lines of both sources meet, behind the lines of what comes before. -/
theorem meets : ∃ rest, s'.lines = groupsFrom 0 [] ((numbered 0 before).map s'.tokenOf) ++ rest ∧
    h.embedding.Meets s.lines rest := by
  refine ⟨_, h.lines_eq, ?_⟩
  have hmeets := (Embedding.LinesStay.meets (Embedding.Aligned.linesStay h.groupsFrom_aligned)).append
    (Embedding.meets_outside (h.not_owns after (.inr (Nat.le_refl _))))
  rwa [List.append_nil] at hmeets

/-- The leader of a line is found at the beginning of a line. -/
theorem exists_leader {t : Token} (ht : t ∈ leaders s.lines) :
    ∃ t' ∈ leaders s'.lines, h.embedding.Aligned t t' := by
  obtain ⟨line, hline, hhead⟩ := List.mem_filterMap.1 ht
  obtain ⟨line', hline', haligned⟩ := Embedding.exists_of_forall₂ h.groupsFrom_aligned hline
  cases haligned with
  | nil => cases hhead
  | @cons u u' rest rest' hu _ =>
    obtain rfl := Option.some.inj hhead
    refine ⟨u', List.mem_filterMap.2 ⟨u' :: rest', ?_, rfl⟩, hu⟩
    rw [h.lines_eq]
    exact List.mem_append_right _ (List.mem_append_left _ hline')

/-! ## levels -/

section Levels

variable {held : Token → Prop} {lift : Int} {r r' : Registry} {levels levels' : LineLevels}
  (hr : h.embedding.Registers (h.embedding.Lifts held lift) r r')
  (hheld : ∀ b', held b' → ∀ more,
    r'.AddsUp (groupsFrom 0 [] ((numbered 0 before).map s'.tokenOf) ++ more) b' 0)
  (hlevels : (r.settle [] s.lines).result = .ok levels)
  (hlevels' : (r'.settle [] s'.lines).result = .ok levels') {n : Nat} {level : Int}

include hr hheld hlevels hlevels'

/-- A level of the smaller source is one of the larger, but for the lift. -/
theorem mem_levels (hmem : (n, level) ∈ levels) :
    ∃ last, Embedding.LineEndsAt r s.lines n last ∧
      (n + Bytes.feeds xs, Embedding.lifted lift (r.get? last) level) ∈ levels' := by
  obtain ⟨rest, hlines, hmeets⟩ := h.meets
  refine Embedding.mem_levels_of_meets hr hheld
    (h.not_owns before (.inl (by rw [Nat.zero_add]))) hmeets hlines hlevels hlevels' hmem ?_
  intro c hc hline
  obtain ⟨above, t, ⟨rest, below, hlines, hcode, -⟩, rfl, -⟩ :=
    (Embedding.mem_levels_iff hlevels).1 hmem
  obtain ⟨t', ht', ⟨hcomment, -⟩, hline', -⟩ :=
    h.exists_leader (t := t) (List.mem_filterMap.2 ⟨t :: rest, by simp [hlines], rfl⟩)
  rw [Embedding.eq_of_mem_leaders hc ht' (hline.trans hline'.symm), hcomment, hcode]

/-- A level of the larger source is one of the smaller, but for the lift, if the tokens of
the smaller one stand on the line. -/
theorem exists_level {n' : Nat} {level' : Int} (hmem : (n', level') ∈ levels')
    (howns : ∀ t' ∈ s'.tokens, t'.line = n' → h.embedding.owns t' = true) :
    ∃ n level last, n' = n + Bytes.feeds xs ∧ (n, level) ∈ levels ∧
      Embedding.LineEndsAt r s.lines n last ∧
        level' = Embedding.lifted lift (r.get? last) level := by
  obtain ⟨rest, hlines, hmeets⟩ := h.meets
  exact Embedding.exists_level_of_meets hr hheld (h.not_owns before (.inl (by rw [Nat.zero_add])))
    hmeets hlines hlevels hlevels' hmem howns

end Levels

end Order

end Surrounds

end Source

end ScriptIndent
