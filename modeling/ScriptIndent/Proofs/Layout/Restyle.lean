import ScriptIndent.Check.Result
import ScriptIndent.Proofs.Layout.Reindent
import ScriptIndent.Proofs.Offset.Levels

/-!
# ScriptIndent.Proofs.Layout.Restyle

Indenting a source as it should be.

A source whose checked lines are indented as deep as they should be has the same
levels, and no violations (`Source.layout_independent`).
-/

namespace ScriptIndent

open Bytes

/-! ## margins of a style -/

/-- The character that indents. -/
def IndentUnit.blank : IndentUnit → UInt8
  | .space => Bytes.space
  | .tab => Bytes.tab

theorem IndentUnit.isIndent_blank (u : IndentUnit) : isIndent u.blank = true := by
  cases u <;> decide

/-- The indentation that a style asks for at a level. -/
def Style.indent (style : Style) (level : Int) : List UInt8 :=
  List.replicate (level * style.width).toNat style.unit.blank

/-- Lines that have a level are indented to it. -/
def Style.margins (style : Style) (levels : LineLevels) : Margins where
  blanks line := (levels.lookup line).map style.indent
  indents h b hb := by
    rw [Option.map_eq_some_iff] at h
    obtain ⟨level, -, rfl⟩ := h
    rw [(List.mem_replicate.1 hb).2]
    exact style.unit.isIndent_blank

theorem eq_replicate_iff_count {α : Type} [DecidableEq α] {x y : α} (hne : x ≠ y) {xs : List α}
    (h : ∀ a ∈ xs, a = x ∨ a = y) (n : Nat) :
    xs = List.replicate n x ↔ xs.count x = n ∧ xs.count y = 0 := by
  constructor
  · rintro rfl
    simp [List.count_replicate, hne]
  · rintro ⟨rfl, hnone⟩
    have hall : ∀ a ∈ xs, a = x := fun a ha =>
      (h a ha).resolve_right fun heq => List.count_eq_zero.1 hnone (heq ▸ ha)
    rw [List.count_eq_length.2 fun a ha => (hall a ha).symm]
    exact List.eq_replicate_of_mem hall

theorem isIndent_iff {c : UInt8} : isIndent c = true ↔ c = space ∨ c = tab := by
  simp [isIndent]

/-- A line is in order if and only if its indentation is the character of the style as often as the
level asks for. -/
theorem Style.violation?_eq_none_iff (style : Style) (line : Nat) (level : Int) {bs : List UInt8}
    (h : ∀ c ∈ bs, isIndent c = true) : style.violation? bs line level = none ↔
      ∃ n : Nat, n = level * style.width ∧ bs = List.replicate n style.unit.blank := by
  have hblanks : ∀ c ∈ bs, c = space ∨ c = tab := fun c hc => isIndent_iff.1 (h c hc)
  rw [violation?]
  cases style.unit with
  | space =>
    have hcount := eq_replicate_iff_count (by decide : space ≠ tab) hblanks
    simp only [IndentUnit.blank, hcount, ite_eq_left_iff, reduceCtorEq, imp_false, not_not]
    constructor
    · exact fun ⟨hright, hwrong⟩ => ⟨_, hright, rfl, hwrong⟩
    · rintro ⟨n, hright, rfl, hwrong⟩
      exact ⟨hright, hwrong⟩
  | tab =>
    have hcount := eq_replicate_iff_count (by decide : tab ≠ space) fun c hc => (hblanks c hc).symm
    simp only [IndentUnit.blank, hcount, ite_eq_left_iff, reduceCtorEq, imp_false, not_not]
    constructor
    · exact fun ⟨hright, hwrong⟩ => ⟨_, hright, rfl, hwrong⟩
    · rintro ⟨n, hright, rfl, hwrong⟩
      exact ⟨hright, hwrong⟩

/-- A line that is indented to its level is in order. -/
theorem Style.violation?_indent (style : Style) (line : Nat) {level : Int}
    (h : 0 ≤ level * style.width) : style.violation? (style.indent level) line level = none := by
  refine (style.violation?_eq_none_iff line level fun c hc => ?_).2
    ⟨_, Int.toNat_of_nonneg h, rfl⟩
  rw [List.eq_of_mem_replicate hc]
  exact style.unit.isIndent_blank

namespace Margins

variable (m : Margins)

/-- Behind a margin no blank is written before something else. -/
theorem takeWhile_written {c : Cursor} (hc : c.inMargin = true) (bs : List UInt8) :
    (m.written c bs).takeWhile isIndent = [] := by
  induction bs generalizing c with
  | nil => rfl
  | cons b rest ih =>
    rw [written, emit, hc, Bool.true_and]
    by_cases hfeed : b = lineFeed
    · have hindent : isIndent lineFeed = false := by decide
      rw [if_pos hfeed, hfeed, List.cons_append, List.takeWhile_cons, hindent]
      rfl
    rw [if_neg hfeed]
    by_cases hblank : isIndent b = true
    · rw [if_pos hblank, List.nil_append, next, if_neg hfeed]
      exact ih (by rw [hc, hblank]; rfl)
    · rw [if_neg hblank, List.singleton_append, List.takeWhile_cons, if_neg hblank]

/-- A line that gets a margin is indented by it. -/
theorem indentation_buffer {b : Buffer} {line : Nat} (hpos : 0 < line) (hle : line ≤ b.lineCount)
    {bs : List UInt8} (hblanks : m.blanks line = some bs) :
    (m.buffer b).indentation line = bs := by
  obtain ⟨xs, ys, hbytes, rfl, hcolumn, -⟩ := b.exists_line hpos hle
  -- what is written before the line ends with the margin of the line
  obtain ⟨us, hxs, hus⟩ : ∃ us, m.reindent xs = us ++ bs ∧ column us = 0 := by
    rcases List.eq_nil_or_concat' xs with rfl | ⟨zs, c, rfl⟩
    · refine ⟨[], ?_, rfl⟩
      rw [reindent, written, List.append_nil, List.nil_append]
      exact congrArg (Option.getD · []) hblanks
    · have hc : c = lineFeed := by
        by_contra hne
        rw [column_concat, if_neg hne] at hcolumn
        exact absurd hcolumn (Nat.succ_ne_zero _)
      rw [feeds_append, feeds_singleton, if_pos hc] at hblanks
      refine ⟨m.reindent zs ++ [c], ?_, by rw [column_concat, if_pos hc]⟩
      rw [reindent_append, written_singleton, emit, if_pos hc, cursor_line, hblanks,
        Option.getD_some, List.append_assoc, List.singleton_append]
  have hfeeds : feeds us = feeds xs := by
    rw [← feeds_reindent m xs, hxs, feeds_append]
    have hnone : feeds bs = 0 := by
      rw [feeds, List.count_eq_zero]
      exact fun hmem => ne_lineFeed_of_isIndent (m.indents hblanks _ hmem) rfl
    rw [hnone, Nat.add_zero]
  have hbytes' : (m.buffer b).bytes.toList = us ++ (bs ++ m.written (m.cursor xs) ys) := by
    change m.reindent b.bytes.toList = _
    rw [hbytes, reindent_append, hxs, List.append_assoc]
  have hmargin : (m.cursor xs).inMargin = true := by
    have hlast : lastLine xs = [] := List.eq_nil_of_length_eq_zero hcolumn
    rw [cursor_inMargin, hblanks, hlast]
    rfl
  rw [← hfeeds, (m.buffer b).indentation_eq hbytes' hus,
    List.takeWhile_append_of_pos (m.indents hblanks), m.takeWhile_written hmargin, List.append_nil]

end Margins

namespace Source

variable {s : Source}

/-! ## checked lines -/

theorem exists_item {p : Piece} (h : p ∈ s.pieces) : ∃ i, (p, i) ∈ s.items := by
  rw [items]
  by_cases hcomment : p.isComment = true
  · refine ⟨none, List.mem_append_right _ (List.mem_map.2 ⟨p, ?_, rfl⟩)⟩
    exact List.mem_filter.2 ⟨h, hcomment⟩
  · have hcode : p ∈ s.codePieces := by
      rw [codePieces, List.mem_filter]
      exact ⟨h, by simpa using hcomment⟩
    obtain ⟨i, hi⟩ := List.mem_iff_getElem?.1 hcode
    exact ⟨some i, List.mem_append_left _
      (List.mem_map.2 ⟨(p, i), List.mem_zipIdx_iff_getElem?.2 hi, rfl⟩)⟩

/-- Every token and comment is that of a piece. -/
theorem mem_merged {p : Piece} (h : p ∈ s.pieces) : ∃ i, s.buffer.token p i ∈ s.merged := by
  obtain ⟨i, hi⟩ := exists_item h
  refine ⟨i, ?_⟩
  rw [merged_eq, List.mem_map]
  exact ⟨(p, i), List.mem_mergeSort.2 hi, rfl⟩

/-- Tokens and comments are listed by their starts. -/
theorem pairwise_merged (s : Source) : s.merged.Pairwise (·.start ≤ ·.start) := by
  have hsorted : s.merged.Pairwise fun a b => decide (a.start ≤ b.start) = true := by
    refine List.pairwise_mergeSort ?_ ?_ _
    · intro a b c hab hbc
      rw [decide_eq_true_eq] at hab hbc ⊢
      exact Int.le_trans hab hbc
    · intro a b
      rw [Bool.or_eq_true, decide_eq_true_eq, decide_eq_true_eq]
      exact Int.le_total _ _
  exact hsorted.imp fun h => of_decide_eq_true h

theorem mem_merged_iff {t : Token} : t ∈ s.merged ↔ t ∈ s.tokens ∨ t ∈ s.comments := by
  rw [merged, List.mem_mergeSort, List.mem_append, Array.mem_toList_iff]

theorem mem_merged_of_leader {t : Token} (h : t ∈ leaders s.lines) : t ∈ s.merged := by
  obtain ⟨pre, post, hmerged, -⟩ := exists_pre_of_leader (fun _ => line_le_endLine) h
  simp [hmerged]

theorem line_of_mem_merged {t : Token} (h : t ∈ s.merged) : t.line = s.buffer.lineOf t.start := by
  obtain ⟨p, -, i, rfl⟩ := exists_piece_of_mem_merged h
  rfl

theorem column_of_mem_merged {t : Token} (h : t ∈ s.merged) :
    t.column = t.start - s.buffer.lineStart (s.buffer.lineOf t.start) := by
  obtain ⟨p, -, i, rfl⟩ := exists_piece_of_mem_merged h
  rfl

/-- Every token and comment ends before the line of a leader, or starts no sooner than the leader. -/
theorem stop_le_or_start_le {t u : Token} (ht : t ∈ leaders s.lines) (hpos : 0 < t.line)
    (hu : u ∈ s.merged) : u.stop ≤ s.buffer.lineStart t.line ∨ t.start ≤ u.start := by
  obtain ⟨pre, post, hmerged, hpre⟩ := exists_pre_of_leader (fun _ => line_le_endLine) ht
  obtain ⟨p, -, i, rfl⟩ := exists_piece_of_mem_merged hu
  have hsorted := s.pairwise_merged
  rw [hmerged] at hu hsorted
  rcases List.mem_append.1 hu with hu | hu
  · -- what comes before the leader ends on an earlier line
    refine .inl (Int.not_lt.1 fun hlt => absurd (hpre _ hu) (Nat.not_lt.2 ?_))
    have hle : t.line ≤ s.buffer.lineCount :=
      line_of_mem_merged (mem_merged_of_leader ht) ▸ s.buffer.lineOf_le _
    rw [← s.buffer.lineOf_lineStart hpos hle]
    change _ < p.stop at hlt
    exact s.buffer.lineOf_mono (by lia)
  · right
    rcases List.mem_cons.1 hu with heq | hu
    · exact Int.le_of_eq (congrArg Token.start heq).symm
    · exact List.rel_of_pairwise_cons (List.pairwise_append.1 hsorted).2.1 hu

/-- No token or comment starts in the indentation of its line. -/
def StartsBehindIndentation (s : Source) : Prop :=
  ∀ p ∈ s.pieces, s.buffer.lineStart (s.buffer.lineOf p.start) +
    (s.buffer.indentation (s.buffer.lineOf p.start)).length ≤ p.start

/-- Levels are those of lines further and further down, whatever is known before. -/
theorem pairwise_levels {r : Registry} {known : KnownLevels} {levels : LineLevels}
    (h : (r.settle known s.lines).result = .ok levels) : levels.Pairwise (·.1 < ·.1) := by
  have hlines := (List.pairwise_map.2 (pairwise_leaders fun _ => line_le_endLine)).sublist
    (Registry.settle_lines h)
  exact List.pairwise_map.1 hlines

section Levels

variable (h : s.Framed) {r : Registry} {levels : LineLevels}
  (hlevels : (r.settle [] s.lines).result = .ok levels)

include hlevels

theorem lookup_levels {line : Nat} {level : Int} (hmem : (line, level) ∈ levels) :
    levels.lookup line = some level := by
  have hpairwise := pairwise_levels hlevels
  clear hlevels
  induction levels with
  | nil => simp at hmem
  | cons p rest ih =>
    obtain ⟨hall, hrest⟩ := List.pairwise_cons.1 hpairwise
    rcases List.mem_cons.1 hmem with rfl | hmem
    · exact List.lookup_cons_self
    · have hne : (line == p.1) = false := by
        have := hall _ hmem
        simp only [beq_eq_false_iff_ne]
        omega
      rw [List.lookup_cons, hne]
      exact ih hmem hrest

/-- A line with a level has a leader. -/
theorem exists_leader {line : Nat} (hline : line ∈ levels.map Prod.fst) :
    ∃ t ∈ leaders s.lines, t.line = line :=
  List.mem_map.1 ((Registry.settle_lines hlevels).subset hline)

include h

/-- The levels are those of lines of the text. -/
theorem line_of_mem_levels {line : Nat} (hline : line ∈ levels.map Prod.fst) :
    0 < line ∧ line ≤ s.buffer.lineCount := by
  obtain ⟨t, ht, rfl⟩ := exists_leader hlevels hline
  obtain ⟨p, hp, i, rfl⟩ := exists_piece_of_mem_merged (mem_merged_of_leader ht)
  exact ⟨s.buffer.lineOf_pos (h.inText hp).1, s.buffer.lineOf_le _⟩

omit h in
/-- Checked lines can be indented anew without changing a token or a comment. -/
theorem clears_margins (hstarts : s.StartsBehindIndentation) (style : Style) :
    (style.margins levels).Clears s := by
  intro line hpos hle hsome p hp
  obtain ⟨level, hlevel⟩ : ∃ level, levels.lookup line = some level := by
    rw [Style.margins, Option.isSome_map] at hsome
    exact Option.isSome_iff_exists.1 hsome
  have hmem : line ∈ levels.map Prod.fst := by
    obtain ⟨l₁, l₂, rfl, -⟩ := List.lookup_eq_some_iff.1 hlevel
    simp
  obtain ⟨t, ht, rfl⟩ := exists_leader hlevels hmem
  obtain ⟨q, hq, j, hqt⟩ := exists_piece_of_mem_merged (mem_merged_of_leader ht)
  obtain ⟨i, hi⟩ := mem_merged hp
  refine (stop_le_or_start_le ht hpos hi).imp_right fun hstart => ?_
  rw [hqt] at hstart ⊢
  exact Int.le_trans (hstarts q hq) hstart

end Levels

/-! ## layout independence -/

/-- There are levels to check if the walk went through and no cycle stands in the way. -/
theorem exists_settle_of_checkedLevels {a : Analysis} {levels : LineLevels}
    (h : s.checkedLevels a = .ok levels) : a.fault = none ∧
      ∃ all, (a.registry.settle [] s.lines).result = .ok all ∧
        levels = s.withoutBlockStarts all := by
  rw [checkedLevels] at h
  cases hfault : a.fault with
  | some fault =>
    rw [hfault] at h
    cases h
  | none =>
    rw [hfault] at h
    cases hresult : (a.registry.settle [] s.lines).result with
    | error cycle =>
      rw [hresult] at h
      cases h
    | ok all =>
      rw [hresult] at h
      exact ⟨rfl, all, rfl, (Except.ok.inj h).symm⟩

theorem settle_of_checkedLevels {a : Analysis} {levels : LineLevels} (hblocks : s.blocks = [])
    (h : s.checkedLevels a = .ok levels) : (a.registry.settle [] s.lines).result = .ok levels := by
  obtain ⟨-, all, hall, rfl⟩ := exists_settle_of_checkedLevels h
  have hnone : s.withoutBlockStarts all = all := by
    rw [withoutBlockStarts, hblocks]
    exact List.filter_eq_self.2 fun _ _ => rfl
  rwa [hnone]

/-- Lines that are indented to their levels are in order. -/
theorem violations_reindent (h : s.Framed) (hblocks : s.blocks = []) {style : Style}
    (hcase : 0 ≤ style.caseLevels) (hwidth : 0 ≤ style.width) {levels : LineLevels}
    (hlevels : s.checkedLevels (s.analyze style.caseLevels) = .ok levels) :
    (s.reindent (style.margins levels)).violations style levels = [] := by
  have hsettle := settle_of_checkedLevels hblocks hlevels
  have hnonneg := Registry.settle_nonneg (analyze_rises (by simp [hblocks]) hcase)
    (fun _ _ hk => by simp [KnownLevels.get?] at hk) hsettle
  rw [violations, List.filterMap_eq_nil_iff]
  rintro ⟨line, level⟩ hmem
  obtain ⟨hpos, hle⟩ := line_of_mem_levels h hsettle (List.mem_map.2 ⟨_, hmem, rfl⟩)
  have hblanks : (style.margins levels).blanks line = some (style.indent level) := by
    change (levels.lookup line).map style.indent = _
    rw [lookup_levels hsettle hmem, Option.map_some]
  have hindent : (s.reindent (style.margins levels)).buffer.indentation line =
      style.indent level := (style.margins levels).indentation_buffer hpos hle hblanks
  dsimp only
  rw [hindent]
  exact style.violation?_indent line (Int.mul_nonneg (hnonneg _ hmem) hwidth)

/-- A source whose lines are indented to given levels. -/
def restyle (s : Source) (style : Style) (levels : LineLevels) : Source :=
  s.reindent (style.margins levels)

/-- Levels do not depend on the layout.  New margins change neither the levels of a
source nor the way in which it fails to have any; and if all checked lines are
indented to their levels, checking the text finds nothing to complain about. -/
theorem layout_independent (h : s.Framed) (style : Style) :
    (∀ m : Margins, m.Clears s →
      (s.reindent m).checkedLevels ((s.reindent m).analyze style.caseLevels) =
        s.checkedLevels (s.analyze style.caseLevels)) ∧
    ∀ levels, s.blocks = [] → s.StartsBehindIndentation → 0 ≤ style.caseLevels →
      0 ≤ style.width → s.checkedLevels (s.analyze style.caseLevels) = .ok levels →
      ∀ languages parsers,
        (Source.read languages parsers style.layout (s.restyle style levels).buffer.bytes
          s.path).result = .ok (s.restyle style levels) →
        (check languages parsers style (s.restyle style levels).buffer.bytes s.path).result =
          .ok { path := s.path, violations := [], levels } := by
  refine ⟨fun m hm => checkedLevels_reindent h hm style.caseLevels, ?_⟩
  intro levels hblocks hstarts hcase hwidth hlevels languages parsers hread
  have hclears := clears_margins (settle_of_checkedLevels hblocks hlevels) hstarts style
  have hsame := checkedLevels_reindent h hclears style.caseLevels
  rw [hlevels] at hsame
  rw [check, Judged.of, hread]
  change Except.map _ ((s.restyle style levels).checkedLevels _) = _
  rw [restyle, hsame, Except.map, result,
    violations_reindent h hblocks hcase hwidth hlevels]
  rfl

/-! ## a block -/

/-- A program that consists of a block with one statement, each on a line of its
own. -/
def blockSource : Source :=
  .ofTree #[0x7B, 0x0A, 0x78, 0x0A, 0x7D]
    ⟨"program", true, false, false, [], 0, 5,
      [⟨"statement_block", true, false, false, [], 0, 5,
        [⟨"\x7b", false, false, false, [], 0, 1, []⟩,
          ⟨"expression_statement", true, false, false, [], 2, 3,
            [⟨"identifier", true, false, false, [], 2, 3, []⟩]⟩,
          ⟨"\x7d", false, false, false, [], 4, 5, []⟩]⟩]⟩
    none []

theorem pieces_blockSource :
    blockSource.pieces = [⟨.punctuator, 0, 1⟩, ⟨.identifier, 2, 3⟩, ⟨.punctuator, 4, 5⟩] := by
  decide +kernel

theorem blockSource_framed : blockSource.Framed where
  nested m hm := by
    have hall : blockSource.root.all
        (fun m => decide (Node.InOrder m.start m.stop m.children)) = true := by decide +kernel
    exact of_decide_eq_true (Node.of_all hall hm)
  inText hp := by
    rw [pieces_blockSource] at hp
    simp only [List.mem_cons, List.not_mem_nil, or_false] at hp
    rcases hp with rfl | rfl | rfl <;> decide
  below {n} hn := by
    have hall : blockSource.root.all (fun m =>
        (blockSource.pieces.any fun p => p.start ≤ m.start && m.start < p.stop) &&
          blockSource.pieces.any fun p => p.start < m.stop && m.stop ≤ p.stop) = true := by
      decide +kernel
    have hpieces := Node.of_all hall hn.within
    simp only [Bool.and_eq_true, List.any_eq_true, decide_eq_true_eq] at hpieces
    exact ⟨hpieces.1, fun _ => hpieces.2⟩
  root := .inl rfl

theorem checkedLevels_blockSource :
    blockSource.checkedLevels (blockSource.analyze 1) = .ok [(1, 0), (2, 1), (3, 0)] := by
  have hsorted : (blockSource.tokens.toList ++ blockSource.comments).Pairwise
      fun a b => decide (a.start ≤ b.start) = true := by decide +kernel
  have hfault : (blockSource.analyze 1).fault = none := by decide +kernel
  have hsettle : ((blockSource.analyze 1).registry.settle []
      (groupsFrom 0 [] (blockSource.tokens.toList ++ blockSource.comments))).result =
        .ok [(1, 0), (2, 1), (3, 0)] := by decide +kernel
  rw [checkedLevels, hfault, lines, merged, List.mergeSort_of_pairwise hsorted, hsettle]
  rfl

theorem blockSource_startsBehindIndentation : blockSource.StartsBehindIndentation := by
  intro p hp
  rw [pieces_blockSource] at hp
  simp only [List.mem_cons, List.not_mem_nil, or_false] at hp
  rcases hp with rfl | rfl | rfl <;> decide +kernel

/-- A tab in front of the closing brace. -/
def braceMargin : Margins where
  blanks line := if line = 3 then some [Bytes.tab] else none
  indents h b hb := by
    split at h
    · obtain rfl := Option.some.inj h
      rw [List.mem_singleton.1 hb]
      decide
    · cases h

theorem braceMargin_clears : braceMargin.Clears blockSource := by
  intro line _ _ hsome p hp
  have hline : line = 3 := by
    by_contra hne
    have hnone : braceMargin.blanks line = none := if_neg hne
    rw [hnone] at hsome
    cases hsome
  rw [pieces_blockSource] at hp
  simp only [List.mem_cons, List.not_mem_nil, or_false] at hp
  subst hline
  rcases hp with rfl | rfl | rfl <;> decide +kernel

/-- The block is judged alike with a tab in front of its brace, and found in order once
its statement is indented. -/
theorem check_blockSource :
    (blockSource.reindent braceMargin).checkedLevels
        ((blockSource.reindent braceMargin).analyze 1) =
      blockSource.checkedLevels (blockSource.analyze 1) ∧
    (check .builtin
      (fun _ _ => some (blockSource.restyle {} [(1, 0), (2, 1), (3, 0)]).root) {}
      (blockSource.restyle {} [(1, 0), (2, 1), (3, 0)]).buffer.bytes none).result =
        .ok { path := none, violations := [], levels := [(1, 0), (2, 1), (3, 0)] } :=
  ⟨(layout_independent blockSource_framed {}).1 braceMargin braceMargin_clears,
    (layout_independent blockSource_framed {}).2 _ rfl blockSource_startsBehindIndentation
      (by decide) (by decide) checkedLevels_blockSource .builtin _ rfl⟩

end Source

end ScriptIndent
