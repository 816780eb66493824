import ScriptIndent.Proofs.Layout.Restyle
import ScriptIndent.Proofs.Offset.LineLevel

/-!
# ScriptIndent.Proofs.Layout.Reported

Exactly the checked lines that are not indented as they should be are reported.

```
{ CR LF
 \tx CR LF     found are a space and a tab, the bytes before x; asked for are two spaces
} CR LF
```

The tokens and comments of a source hold all its bytes but the blanks and the line breaks
(`Source.HoldsText`).  So there are only blanks before what leads a line, and they are the
indentation that the line is judged by (`Source.HoldsText.indentation_of_leader`).
-/

namespace ScriptIndent

open Bytes

/-! ## the blanks before a byte -/

namespace Buffer

variable {b : Buffer} {i o : Nat} {c : UInt8}

/-- The byte at a place is a space or a tab, or is of a line break: a line feed, or a carriage
return before one. -/
def BlankAt (b : Buffer) (i : Nat) : Prop :=
  b.bytes[i]?.any (fun c => isIndent c || c == lineFeed ||
    c == carriageReturn && b.bytes[i + 1]? == some lineFeed) = true

instance (b : Buffer) : DecidablePred b.BlankAt := fun _ => inferInstanceAs (Decidable (_ = _))

theorem blankAt_iff (h : b.bytes[i]? = some c) : b.BlankAt i ↔
    isIndent c = true ∨ c = lineFeed ∨ c = carriageReturn ∧ b.bytes[i + 1]? = some lineFeed := by
  simp [BlankAt, h, or_assoc]

/-- Between the start of a line and a byte on it there is no line feed. -/
theorem ne_lineFeed_of_lt (hstart : b.lineStart (b.lineOf o) ≤ i) (hio : i < o)
    (hc : b.bytes[i]? = some c) : c ≠ lineFeed := by
  rintro rfl
  have hnext : b.lineOf (i + 1 : Nat) = b.lineOf i + 1 := by
    rw [lineOf_eq _ (Int.natCast_nonneg _), lineOf_eq _ (Int.natCast_nonneg _), Int.toNat_natCast,
      Int.toNat_natCast, List.take_add_one, Array.getElem?_toList, hc]
    simp [feeds_singleton]
  have hline := b.lineOf_mono hstart
  rw [b.lineOf_lineStart (b.lineOf_pos (Int.natCast_nonneg o)) (b.lineOf_le _)] at hline
  have hmono : b.lineOf (i + 1 : Nat) ≤ b.lineOf o := b.lineOf_mono (by lia)
  omega

/-- If there are only blanks before a byte on its line, and it is none, the line is indented by
them. -/
theorem indentation_eq_slice (hc : b.bytes[o]? = some c) (hindent : isIndent c = false)
    (hblank : ∀ (i : Nat) d, b.lineStart (b.lineOf o) ≤ i → i < o → b.bytes[i]? = some d →
      isIndent d = true) :
    b.indentation (b.lineOf o) = b.bytes.slice (b.lineStart (b.lineOf o)) o ∧
      ((b.indentation (b.lineOf o)).length : Int) = o - b.lineStart (b.lineOf o) := by
  obtain ⟨hlt, hget⟩ := Array.getElem?_eq_some_iff.1 hc
  obtain ⟨us, ws, hbytes, hcolumn, hlength, hline, hstart, -⟩ := b.exists_cut (Nat.le_of_lt hlt)
  have hdrop : b.bytes.toList.drop o = c :: b.bytes.toList.drop (o + 1) := by
    rw [← hget, ← Array.getElem_toList, ← List.drop_eq_getElem_cons (by simpa using hlt)]
  rw [hdrop] at hbytes
  rw [hline, hstart] at hblank ⊢
  have hws : ∀ d ∈ ws, isIndent d = true := by
    intro d hd
    obtain ⟨k, hk⟩ := List.getElem?_of_mem hd
    have hlt := (List.getElem?_eq_some_iff.1 hk).1
    refine hblank (us.length + k) d (by lia) (by omega) ?_
    rw [← Array.getElem?_toList, hbytes, List.getElem?_append_right (by omega),
      Nat.add_sub_cancel_left, List.getElem?_append_left hlt, hk]
  have hindentation : b.indentation (feeds us + 1) = ws := by
    rw [b.indentation_eq hbytes hcolumn, List.takeWhile_append_of_pos hws, List.takeWhile_cons,
      hindent]
    exact List.append_nil ws
  rw [hindentation]
  exact ⟨(slice_eq hbytes rfl (by rw [← hlength])).symm, by omega⟩

theorem isIndent_of_mem_indentation {line : Nat} (h : c ∈ b.indentation line) :
    isIndent c = true :=
  List.mem_takeWhile_imp h

end Buffer

/-! ## what is told of a line -/

private theorem count_add_count {α : Type} [DecidableEq α] {x y : α} (hne : x ≠ y) {xs : List α}
    (h : ∀ a ∈ xs, a = x ∨ a = y) : xs.count x + xs.count y = xs.length := by
  induction xs with
  | nil => rfl
  | cons a rest ih =>
    have hrest := ih fun b hb => h b (List.mem_cons_of_mem a hb)
    rcases h a List.mem_cons_self with rfl | rfl <;> simp [hne, hne.symm] <;> omega

/-- What is told of a line. -/
theorem Style.eq_of_violation? {style : Style} {bs : List UInt8} {line : Nat} {level : Int}
    {v : Violation} (h : style.violation? bs line level = some v) :
    v = ⟨line, level, level * style.width, bs.count space, bs.count tab, style.unit⟩ := by
  rw [violation?] at h
  exact (Option.some.inj (Option.ite_none_left_eq_some.1 h).2).symm

namespace Source

variable {s : Source}

/-! ## the text before what leads a line -/

/-- The tokens and comments of a source start at bytes that are not blank, and hold all of these. -/
structure HoldsText (s : Source) : Prop where
  starts {t : Token} : t ∈ s.tokens ∨ t ∈ s.comments →
    ∃ o : Nat, t.start = o ∧ o < s.buffer.bytes.size ∧ ¬s.buffer.BlankAt o
  holds {o : Nat} : o < s.buffer.bytes.size → ¬s.buffer.BlankAt o →
    ∃ t, (t ∈ s.tokens ∨ t ∈ s.comments) ∧ t.start ≤ o ∧ o < t.stop

/-- The line of a leader is indented by what precedes the leader on it. -/
theorem HoldsText.indentation_of_leader (h : s.HoldsText) {t : Token} (ht : t ∈ leaders s.lines) :
    s.buffer.indentation t.line = s.buffer.bytes.slice (s.buffer.lineStart t.line) t.start ∧
      ((s.buffer.indentation t.line).length : Int) = t.column := by
  have hmem := mem_merged_of_leader ht
  obtain ⟨o, hstart, hsize, hseen⟩ := h.starts (mem_merged_iff.1 hmem)
  have hline : t.line = s.buffer.lineOf o := hstart ▸ line_of_mem_merged hmem
  have hcolumn : t.column = o - s.buffer.lineStart (s.buffer.lineOf o) :=
    hstart ▸ column_of_mem_merged hmem
  have hc := Array.getElem?_eq_getElem hsize
  have hpos : 0 < t.line := hline ▸ s.buffer.lineOf_pos (Int.natCast_nonneg o)
  rw [Buffer.blankAt_iff hc, not_or, not_or] at hseen
  rw [hline, hcolumn, hstart]
  refine Buffer.indentation_eq_slice hc (by simpa using hseen.1) fun i d hi hio hd => ?_
  by_contra hindent
  have hfeed := Buffer.ne_lineFeed_of_lt hi hio hd
  -- a carriage return before the leader is none of a line break
  have hseen' : ¬s.buffer.BlankAt i := by
    rw [Buffer.blankAt_iff hd]
    rintro (hd' | hd' | ⟨-, hnext⟩)
    · exact hindent hd'
    · exact hfeed hd'
    · rcases Nat.lt_or_eq_of_le (Nat.succ_le_of_lt hio) with hlt | rfl
      · exact Buffer.ne_lineFeed_of_lt (by lia) hlt hnext rfl
      · exact hseen.2.1 (Option.mem_unique hc hnext)
  -- so a token or comment would hold the byte
  obtain ⟨u, hu, hle, hlt⟩ := h.holds (Array.getElem?_eq_some_iff.1 hd).1 hseen'
  rw [← hline] at hi
  rcases stop_le_or_start_le ht hpos (mem_merged_iff.2 hu) with hstop | hstart'
  · lia
  · lia

/-! ## violations -/

section Violations

variable {style : Style} {levels : LineLevels}

/-- The violations are those of the lines with levels that are not in order. -/
theorem mem_violations_iff {v : Violation} : v ∈ s.violations style levels ↔
    ∃ line level, (line, level) ∈ levels ∧
      style.violation? (s.buffer.indentation line) line level = some v := by
  simp [violations, List.mem_filterMap]

/-- A line is told of if and only if it has a level and its indentation is not the character of the
style as often as the level asks for. -/
theorem exists_violation_iff {line : Nat} :
    (∃ v ∈ s.violations style levels, v.line = line) ↔ ∃ level, (line, level) ∈ levels ∧
      ¬∃ n : Nat, n = level * style.width ∧
        s.buffer.indentation line = List.replicate n style.unit.blank := by
  have hnone (l : Nat) (level : Int) := style.violation?_eq_none_iff l level
    fun c => @Buffer.isIndent_of_mem_indentation s.buffer c l
  constructor
  · rintro ⟨v, hv, hline⟩
    obtain ⟨l, level, hmem, hsome⟩ := mem_violations_iff.1 hv
    obtain rfl : l = line := by
      rw [Style.eq_of_violation? hsome] at hline
      exact Int.ofNat_inj.1 hline
    refine ⟨level, hmem, fun hexists => ?_⟩
    simp [(hnone l level).2 hexists] at hsome
  · rintro ⟨level, hmem, hnot⟩
    obtain ⟨v, hv⟩ := Option.ne_none_iff_exists'.1 (mt (hnone line level).1 hnot)
    exact ⟨v, mem_violations_iff.2 ⟨line, level, hmem, hv⟩, by rw [Style.eq_of_violation? hv]⟩

/-- Violations are told of line by line. -/
theorem pairwise_violations (h : levels.Pairwise (·.1 < ·.1)) :
    (s.violations style levels).Pairwise (·.line < ·.line) := by
  rw [violations, List.pairwise_filterMap]
  refine h.imp fun {a b} hlt v hv w hw => ?_
  rw [Style.eq_of_violation? hv, Style.eq_of_violation? hw]
  exact Int.ofNat_lt.2 hlt

end Violations

/-- Checked lines are listed in order, and each has a leader. -/
theorem checkedLevels_lines {a : Analysis} {levels : LineLevels}
    (h : s.checkedLevels a = .ok levels) : levels.Pairwise (·.1 < ·.1) ∧
      ∀ line level, (line, level) ∈ levels → ∃ t ∈ leaders s.lines, t.line = line := by
  obtain ⟨-, all, hall, rfl⟩ := exists_settle_of_checkedLevels h
  refine ⟨(pairwise_levels hall).filter _, fun line level hmem => ?_⟩
  exact exists_leader hall (List.mem_map.2 ⟨_, (List.mem_filter.1 hmem).1, rfl⟩)

/-- Checking a text reports exactly the checked lines whose indentation is not the character of the
style as often as the level asks for, each once and in order.  The indentation of a checked line is
what precedes the token that leads the line, so there are as many spaces and tabs as are before this
token. -/
theorem check_reports {languages : Languages} {parsers : Parsers} {style : Style} {bytes : Bytes}
    {path : Option String} {levels : LineLevels}
    (hread : (Source.read languages parsers style.layout bytes path).result = .ok s)
    (hlevels : s.checkedLevels (s.analyze style.caseLevels) = .ok levels) (htext : s.HoldsText) :
    ∃ r, (check languages parsers style bytes path).result = .ok r ∧ r.levels = levels ∧
      (∀ line : Nat, (∃ v ∈ r.violations, v.line = line) ↔ ∃ level, (line, level) ∈ levels ∧
        ¬∃ n : Nat, n = level * style.width ∧
          s.buffer.indentation line = List.replicate n style.unit.blank) ∧
      r.violations.Pairwise (·.line < ·.line) ∧
      ∀ line level, (line, level) ∈ levels → ∃ t rest, t :: rest ∈ s.lines ∧ t.line = line ∧
        s.buffer.indentation line = s.buffer.bytes.slice (s.buffer.lineStart line) t.start ∧
        (s.buffer.indentation line).count space + (s.buffer.indentation line).count tab =
          t.column ∧
        ∀ v ∈ r.violations, v.line = line → v.actual = t.column := by
  obtain ⟨hpairwise, hleaders⟩ := checkedLevels_lines hlevels
  refine ⟨s.result style levels, ?_, rfl, fun line => exists_violation_iff,
    pairwise_violations hpairwise, fun line level hmem => ?_⟩
  · rw [check, Judged.of, hread]
    change Except.map _ (s.checkedLevels (s.analyze style.caseLevels)) = _
    rw [hlevels]
    rfl
  obtain ⟨t, ht, rfl⟩ := hleaders line level hmem
  obtain ⟨group, hgroup, hhead⟩ := List.mem_filterMap.1 ht
  obtain ⟨rest, rfl⟩ := List.head?_eq_some_iff.1 hhead
  obtain ⟨hslice, hlength⟩ := htext.indentation_of_leader ht
  have hcount : ((s.buffer.indentation t.line).count space : Int) +
      (s.buffer.indentation t.line).count tab = t.column := by
    rw [← hlength, ← Int.natCast_add, count_add_count (by decide) fun c hc =>
      isIndent_iff.1 (Buffer.isIndent_of_mem_indentation hc)]
  refine ⟨t, rest, hgroup, rfl, hslice, hcount, fun v hv hline => ?_⟩
  obtain ⟨l, level', -, hsome⟩ := mem_violations_iff.1 hv
  rw [Style.eq_of_violation? hsome] at hline ⊢
  obtain rfl : l = t.line := Int.ofNat_inj.1 hline
  exact hcount

/-! ## a statement behind a space and a tab -/

/-- A block with a statement that is indented by a space and a tab.  Its lines end with a carriage
return and a line feed. -/
def mixedSource : Source :=
  .ofTree "\x7b\r\n \tx\r\n\x7d".toUTF8.data
    ⟨"program", true, false, false, [], 0, 9,
      [⟨"statement_block", true, false, false, [], 0, 9,
        [⟨"\x7b", false, false, false, [], 0, 1, []⟩,
          ⟨"expression_statement", true, false, false, [], 5, 6,
            [⟨"identifier", true, false, false, [], 5, 6, []⟩]⟩,
          ⟨"\x7d", false, false, false, [], 8, 9, []⟩]⟩]⟩
    none []

theorem mixedSource_holdsText : mixedSource.HoldsText where
  starts ht := by
    have hall : (mixedSource.tokens.toList ++ mixedSource.comments).all (fun t =>
        0 ≤ t.start && t.start < mixedSource.buffer.bytes.size &&
          !mixedSource.buffer.BlankAt t.start.toNat) = true := by decide +kernel
    have h := List.all_eq_true.1 hall _ (by simpa using ht)
    simp only [Bool.and_eq_true, decide_eq_true_eq, Bool.not_eq_true', decide_eq_false_iff_not] at h
    exact ⟨_, by lia, by lia, h.2⟩
  holds {o} ho hseen := by
    have hall : ∀ o < mixedSource.buffer.bytes.size, ¬mixedSource.buffer.BlankAt o →
        ∃ t ∈ mixedSource.tokens.toList ++ mixedSource.comments, t.start ≤ o ∧ o < t.stop := by
      decide +kernel
    simpa using hall o ho hseen

private theorem sorted_mixedSource : (mixedSource.tokens.toList ++ mixedSource.comments).Pairwise
    fun a b => decide (a.start ≤ b.start) = true := by
  decide +kernel

theorem checkedLevels_mixedSource :
    mixedSource.checkedLevels (mixedSource.analyze 1) = .ok [(1, 0), (2, 1), (3, 0)] :=
  checkedLevels_eq_ok sorted_mixedSource (by decide +kernel) (by decide +kernel)
    (by decide +kernel)

/-- The statement is reported, though it stands as deep as it should.  The brace is not. -/
theorem check_reports_mixedSource :
    ∃ r, (check .builtin (fun _ _ => some mixedSource.root) {} mixedSource.buffer.bytes
        none).result = .ok r ∧ (∃ v ∈ r.violations, v.line = 2 ∧ v.actual = 2) ∧
      ∀ v ∈ r.violations, v.line ≠ 1 := by
  have hread : (Source.read .builtin (fun _ _ => some mixedSource.root) ({} : Style).layout
      mixedSource.buffer.bytes none).result = .ok mixedSource := rfl
  have hmixed : mixedSource.buffer.indentation 2 = [space, tab] := by decide +kernel
  have hflush : mixedSource.buffer.indentation 1 = [] := by decide +kernel
  obtain ⟨r, hr, -, hreported, -, hchecked⟩ :=
    check_reports hread checkedLevels_mixedSource mixedSource_holdsText
  have hwrong : ¬∃ n : Nat, n = 1 * ({} : Style).width ∧
      mixedSource.buffer.indentation 2 = List.replicate n space := by
    rintro ⟨n, -, hn⟩
    have htab : tab ∈ List.replicate n space := hn ▸ by simp [hmixed]
    exact absurd (List.eq_of_mem_replicate htab) (by decide)
  obtain ⟨v, hv, hline⟩ := (hreported 2).2 ⟨1, by simp, hwrong⟩
  refine ⟨r, hr, ⟨v, hv, hline, ?_⟩, fun w hw hw' => ?_⟩
  · obtain ⟨t, -, -, -, -, hcount, hactual⟩ := hchecked 2 1 (by simp)
    rw [hactual v hv hline, ← hcount, hmixed]
    decide
  · obtain ⟨level, hmem, hnot⟩ := (hreported 1).1 ⟨w, hw, hw'⟩
    obtain rfl : level = 0 := by simpa using hmem
    exact hnot ⟨0, by simp, hflush⟩

end Source

end ScriptIndent
