import Mathlib.Data.List.Induction
import Mathlib.Data.List.TakeWhile
import ScriptIndent.Source.Buffer

/-!
# ScriptIndent.Proofs.Layout.Lines

Lines as counts of line feeds.

An offset of the text belongs to the line behind as many line feeds as stand
before it (`Buffer.lineOf_eq`).  The line starts as many bytes before the offset
as follow the last of these line feeds (`Buffer.lineStart_eq`), and is indented by
the blanks that follow its start (`Buffer.indentation_eq`).
-/

namespace ScriptIndent

namespace Bytes

/-- The number of line feeds among some bytes. -/
def feeds (bs : List UInt8) : Nat := bs.count lineFeed

/-- The bytes behind the last line feed, the last of them first. -/
def lastLine (bs : List UInt8) : List UInt8 := bs.reverse.takeWhile (· != lineFeed)

/-- The number of bytes behind the last line feed. -/
def column (bs : List UInt8) : Nat := (lastLine bs).length

@[simp] theorem feeds_nil : feeds [] = 0 := rfl

@[simp] theorem feeds_append (xs ys : List UInt8) : feeds (xs ++ ys) = feeds xs + feeds ys :=
  List.count_append

theorem feeds_cons (b : UInt8) (bs : List UInt8) :
    feeds (b :: bs) = feeds bs + if b = lineFeed then 1 else 0 := by
  rw [feeds, List.count_cons, feeds]
  simp only [beq_iff_eq]

theorem feeds_singleton (b : UInt8) : feeds [b] = if b = lineFeed then 1 else 0 := by
  rw [feeds_cons, feeds_nil, Nat.zero_add]

@[simp] theorem column_nil : column [] = 0 := rfl

theorem lastLine_concat (bs : List UInt8) (b : UInt8) :
    lastLine (bs ++ [b]) = if b = lineFeed then [] else b :: lastLine bs := by
  rw [lastLine, List.reverse_append, List.reverse_singleton, List.singleton_append,
    List.takeWhile_cons]
  by_cases h : b = lineFeed <;> simp [h, lastLine]

theorem column_concat (bs : List UInt8) (b : UInt8) :
    column (bs ++ [b]) = if b = lineFeed then 0 else column bs + 1 := by
  rw [column, lastLine_concat]
  split <;> rfl

theorem column_le (bs : List UInt8) : column bs ≤ bs.length := by
  have h : (lastLine bs).length ≤ bs.reverse.length := (List.takeWhile_prefix _).length_le
  rwa [List.length_reverse] at h

/-- Bytes are cut at the start of their last line. -/
theorem exists_lastLine (bs : List UInt8) :
    ∃ us ws, bs = us ++ ws ∧ feeds us = feeds bs ∧ column us = 0 ∧ ws = (lastLine bs).reverse := by
  induction bs using List.reverseRecOn with
  | nil => exact ⟨[], [], rfl, rfl, rfl, rfl⟩
  | append_singleton bs b ih =>
    by_cases h : b = lineFeed
    · refine ⟨bs ++ [b], [], (List.append_nil _).symm, rfl, ?_, ?_⟩
      · rw [column_concat, if_pos h]
      · rw [lastLine_concat, if_pos h, List.reverse_nil]
    · obtain ⟨us, ws, hbs, hfeeds, hcolumn, hws⟩ := ih
      refine ⟨us, ws ++ [b], ?_, ?_, hcolumn, ?_⟩
      · rw [hbs, List.append_assoc]
      · rw [feeds_append, feeds_singleton, if_neg h, hfeeds, Nat.add_zero]
      · rw [lastLine_concat, if_neg h, List.reverse_cons, hws]

theorem ne_lineFeed_of_isIndent {b : UInt8} (h : isIndent b = true) : b ≠ lineFeed := by
  rintro rfl
  exact absurd h (by decide)

private theorem isLineEnd_of_isIndent {b : UInt8} (h : isIndent b = true) : isLineEnd b = false := by
  rw [isIndent, Bool.or_eq_true, beq_iff_eq, beq_iff_eq] at h
  rcases h with rfl | rfl <;> decide

/-! ## line starts -/

theorem lineStartsFrom_append (next : Offset) (xs ys : List UInt8) :
    lineStartsFrom next (xs ++ ys) =
      lineStartsFrom next xs ++ lineStartsFrom (next + xs.length) ys := by
  induction xs generalizing next with
  | nil => simp [lineStartsFrom]
  | cons b rest ih =>
    have hnext : next + 1 + (rest.length : Offset) = next + ((b :: rest).length : Nat) := by
      rw [List.length_cons]
      lia
    rw [List.cons_append, lineStartsFrom, lineStartsFrom, ih, hnext]
    split <;> rfl

theorem length_lineStartsFrom (next : Offset) (bs : List UInt8) :
    (lineStartsFrom next bs).length = feeds bs := by
  induction bs generalizing next with
  | nil => rfl
  | cons b rest ih =>
    rw [lineStartsFrom, feeds_cons]
    by_cases h : b = lineFeed <;> simp [h, ih]

theorem le_of_mem_lineStartsFrom {next o : Offset} {bs : List UInt8}
    (h : o ∈ lineStartsFrom next bs) : next ≤ o := by
  induction bs generalizing next with
  | nil => simp [lineStartsFrom] at h
  | cons b rest ih =>
    rw [lineStartsFrom] at h
    split at h
    · rcases List.mem_cons.1 h with rfl | h
      · exact Int.le_refl _
      · have := ih h
        lia
    · have := ih h
      lia

theorem pairwise_lineStartsFrom (next : Offset) (bs : List UInt8) :
    (lineStartsFrom next bs).Pairwise (· < ·) := by
  induction bs generalizing next with
  | nil => exact .nil
  | cons b rest ih =>
    rw [lineStartsFrom]
    split
    · refine .cons (fun o ho => ?_) (ih _)
      have := le_of_mem_lineStartsFrom ho
      lia
    · exact ih _

/-- The line starts up to an offset are as many as the line feeds before it. -/
theorem countP_lineStartsFrom (next o : Offset) (bs : List UInt8) :
    (lineStartsFrom next bs).countP (· ≤ o) = feeds (bs.take (o + 1 - next).toNat) := by
  induction bs generalizing next with
  | nil => simp [lineStartsFrom]
  | cons b rest ih =>
    have hrest := ih (next + 1)
    rw [lineStartsFrom]
    by_cases hle : next ≤ o
    · obtain ⟨k, hk⟩ : ∃ k, (o + 1 - next).toNat = k + 1 :=
        ⟨(o - next).toNat, by lia⟩
      have hk' : (o + 1 - (next + 1)).toNat = k := by lia
      rw [hk'] at hrest
      rw [hk, List.take_succ_cons, feeds_cons]
      by_cases h : b = lineFeed <;> simp [h, hle, hrest]
    · have hk : (o + 1 - next).toNat = 0 := by lia
      have hk' : (o + 1 - (next + 1)).toNat = 0 := by lia
      rw [hk', List.take_zero, feeds_nil] at hrest
      rw [hk, List.take_zero, feeds_nil]
      by_cases h : b = lineFeed <;> simp [h, hle, hrest]

end Bytes

/-- In an ascending list the members up to an offset come first. -/
theorem le_iff_lt_countP {l : List Offset} (h : l.Pairwise (· < ·)) {i : Nat} (hi : i < l.length)
    (o : Offset) : l[i] ≤ o ↔ i < l.countP (· ≤ o) := by
  induction l generalizing i with
  | nil => simp at hi
  | cons a rest ih =>
    obtain ⟨hall, hrest⟩ := List.pairwise_cons.1 h
    by_cases ha : a ≤ o
    · cases i with
      | zero => simp [ha]
      | succ i =>
        rw [List.length_cons, Nat.add_lt_add_iff_right] at hi
        simp [ha, ih hrest hi]
    · have hnone : rest.countP (· ≤ o) = 0 := by
        rw [List.countP_eq_zero]
        intro c hc
        have := hall c hc
        simp only [decide_eq_true_eq]
        lia
      have hlt : ¬(a :: rest)[i] ≤ o := by
        cases i with
        | zero => exact ha
        | succ i =>
          have := hall _ (List.getElem_mem (l := rest) (by simpa using hi))
          rw [List.getElem_cons_succ]
          lia
      simp [hnone, hlt, ha]

namespace Buffer

open Bytes

variable (b : Buffer)

theorem toList_starts : b.starts.toList = 0 :: lineStartsFrom 1 b.bytes.toList := by
  rw [b.starts_eq, lineStarts]

theorem lineCount_eq : b.lineCount = feeds b.bytes.toList + 1 := by
  rw [lineCount, ← Array.length_toList, toList_starts, List.length_cons, length_lineStartsFrom]

private theorem pairwise_starts : b.starts.toList.Pairwise (· < ·) := by
  rw [toList_starts]
  refine .cons (fun o ho => ?_) (pairwise_lineStartsFrom 1 _)
  have := le_of_mem_lineStartsFrom ho
  lia

theorem lineOf_eq_countP (o : Offset) : b.lineOf o = b.starts.toList.countP (· ≤ o) := by
  rw [lineOf]
  refine partitionPoint_eq ?_ fun i hi => ?_
  · rw [← Array.length_toList]
    exact List.countP_le_length
  · rw [Array.getElem?_eq_getElem hi, Option.any_some, decide_eq_true_eq]
    exact le_iff_lt_countP b.pairwise_starts (by simpa using hi) o

/-- An offset belongs to the line behind as many line feeds as stand before it. -/
theorem lineOf_eq {o : Offset} (h : 0 ≤ o) :
    b.lineOf o = feeds (b.bytes.toList.take o.toNat) + 1 := by
  rw [lineOf_eq_countP, toList_starts, List.countP_cons_of_pos (by simpa using h),
    countP_lineStartsFrom, Int.add_sub_cancel]

/-- An offset before the text belongs to line 0. -/
theorem lineOf_of_neg {o : Offset} (h : o < 0) : b.lineOf o = 0 := by
  rw [lineOf_eq_countP, toList_starts, List.countP_eq_zero]
  intro c hc
  rw [decide_eq_true_eq]
  rcases List.mem_cons.1 hc with rfl | hc
  · lia
  · have := le_of_mem_lineStartsFrom hc
    lia

theorem lineOf_mono {o p : Offset} (h : o ≤ p) : b.lineOf o ≤ b.lineOf p := by
  rw [lineOf_eq_countP, lineOf_eq_countP]
  refine List.countP_mono_left fun c _ hc => ?_
  rw [decide_eq_true_eq] at hc ⊢
  exact Int.le_trans hc h

/-! ## the start of a line -/

theorem getElem?_starts (xs : List UInt8) (next : Offset) (ys : List UInt8) :
    ((next :: lineStartsFrom (next + 1) (xs ++ ys))[feeds xs]?) =
      some (next + (xs.length - column xs : Nat)) := by
  induction xs using List.reverseRecOn generalizing ys with
  | nil => simp
  | append_singleton xs c ih =>
    have hle := column_le xs
    rw [feeds_append, feeds_singleton, column_concat, List.length_append, List.length_singleton]
    by_cases h : c = lineFeed
    · rw [if_pos h, if_pos h, List.getElem?_cons_succ, List.append_assoc, lineStartsFrom_append,
        List.getElem?_append_right (Nat.le_of_eq (length_lineStartsFrom _ _)),
        length_lineStartsFrom,
        Nat.sub_self, List.singleton_append, lineStartsFrom, h]
      simp only [beq_self_eq_true, if_true, List.getElem?_cons_zero, Option.some.injEq]
      lia
    · rw [if_neg h, if_neg h, List.append_assoc, Nat.add_zero, ih]
      congr 2
      lia

/-- A line starts behind the last line feed before its offsets. -/
theorem lineStart_eq {xs ys : List UInt8} (h : b.bytes.toList = xs ++ ys) :
    b.lineStart (feeds xs + 1) = (xs.length - column xs : Nat) := by
  rw [lineStart, if_neg (by omega), Nat.add_sub_cancel, ← Array.getElem?_toList, toList_starts, h,
    ← Int.zero_add 1, getElem?_starts, Option.getD_some, Int.zero_add]

/-- Every line has bytes before it, the last of which is a line feed. -/
theorem exists_feeds {bs : List UInt8} {line : Nat} (h : line ≤ feeds bs) :
    ∃ xs ys, bs = xs ++ ys ∧ feeds xs = line ∧ column xs = 0 := by
  induction bs using List.reverseRecOn with
  | nil =>
    obtain rfl : line = 0 := by simpa using h
    exact ⟨[], [], rfl, rfl, rfl⟩
  | append_singleton bs c ih =>
    by_cases hle : line ≤ feeds bs
    · obtain ⟨xs, ys, hbs, hfeeds, hcolumn⟩ := ih hle
      exact ⟨xs, ys ++ [c], by rw [hbs, List.append_assoc], hfeeds, hcolumn⟩
    · rw [feeds_append, feeds_singleton] at h
      have hc : c = lineFeed := by
        by_contra hne
        rw [if_neg hne] at h
        omega
      refine ⟨bs ++ [c], [], (List.append_nil _).symm, ?_, ?_⟩
      · rw [feeds_append, feeds_singleton, if_pos hc]
        rw [if_pos hc] at h
        omega
      · rw [column_concat, if_pos hc]

/-- A line of the text, cut at its start. -/
theorem exists_line {line : Nat} (hpos : 0 < line) (hle : line ≤ b.lineCount) :
    ∃ xs ys, b.bytes.toList = xs ++ ys ∧ feeds xs + 1 = line ∧ column xs = 0 ∧
      b.lineStart line = xs.length := by
  rw [lineCount_eq] at hle
  have hle : line - 1 ≤ feeds b.bytes.toList := by omega
  obtain ⟨xs, ys, hbs, hfeeds, hcolumn⟩ := exists_feeds hle
  refine ⟨xs, ys, hbs, by omega, hcolumn, ?_⟩
  have hstart := b.lineStart_eq hbs
  rw [hfeeds, hcolumn, Nat.sub_zero, Nat.sub_add_cancel hpos] at hstart
  exact hstart

/-- The text, cut at an offset and at the start of the line of this offset. -/
theorem exists_cut {o : Nat} (h : o ≤ b.bytes.size) :
    ∃ us ws, b.bytes.toList = us ++ (ws ++ b.bytes.toList.drop o) ∧ column us = 0 ∧
      us.length + ws.length = o ∧ b.lineOf o = feeds us + 1 ∧
      b.lineStart (feeds us + 1) = us.length ∧
      ws = (lastLine (b.bytes.toList.take o)).reverse := by
  obtain ⟨us, ws, htake, hfeeds, hcolumn, hws⟩ := exists_lastLine (b.bytes.toList.take o)
  have hbytes : b.bytes.toList = us ++ (ws ++ b.bytes.toList.drop o) := by
    rw [← List.append_assoc, ← htake, List.take_append_drop]
  have hlength : us.length + ws.length = o := by
    rw [← List.length_append, ← htake, List.length_take_of_le (by simpa using h)]
  refine ⟨us, ws, hbytes, hcolumn, hlength, ?_, ?_, hws⟩
  · rw [b.lineOf_eq (Int.natCast_nonneg o), Int.toNat_natCast, hfeeds]
  · rw [b.lineStart_eq hbytes, hcolumn, Nat.sub_zero]

theorem lineOf_lineStart {line : Nat} (hpos : 0 < line) (hle : line ≤ b.lineCount) :
    b.lineOf (b.lineStart line) = line := by
  obtain ⟨xs, ys, hbytes, hline, -, hstart⟩ := b.exists_line hpos hle
  rw [hstart, b.lineOf_eq (Int.natCast_nonneg _), Int.toNat_natCast, hbytes, List.take_left, hline]

/-- The lines of a text are counted from 1. -/
theorem lineOf_pos {o : Offset} (h : 0 ≤ o) : 0 < b.lineOf o := by
  rw [b.lineOf_eq h]
  exact Nat.succ_pos _

theorem lineOf_le (o : Offset) : b.lineOf o ≤ b.lineCount := by
  rw [lineOf_eq_countP, lineCount, ← Array.length_toList]
  exact List.countP_le_length

/-! ## the indentation of a line -/

/-- What ends a line does not indent it. -/
theorem takeWhile_trimmed (bs : List UInt8) :
    ((bs.reverse.dropWhile isLineEnd).reverse).takeWhile isIndent = bs.takeWhile isIndent := by
  induction bs using List.reverseRecOn with
  | nil => rfl
  | append_singleton bs c ih =>
    rw [List.reverse_append, List.reverse_singleton, List.singleton_append, List.dropWhile_cons]
    by_cases hend : isLineEnd c = true
    · have hindent : isIndent c = false := by
        refine Bool.eq_false_iff.2 fun h => ?_
        rw [isLineEnd_of_isIndent h] at hend
        cases hend
      rw [if_pos hend, ih, List.takeWhile_append]
      split
      · next hall =>
        rw [(List.takeWhile_prefix isIndent).eq_of_length hall, List.takeWhile_cons, hindent]
        exact (List.append_nil bs).symm
      · rfl
    · rw [if_neg hend, List.reverse_cons, List.reverse_reverse]

theorem slice_eq {bytes : Bytes} {xs ys zs : List UInt8} (h : bytes.toList = xs ++ (ys ++ zs))
    {start stop : Offset} (hstart : start = (xs.length : Nat))
    (hstop : stop = (xs.length + ys.length : Nat)) : bytes.slice start stop = ys := by
  have hsize : bytes.size = xs.length + (ys.length + zs.length) := by
    rw [← Array.length_toList, h, List.length_append, List.length_append]
  have hfirst : bytes.index start = xs.length := by
    rw [Bytes.index, if_neg (by lia), hstart, Int.toNat_natCast]
    omega
  have hlast : bytes.index stop = xs.length + ys.length := by
    rw [Bytes.index, if_neg (by lia), hstop, Int.toNat_natCast]
    omega
  rw [Bytes.slice, hfirst, hlast, Array.toList_extract, List.extract_eq_take_drop, h,
    List.drop_left, Nat.add_sub_cancel_left, List.take_left]

/-- A line is indented by the blanks that follow its start. -/
theorem indentation_eq {xs ys : List UInt8} (h : b.bytes.toList = xs ++ ys)
    (hcolumn : column xs = 0) :
    b.indentation (feeds xs + 1) = ys.takeWhile isIndent := by
  have hstart : b.lineStart (feeds xs + 1) = (xs.length : Nat) := by
    rw [b.lineStart_eq h, hcolumn, Nat.sub_zero]
  rw [indentation, lineBytes, takeWhile_trimmed, hstart]
  rcases hsplit : ys.dropWhile (· != lineFeed) with _ | ⟨c, zs⟩
  · -- the last line
    have hnone : feeds ys = 0 := by
      rw [feeds, List.count_eq_zero]
      intro hmem
      have := List.dropWhile_eq_nil_iff.1 hsplit _ hmem
      simp at this
    have hlast : b.starts[feeds xs + 1]? = none := by
      rw [Array.getElem?_eq_none_iff]
      change b.lineCount ≤ _
      rw [lineCount_eq, h, feeds_append, hnone]
    have hsize : b.bytes.size = xs.length + ys.length := by
      rw [← Array.length_toList, h, List.length_append]
    have hall : b.bytes.toList = xs ++ (ys ++ []) := by rw [h, List.append_nil]
    rw [hlast, Option.getD_none, hsize, slice_eq hall rfl rfl]
  · have hc : c = lineFeed := by
      have := List.head?_dropWhile_not (· != lineFeed) ys
      rw [hsplit] at this
      simpa using this
    obtain ⟨us, hus⟩ : ∃ us, us = ys.takeWhile (· != lineFeed) := ⟨_, rfl⟩
    have hys : ys = us ++ [c] ++ zs := by
      have := List.takeWhile_append_dropWhile (p := (· != lineFeed)) (l := ys)
      rw [hsplit, ← hus] at this
      rw [← this, List.append_assoc, List.singleton_append]
    have hfeeds : feeds us = 0 := by
      rw [feeds, List.count_eq_zero]
      intro hmem
      rw [hus] at hmem
      have := List.mem_takeWhile_imp hmem
      simp at this
    have hnext : b.starts[feeds xs + 1]? = some ((xs.length + (us ++ [c]).length : Nat) : Offset) := by
      have hget := getElem?_starts (xs ++ (us ++ [c])) 0 zs
      rw [← Array.getElem?_toList, toList_starts, h, hys, ← List.append_assoc xs]
      rw [feeds_append, feeds_append, hfeeds, feeds_singleton, if_pos hc, Int.zero_add,
        Nat.zero_add] at hget
      have hlength : (xs ++ (us ++ [c])).length = xs.length + (us ++ [c]).length :=
        List.length_append
      rw [hget, ← List.append_assoc, column_concat, if_pos hc, Int.zero_add, Nat.sub_zero,
        List.append_assoc, hlength]
    have hall : b.bytes.toList = xs ++ ((us ++ [c]) ++ zs) := by rw [h, hys]
    rw [hnext, Option.getD_some, slice_eq hall rfl rfl, hys,
      List.append_assoc, List.takeWhile_append, List.takeWhile_append]
    have hindent : isIndent c = false := by
      rw [hc]
      decide
    split <;> simp [hindent]

end Buffer

end ScriptIndent
