import ScriptIndent.Proofs.Embedding.Shift
import ScriptIndent.Proofs.Layout.Lines

/-!
# ScriptIndent.Proofs.Layout.Margins

Texts with other indentation.

*Margins* give some lines of a text new indentation: the spaces and tabs at the
start of such a line are left out, and the margin is written in their place
(`Margins.reindent`).  This shifts the offsets of the text (`Margins.shift`).  A
stretch is found as it is unless it reaches over the place of a margin
(`Margins.Spares`).
-/

namespace ScriptIndent

open Bytes

/-- New indentation for some lines. -/
structure Margins where
  /-- The spaces and tabs that a line is to start with, if it gets new ones. -/
  blanks : Nat → Option (List UInt8)
  indents {line : Nat} {bs : List UInt8} : blanks line = some bs → ∀ b ∈ bs, isIndent b = true

/-- A place in a text that gets margins. -/
structure Cursor where
  line : Nat
  /-- The place is in the indentation of a line that gets a margin. -/
  inMargin : Bool

namespace Margins

variable (m : Margins)

/-- The start of a line. -/
def enter (line : Nat) : Cursor := ⟨line, (m.blanks line).isSome⟩

/-- The place behind a byte. -/
def next (c : Cursor) (b : UInt8) : Cursor :=
  if b = lineFeed then m.enter (c.line + 1) else ⟨c.line, c.inMargin && isIndent b⟩

/-- What is written for a byte: nothing for the blanks that a margin replaces, and
behind a line feed the margin of the next line. -/
def emit (c : Cursor) (b : UInt8) : List UInt8 :=
  if b = lineFeed then b :: (m.blanks (c.line + 1)).getD []
  else if c.inMargin && isIndent b then []
  else [b]

/-- What is written for some bytes. -/
def written (c : Cursor) : List UInt8 → List UInt8
  | [] => []
  | b :: rest => m.emit c b ++ written (m.next c b) rest

/-- The place behind the first bytes of a text. -/
def cursor (bs : List UInt8) : Cursor := bs.foldl m.next (m.enter 1)

/-- A text with new margins. -/
def reindent (bs : List UInt8) : List UInt8 :=
  (m.blanks 1).getD [] ++ m.written (m.enter 1) bs

/-- Where an offset of a text is found in the text with new margins. -/
def offset (bs : List UInt8) (o : Offset) : Offset :=
  if o < 0 then o
  else (m.reindent (bs.take o.toNat)).length + (o.toNat - bs.length : Nat)

/-! ## places -/

theorem cursor_concat (bs : List UInt8) (b : UInt8) :
    m.cursor (bs ++ [b]) = m.next (m.cursor bs) b := by
  rw [cursor, List.foldl_append, List.foldl_cons, List.foldl_nil, cursor]

theorem cursor_line (bs : List UInt8) : (m.cursor bs).line = feeds bs + 1 := by
  induction bs using List.reverseRecOn with
  | nil => rfl
  | append_singleton bs b ih =>
    rw [cursor_concat, feeds_append, feeds_singleton, next]
    by_cases h : b = lineFeed
    · rw [if_pos h, if_pos h, enter, ih]
    · rw [if_neg h, if_neg h, ih, Nat.add_zero]

/-- A place is in a margin if its line has one and starts with blanks up to it. -/
theorem cursor_inMargin (bs : List UInt8) :
    (m.cursor bs).inMargin =
      ((m.blanks (feeds bs + 1)).isSome && (lastLine bs).all isIndent) := by
  induction bs using List.reverseRecOn with
  | nil => exact (Bool.and_true _).symm
  | append_singleton bs b ih =>
    rw [cursor_concat, feeds_append, feeds_singleton, lastLine_concat, next]
    by_cases h : b = lineFeed
    · rw [if_pos h, if_pos h, if_pos h, enter, cursor_line, List.all_nil, Bool.and_true]
    · rw [if_neg h, if_neg h, if_neg h, ih, List.all_cons, Bool.and_assoc, Nat.add_zero]
      dsimp only
      rw [Bool.and_comm (isIndent b)]

/-! ## texts with new margins -/

theorem written_append (c : Cursor) (xs ys : List UInt8) :
    m.written c (xs ++ ys) = m.written c xs ++ m.written (xs.foldl m.next c) ys := by
  induction xs generalizing c with
  | nil => rfl
  | cons b rest ih => rw [List.cons_append, written, written, ih, List.append_assoc, List.foldl_cons]

theorem written_singleton (c : Cursor) (b : UInt8) : m.written c [b] = m.emit c b := by
  rw [written, written, List.append_nil]

theorem reindent_append (xs ys : List UInt8) :
    m.reindent (xs ++ ys) = m.reindent xs ++ m.written (m.cursor xs) ys := by
  rw [reindent, written_append, ← List.append_assoc, reindent, cursor]

theorem feeds_blanks (line : Nat) : feeds ((m.blanks line).getD []) = 0 := by
  cases h : m.blanks line with
  | none => rfl
  | some bs =>
    rw [Option.getD_some, feeds, List.count_eq_zero]
    exact fun hmem => ne_lineFeed_of_isIndent (m.indents h _ hmem) rfl

theorem feeds_emit (c : Cursor) (b : UInt8) : feeds (m.emit c b) = feeds [b] := by
  rw [emit]
  by_cases h : b = lineFeed
  · rw [if_pos h, feeds_cons, feeds_blanks, feeds_cons, feeds_nil]
  · rw [if_neg h]
    split
    · rw [feeds_singleton, if_neg h, feeds_nil]
    · rfl

/-- New margins change no line feed. -/
theorem feeds_reindent (bs : List UInt8) : feeds (m.reindent bs) = feeds bs := by
  induction bs using List.reverseRecOn with
  | nil => rw [reindent, written, List.append_nil, feeds_blanks, feeds_nil]
  | append_singleton bs b ih =>
    rw [reindent_append, feeds_append, ih, written_singleton, feeds_emit, feeds_append]

/-! ## stretches without margins -/

/-- The stretch lies in the text, and no margin is put into it or replaces a part of
it. -/
structure Spares (b : Buffer) (start stop : Offset) : Prop where
  lt : start < stop
  nonneg : 0 ≤ start
  le : stop ≤ b.bytes.size
  margins {line : Nat} : 0 < line → line ≤ b.lineCount → (m.blanks line).isSome →
    stop ≤ b.lineStart line ∨ b.lineStart line + (b.indentation line).length ≤ start

variable {m} {b : Buffer} {start stop : Offset}

theorem Spares.narrow (h : m.Spares b start stop) {start' stop' : Offset}
    (hstart : start ≤ start') (hlt : start' < stop') (hstop : stop' ≤ stop) :
    m.Spares b start' stop' where
  lt := hlt
  nonneg := Int.le_trans h.nonneg hstart
  le := Int.le_trans hstop h.le
  margins hpos hle hsome := by
    rcases h.margins hpos hle hsome with hbefore | hbehind
    · exact .inl (Int.le_trans hstop hbefore)
    · exact .inr (Int.le_trans hbehind hstart)

variable {xs ys : List UInt8} {c : UInt8}

/-- No byte of a spared stretch is left out. -/
theorem Spares.not_inMargin (h : m.Spares b start stop) (hbytes : b.bytes.toList = xs ++ c :: ys)
    (hstart : start ≤ xs.length) (hstop : xs.length < stop) :
    ((m.cursor xs).inMargin && isIndent c) = false := by
  refine Bool.eq_false_iff.2 fun hdropped => ?_
  rw [cursor_inMargin, Bool.and_eq_true, Bool.and_eq_true] at hdropped
  obtain ⟨⟨hsome, hall⟩, hc⟩ := hdropped
  obtain ⟨us, ws, rfl, hfeeds, hcolumn, hws⟩ := exists_lastLine xs
  have hblank : ∀ w ∈ ws ++ [c], isIndent w = true := by
    intro w hw
    rcases List.mem_append.1 hw with hw | hw
    · rw [hws, List.mem_reverse] at hw
      exact List.all_eq_true.1 hall w hw
    · rwa [List.mem_singleton.1 hw]
  have hsplit : b.bytes.toList = us ++ ((ws ++ [c]) ++ ys) := by
    rw [hbytes, List.append_assoc, List.append_assoc, List.singleton_append]
  have hindent : (ws ++ [c]).length ≤ (b.indentation (feeds (us ++ ws) + 1)).length := by
    rw [← hfeeds, b.indentation_eq hsplit hcolumn, List.takeWhile_append_of_pos hblank]
    exact (List.prefix_append _ _).length_le
  have hline : b.lineStart (feeds (us ++ ws) + 1) = (us.length : Nat) := by
    rw [← hfeeds, b.lineStart_eq hsplit, hcolumn, Nat.sub_zero]
  have hle : feeds (us ++ ws) + 1 ≤ b.lineCount := by
    rw [b.lineCount_eq, hbytes, feeds_append (us ++ ws)]
    omega
  have := h.margins (Nat.succ_pos _) hle hsome
  rw [hline] at this
  rw [List.length_append] at hstart hstop
  rw [List.length_append, List.length_singleton] at hindent
  lia

/-- No margin is put into a spared stretch. -/
theorem Spares.blanks_eq (h : m.Spares b start stop)
    (hbytes : b.bytes.toList = xs ++ lineFeed :: ys) (hstart : start ≤ xs.length)
    (hstop : xs.length + 1 < stop) : m.blanks (feeds xs + 2) = none := by
  cases hsome : m.blanks (feeds xs + 2) with
  | none => rfl
  | some bs =>
    have hsplit : b.bytes.toList = (xs ++ [lineFeed]) ++ ys := by
      rw [hbytes, List.append_assoc, List.singleton_append]
    have hfeeds : feeds (xs ++ [lineFeed]) + 1 = feeds xs + 2 := by
      rw [feeds_append, feeds_singleton, if_pos rfl]
    have hline : b.lineStart (feeds xs + 2) = (xs.length + 1 : Nat) := by
      rw [← hfeeds, b.lineStart_eq hsplit, column_concat, if_pos rfl, List.length_append,
        List.length_singleton, Nat.sub_zero]
    have hle : feeds xs + 2 ≤ b.lineCount := by
      rw [b.lineCount_eq, hsplit, feeds_append]
      omega
    have := h.margins (by omega) hle (by rw [hsome]; rfl)
    rw [hline] at this
    lia

/-- A byte of a spared stretch is written, and if it is not the last nothing else is. -/
theorem Spares.emit_eq (h : m.Spares b start stop) (hbytes : b.bytes.toList = xs ++ c :: ys)
    (hstart : start ≤ xs.length) (hstop : xs.length < stop) :
    ∃ ws, m.emit (m.cursor xs) c = c :: ws ∧ (xs.length + 1 < stop → ws = []) := by
  rw [emit, h.not_inMargin hbytes hstart hstop]
  by_cases hc : c = lineFeed
  · rw [if_pos hc]
    refine ⟨_, rfl, fun hlt => ?_⟩
    rw [hc] at hbytes
    rw [cursor_line, h.blanks_eq hbytes hstart hlt, Option.getD_none]
  · rw [if_neg hc, if_neg Bool.false_ne_true]
    exact ⟨[], rfl, fun _ => rfl⟩

/-- The bytes of a spared stretch are written as they are. -/
theorem Spares.written_eq (h : m.Spares b start stop) {zs : List UInt8}
    (hbytes : b.bytes.toList = xs ++ (ys ++ zs)) (hstart : start ≤ xs.length)
    (hstop : (xs.length + ys.length : Nat) ≤ stop) :
    ∃ ws, m.written (m.cursor xs) ys = ys ++ ws ∧
      ((xs.length + ys.length : Nat) < stop → ws = []) := by
  induction ys using List.reverseRecOn generalizing zs with
  | nil => exact ⟨[], rfl, fun _ => rfl⟩
  | append_singleton ys c ih =>
    rw [List.length_append, List.length_singleton] at hstop ⊢
    rw [List.append_assoc] at hbytes
    obtain ⟨us, hus, hnil⟩ := ih hbytes (by lia)
    obtain rfl := hnil (by lia)
    rw [List.singleton_append, ← List.append_assoc] at hbytes
    have hlength : (xs ++ ys).length = xs.length + ys.length := List.length_append
    obtain ⟨ws, hws, hlast⟩ := h.emit_eq hbytes (by lia) (by lia)
    have hcursor : ys.foldl m.next (m.cursor xs) = m.cursor (xs ++ ys) := by
      rw [cursor, cursor, List.foldl_append]
    refine ⟨ws, ?_, fun hlt => hlast (by lia)⟩
    rw [written_append, hus, List.append_nil, hcursor, written_singleton, hws, List.append_assoc,
      List.singleton_append]

/-! ## offsets -/

variable (m) in
theorem offset_of_le {bs : List UInt8} {o : Offset} (h : 0 ≤ o) (hle : o ≤ bs.length) :
    m.offset bs o = (m.reindent (bs.take o.toNat)).length := by
  have hnone : o.toNat - bs.length = 0 := by lia
  rw [offset, if_neg (by lia), hnone]
  exact Int.add_zero _

variable (m) in
theorem offset_append (xs ys : List UInt8) :
    m.offset (xs ++ ys) xs.length = (m.reindent xs).length := by
  have hle : ((xs.length : Nat) : Offset) ≤ (xs ++ ys).length := by
    rw [List.length_append]
    lia
  rw [offset_of_le m (Int.natCast_nonneg _) hle, Int.toNat_natCast, List.take_left]

variable (m) in
theorem offset_mono (bs : List UInt8) {o p : Offset} (h : o ≤ p) :
    m.offset bs o ≤ m.offset bs p := by
  rw [offset, offset]
  by_cases hp : p < 0
  · rw [if_pos hp, if_pos (by lia)]
    exact h
  by_cases ho : o < 0
  · rw [if_pos ho, if_neg hp]
    lia
  · rw [if_neg ho, if_neg hp]
    obtain ⟨ys, hys⟩ : ∃ ys, bs.take p.toNat = bs.take o.toNat ++ ys := by
      refine ⟨(bs.drop o.toNat).take (p.toNat - o.toNat), ?_⟩
      rw [← List.take_add]
      congr 1
      lia
    rw [hys, reindent_append, List.length_append]
    lia

/-- An offset of the text has bytes before it. -/
theorem exists_prefix (bs : List UInt8) {o : Offset} (h : 0 ≤ o) (hle : o ≤ bs.length) :
    ∃ xs ys, bs = xs ++ ys ∧ o = (xs.length : Nat) := by
  refine ⟨bs.take o.toNat, bs.drop o.toNat, (List.take_append_drop _ _).symm, ?_⟩
  rw [List.length_take]
  lia

/-- A stretch of the text has bytes before it and behind it. -/
theorem exists_stretch (bs : List UInt8) {o p : Offset} (h : 0 ≤ o) (hop : o ≤ p)
    (hle : p ≤ bs.length) :
    ∃ xs ys zs, bs = xs ++ (ys ++ zs) ∧ o = (xs.length : Nat) ∧
      p = (xs.length + ys.length : Nat) := by
  obtain ⟨us, zs, hbs, hp⟩ := exists_prefix bs (Int.le_trans h hop) hle
  obtain ⟨xs, ys, rfl, ho⟩ := exists_prefix us h (by lia)
  refine ⟨xs, ys, zs, by rw [hbs, List.append_assoc], ho, ?_⟩
  rw [hp, List.length_append]

variable (m) in
/-- A text with new margins. -/
def buffer (b : Buffer) : Buffer := .ofBytes (m.reindent b.bytes.toList).toArray

variable (m) in
/-- Offsets keep their lines. -/
theorem lineOf_offset (b : Buffer) (o : Offset) :
    (m.buffer b).lineOf (m.offset b.bytes.toList o) = b.lineOf o := by
  by_cases h : o < 0
  · rw [offset, if_pos h, Buffer.lineOf_of_neg _ h, Buffer.lineOf_of_neg _ h]
  have hoffset : (m.offset b.bytes.toList o).toNat =
      (m.reindent (b.bytes.toList.take o.toNat)).length + (o.toNat - b.bytes.toList.length) := by
    rw [offset, if_neg h]
    lia
  have hnonneg : 0 ≤ m.offset b.bytes.toList o := by
    rw [offset, if_neg h]
    lia
  rw [Buffer.lineOf_eq _ (Int.not_lt.1 h), Buffer.lineOf_eq _ hnonneg, hoffset,
    ← feeds_reindent m (b.bytes.toList.take o.toNat)]
  congr 2
  change (m.reindent b.bytes.toList).take _ = _
  generalize b.bytes.toList = bs
  by_cases hle : bs.length ≤ o.toNat
  · rw [List.take_of_length_le hle, List.take_of_length_le (Nat.le_add_right _ _)]
  · have hnone : o.toNat - bs.length = 0 := by omega
    have hsplit : m.reindent bs = m.reindent (bs.take o.toNat) ++
        m.written (m.cursor (bs.take o.toNat)) (bs.drop o.toNat) := by
      rw [← reindent_append, List.take_append_drop]
    rw [hnone, Nat.add_zero, hsplit, List.take_left]

namespace Spares

theorem offset_eq (h : m.Spares b start stop) {o : Offset} (hstart : start ≤ o) (hstop : o < stop) :
    m.offset b.bytes.toList o = m.offset b.bytes.toList start + (o - start) := by
  have hle := h.le
  obtain ⟨xs, ys, zs, hbytes, hx, hy⟩ :=
    exists_stretch b.bytes.toList h.nonneg hstart (by rw [Array.length_toList]; lia)
  obtain ⟨ws, hws, hnil⟩ := h.written_eq hbytes (by lia) (by lia)
  obtain rfl := hnil (by lia)
  have ho : m.offset b.bytes.toList o = (m.reindent (xs ++ ys)).length := by
    rw [hbytes, ← List.append_assoc, hy, ← List.length_append, offset_append]
  rw [ho, hbytes, hx, offset_append, reindent_append, hws, List.append_nil, List.length_append]
  lia

theorem offset_lt (h : m.Spares b start (start + 1)) {o : Offset} (hlt : start < o) :
    m.offset b.bytes.toList start < m.offset b.bytes.toList o := by
  have hle := h.le
  obtain ⟨xs, ys, hbytes, hx⟩ :=
    exists_prefix b.bytes.toList h.nonneg (by rw [Array.length_toList]; lia)
  cases ys with
  | nil =>
    rw [← Array.length_toList, hbytes, List.append_nil] at hle
    lia
  | cons c ys =>
    obtain ⟨ws, hws, -⟩ := h.emit_eq hbytes (by lia) (by lia)
    have hnext : m.offset b.bytes.toList (start + 1) =
        (m.reindent (xs ++ [c])).length := by
      have hlength : start + 1 = ((xs ++ [c]).length : Nat) := by
        rw [hx, List.length_append, List.length_singleton]
        lia
      rw [hlength, ← offset_append m (xs ++ [c]) ys, hbytes, List.append_assoc,
        List.singleton_append]
    have hmono := offset_mono m b.bytes.toList (o := start + 1) (p := o) (by lia)
    have hstart : m.offset b.bytes.toList start = (m.reindent xs).length := by
      rw [hx, hbytes, offset_append]
    rw [hnext, reindent_append, written_singleton, hws, List.length_append,
      List.length_cons] at hmono
    lia

theorem text_eq (h : m.Spares b start stop) :
    (m.buffer b).text (m.offset b.bytes.toList start)
        (m.offset b.bytes.toList start + (stop - start)) =
      b.text start stop := by
  obtain ⟨xs, ys, zs, hbytes, hx, hy⟩ := exists_stretch b.bytes.toList h.nonneg
    (Int.le_of_lt h.lt) (by rw [Array.length_toList]; exact h.le)
  obtain ⟨ws, hws, -⟩ := h.written_eq hbytes (by lia) (by lia)
  have hbytes' : (m.buffer b).bytes.toList = m.reindent xs ++
      (ys ++ (ws ++ m.written (ys.foldl m.next (m.cursor xs)) zs)) := by
    change m.reindent b.bytes.toList = _
    rw [hbytes, reindent_append, written_append, hws, List.append_assoc]
  have hoffset : m.offset b.bytes.toList start = (m.reindent xs).length := by
    rw [hx, hbytes, offset_append]
  rw [Buffer.text, Bytes.text, Buffer.slice_eq hbytes' hoffset (by lia), Buffer.text, Bytes.text,
    Buffer.slice_eq hbytes hx hy]

end Spares

variable (m) in
/-- The shift of the offsets of a text that gets margins. -/
def shift (b : Buffer) : Shift b (m.buffer b) where
  map := m.offset b.bytes.toList
  row line := line
  row_lt h := h
  Solid := m.Spares b
  lt_of_solid h := h.lt
  narrow h := h.narrow
  mono := offset_mono m _
  strict h := h.offset_lt
  map_eq h := h.offset_eq
  lineOf _ := lineOf_offset m b _
  text h := h.text_eq

end Margins

end ScriptIndent
