import ScriptIndent.Proofs.Embedding.Shift
import ScriptIndent.Proofs.Layout.Lines

/-!
# ScriptIndent.Proofs.Remark.Text

Texts with more put into them.

```
b    ┆x = 1 ;┆
b'   ┆// one⏎x = 1 /* 2 */ ;┆
```

*Inserts* say what is put in before each offset of a text.  An offset is found behind all
that is put in up to it, and its line is as much further down as lines are put in
(`Inserts.lineOf_offset`).  If nothing is put into the pieces of a text, and no line end
between two of them on one line (`Inserts.Suits`), the pieces are found as they are, on
lines in the same order (`Inserts.shift`).
-/

namespace ScriptIndent

open Bytes

/-- What is put into a text before each of its offsets. -/
abbrev Inserts : Type := Nat → List UInt8

namespace Inserts

variable (k : Inserts)

/-- All that is put in up to an offset. -/
def upTo (n : Nat) : List UInt8 := (List.range (n + 1)).flatMap k

/-- The bytes from an offset on, each with what is put in behind it. -/
def follow : Nat → List UInt8 → List UInt8
  | _, [] => []
  | i, b :: bs => b :: (k (i + 1) ++ follow (i + 1) bs)

/-- The text with all that is put in. -/
def text (bs : List UInt8) : List UInt8 := k 0 ++ k.follow 0 bs

/-- Where an offset is found. -/
def offset (o : Offset) : Offset := if o < 0 then o else o + (k.upTo o.toNat).length

/-- The number of line feeds put in up to an offset. -/
def lines (o : Offset) : Nat := if o < 0 then 0 else feeds (k.upTo o.toNat)

/-! ## offsets -/

theorem upTo_succ (n : Nat) : k.upTo (n + 1) = k.upTo n ++ k (n + 1) := by
  rw [upTo, List.range_succ, List.flatMap_append, List.flatMap_singleton, upTo]

theorem upTo_prefix {m n : Nat} (h : m ≤ n) : k.upTo m <+: k.upTo n := by
  induction n, h using Nat.le_induction with
  | base => exact List.prefix_rfl
  | succ n _ ih => exact ih.trans (k.upTo_succ n ▸ List.prefix_append _ _)

theorem offset_natCast (n : Nat) : k.offset n = n + (k.upTo n).length := by
  rw [offset, if_neg (by lia), Int.toNat_natCast]

private theorem lines_natCast (n : Nat) : k.lines n = feeds (k.upTo n) := by
  rw [lines, if_neg (by lia), Int.toNat_natCast]

/-- What follows an offset is found behind it. -/
theorem offset_lt {o p : Offset} (h : o < p) : k.offset o < k.offset p := by
  have hlength := (k.upTo_prefix (m := o.toNat) (n := p.toNat) (by lia)).length_le
  rw [offset, offset]
  split <;> split <;> lia

theorem lines_mono {o p : Offset} (h : o ≤ p) : k.lines o ≤ k.lines p := by
  rw [lines, lines]
  split
  · exact Nat.zero_le _
  · rw [if_neg (by lia)]
    exact (k.upTo_prefix (by lia)).sublist.count_le lineFeed

/-- Where nothing is put in, offsets stay next to each other. -/
theorem upTo_eq {m n : Nat} (h : m ≤ n) (hnone : ∀ i, m < i → i ≤ n → k i = []) :
    k.upTo n = k.upTo m := by
  induction n, h using Nat.le_induction with
  | base => rfl
  | succ n hmn ih =>
    rw [k.upTo_succ, hnone (n + 1) (by omega) (Nat.le_refl _), List.append_nil,
      ih fun i hm hn => hnone i hm (by omega)]

/-! ## the text -/

theorem follow_append (i : Nat) (xs ys : List UInt8) :
    k.follow i (xs ++ ys) = k.follow i xs ++ k.follow (i + xs.length) ys := by
  induction xs generalizing i with
  | nil => rfl
  | cons b rest ih =>
    have hi : i + (b :: rest).length = i + 1 + rest.length := by
      rw [List.length_cons]
      omega
    rw [List.cons_append, follow, follow, ih, hi, List.cons_append, List.append_assoc]

theorem text_append (xs ys : List UInt8) :
    k.text (xs ++ ys) = k.text xs ++ k.follow xs.length ys := by
  rw [text, text, follow_append, Nat.zero_add, List.append_assoc]

theorem text_concat (xs : List UInt8) (b : UInt8) :
    k.text (xs ++ [b]) = k.text xs ++ b :: k (xs.length + 1) := by
  rw [text_append, follow, follow, List.append_nil]

/-- The text is as much longer as what is put in. -/
theorem length_text (xs : List UInt8) :
    (k.text xs).length = xs.length + (k.upTo xs.length).length := by
  induction xs using List.reverseRecOn with
  | nil => simp [text, follow, upTo]
  | append_singleton xs b ih =>
    rw [text_concat, List.length_append, List.length_append, ih, List.length_cons,
      List.length_singleton, upTo_succ, List.length_append]
    omega

theorem feeds_text (xs : List UInt8) : feeds (k.text xs) = feeds xs + feeds (k.upTo xs.length) := by
  induction xs using List.reverseRecOn with
  | nil => simp [text, follow, upTo]
  | append_singleton xs b ih =>
    rw [text_concat, feeds_append, ih, feeds_cons, feeds_append, feeds_singleton,
      List.length_append, List.length_singleton, upTo_succ, feeds_append]
    omega

/-- Where nothing is put in, the text is as it was. -/
theorem exists_follow {i : Nat} {ys : List UInt8} (zs : List UInt8)
    (hnone : ∀ j, i < j → j < i + ys.length → k j = []) :
    ∃ us, k.follow i (ys ++ zs) = ys ++ us := by
  induction ys generalizing i with
  | nil => exact ⟨_, rfl⟩
  | cons b rest ih =>
    rw [List.length_cons] at hnone
    obtain ⟨us, hus⟩ := ih (i := i + 1) fun j hi hj => hnone j (by omega) (by omega)
    rw [List.cons_append, follow, hus]
    cases rest with
    | nil => exact ⟨k (i + 1) ++ us, rfl⟩
    | cons c rest =>
      refine ⟨us, ?_⟩
      rw [hnone (i + 1) (by omega) (by rw [List.length_cons]; omega), List.nil_append]
      rfl

/-- The text of a buffer with all that is put in. -/
def buffer (b : Buffer) : Buffer := .ofBytes (k.text b.bytes.toList).toArray

theorem toList_buffer (b : Buffer) : (k.buffer b).bytes.toList = k.text b.bytes.toList := rfl

/-- The line of an offset is as much further down as lines are put in. -/
theorem lineOf_offset (b : Buffer) {o : Offset} (h : 0 ≤ o) (hle : o ≤ b.bytes.size) :
    (k.buffer b).lineOf (k.offset o) = b.lineOf o + k.lines o := by
  obtain ⟨n, rfl⟩ := Int.eq_ofNat_of_zero_le h
  have hn : n ≤ b.bytes.size := Int.ofNat_le.1 hle
  have hlength : (b.bytes.toList.take n).length = n := by
    rw [List.length_take, Array.length_toList]
    omega
  have hoffset : k.offset n = ((k.text (b.bytes.toList.take n)).length : Nat) := by
    rw [offset_natCast, length_text, hlength]
    lia
  have hsplit : (k.buffer b).bytes.toList =
      k.text (b.bytes.toList.take n) ++ k.follow n (b.bytes.toList.drop n) := by
    conv_lhs => rw [toList_buffer, ← List.take_append_drop n b.bytes.toList, text_append, hlength]
  rw [hoffset, Buffer.lineOf_eq _ (Int.natCast_nonneg _), Int.toNat_natCast, hsplit,
    List.take_left, feeds_text, hlength, b.lineOf_eq h, Int.toNat_natCast, lines_natCast]
  omega

/-- A stretch into which nothing is put is found as it is. -/
theorem text_offset (b : Buffer) {start stop : Offset} (hstart : 0 ≤ start) (hlt : start < stop)
    (hstop : stop ≤ b.bytes.size) (hnone : ∀ i : Nat, start < i → i < stop → k i = []) :
    (k.buffer b).text (k.offset start) (k.offset start + (stop - start)) = b.text start stop := by
  obtain ⟨n, rfl⟩ := Int.eq_ofNat_of_zero_le hstart
  obtain ⟨l, rfl⟩ : ∃ l : Nat, stop = (n + l : Nat) := ⟨(stop - n).toNat, by lia⟩
  have hn : n + l ≤ b.bytes.size := Int.ofNat_le.1 hstop
  obtain ⟨xs, ys, zs, htext, rfl, rfl⟩ : ∃ xs ys zs,
      b.bytes.toList = xs ++ (ys ++ zs) ∧ xs.length = n ∧ ys.length = l := by
    refine ⟨b.bytes.toList.take n, (b.bytes.toList.drop n).take l,
      (b.bytes.toList.drop n).drop l, ?_, ?_, ?_⟩
    · rw [List.take_append_drop, List.take_append_drop]
    · rw [List.length_take, Array.length_toList]
      omega
    · rw [List.length_take, List.length_drop, Array.length_toList]
      omega
  obtain ⟨us, hus⟩ : ∃ us, k.follow xs.length (ys ++ zs) = ys ++ us :=
    k.exists_follow zs fun j hi hj => hnone j (by lia) (by lia)
  have htext' : (k.buffer b).bytes.toList = k.text xs ++ (ys ++ us) := by
    rw [toList_buffer, htext, text_append, hus]
  have hoffset : k.offset (xs.length : Nat) = ((k.text xs).length : Nat) := by
    rw [offset_natCast, length_text]
    lia
  rw [Buffer.text, Buffer.text, Bytes.text, Bytes.text,
    Buffer.slice_eq htext' hoffset (by rw [hoffset]; lia), Buffer.slice_eq htext rfl rfl]

/-! ## pieces -/

/-- What may be put into a text with given pieces: nothing into a piece, and no line end
between pieces on one line. -/
structure Suits (k : Inserts) (b : Buffer) (ps : List Piece) : Prop where
  ordered : ps.Pairwise (·.stop ≤ ·.start)
  proper {p : Piece} : p ∈ ps → 0 ≤ p.start ∧ p.start < p.stop ∧ p.stop ≤ b.bytes.size
  apart {p : Piece} {i : Nat} : p ∈ ps → p.start < i → i < p.stop → k i = []
  level {p q : Piece} : p ∈ ps → q ∈ ps → p.stop ≤ q.start →
    b.lineOf (p.stop - 1) = b.lineOf q.start → k.lines (p.stop - 1) = k.lines q.start

/-- Where a line is found: below the lines put in before the first piece that ends on it or
further down. -/
def row (b : Buffer) (ps : List Piece) (line : Nat) : Nat :=
  line + match ps.find? fun p => line ≤ b.lineOf (p.stop - 1) with
    | some p => k.lines p.start
    | none => k.lines b.bytes.size

variable {k} {b : Buffer} {ps : List Piece}

/-- No line is put into a piece. -/
theorem Suits.lines_eq (h : k.Suits b ps) {p : Piece} (hp : p ∈ ps) {o : Offset}
    (hstart : p.start ≤ o) (hstop : o < p.stop) : k.lines o = k.lines p.start := by
  have hnonneg := (h.proper hp).1
  rw [lines, lines, if_neg (by lia), if_neg (by lia),
    k.upTo_eq (m := p.start.toNat) (n := o.toNat) (by lia) fun i hm hn =>
      h.apart hp (by lia) (by lia)]

/-- The first piece that passes a test starts before one that passes a stricter test. -/
theorem start_le_of_find? (h : ps.Pairwise (·.stop ≤ ·.start))
    (hproper : ∀ p ∈ ps, p.start < p.stop) {f : Piece → Bool} {p q : Piece}
    (hp : ps.find? f = some p) (hq : q ∈ ps) (hf : f q = true) : p = q ∨ p.stop ≤ q.start := by
  induction ps with
  | nil => cases hp
  | cons r rest ih =>
    obtain ⟨hr, hrest⟩ := List.pairwise_cons.1 h
    rw [List.find?_cons] at hp
    split at hp
    · obtain rfl := Option.some.inj hp
      exact (List.mem_cons.1 hq).imp Eq.symm (hr q)
    · next hno =>
      rcases List.mem_cons.1 hq with rfl | hq
      · rw [hf] at hno
        cases hno
      · exact ih hrest (fun p hp => hproper p (List.mem_cons_of_mem r hp)) hp hq

theorem Suits.row_lt (h : k.Suits b ps) {l m : Nat} (hlm : l < m) : k.row b ps l < k.row b ps m := by
  have hproper := fun p hp => (h.proper (p := p) hp).2.1
  rw [row, row]
  refine Nat.add_lt_add_of_lt_of_le hlm ?_
  cases hm : ps.find? fun p => m ≤ b.lineOf (p.stop - 1) with
  | none =>
    cases hl : ps.find? fun p => l ≤ b.lineOf (p.stop - 1) with
    | none => exact Nat.le_refl _
    | some p =>
      have := h.proper (List.mem_of_find?_eq_some hl)
      exact k.lines_mono (by lia)
  | some q =>
    have hq := List.mem_of_find?_eq_some hm
    have hline := List.find?_some hm
    have hsome : (ps.find? fun p => l ≤ b.lineOf (p.stop - 1)).isSome := by
      rw [List.find?_isSome]
      exact ⟨q, hq, decide_eq_true (by have := of_decide_eq_true hline; omega)⟩
    obtain ⟨p, hp⟩ := Option.isSome_iff_exists.1 hsome
    rw [hp]
    rcases start_le_of_find? h.ordered hproper hp hq
      (decide_eq_true (by have := of_decide_eq_true hline; omega)) with rfl | hle
    · exact Nat.le_refl _
    · have := (h.proper (List.mem_of_find?_eq_some hp)).2.1
      exact k.lines_mono (by lia)

/-- The offsets of a piece are found on the line of theirs. -/
theorem Suits.lineOf_eq (h : k.Suits b ps) {p : Piece} (hp : p ∈ ps) {o : Offset}
    (hstart : p.start ≤ o) (hstop : o < p.stop) :
    (k.buffer b).lineOf (k.offset o) = k.row b ps (b.lineOf o) := by
  have hproper := h.proper hp
  have hlast : b.lineOf o ≤ b.lineOf (p.stop - 1) := b.lineOf_mono (by lia)
  have hsome : (ps.find? fun q => b.lineOf o ≤ b.lineOf (q.stop - 1)).isSome := by
    rw [List.find?_isSome]
    exact ⟨p, hp, decide_eq_true hlast⟩
  obtain ⟨q, hq⟩ := Option.isSome_iff_exists.1 hsome
  have hqmem := List.mem_of_find?_eq_some hq
  have hlines : k.lines o = k.lines q.start := by
    rw [h.lines_eq hp hstart hstop]
    rcases start_le_of_find? h.ordered (fun p hp => (h.proper hp).2.1) hq hp
      (decide_eq_true hlast) with rfl | hle
    · rfl
    · -- the piece that is found ends on the line of this one
      have hqproper := (h.proper hqmem).2.1
      have hline : b.lineOf (q.stop - 1) = b.lineOf p.start := by
        have h₁ : b.lineOf o ≤ b.lineOf (q.stop - 1) := of_decide_eq_true (List.find?_some hq :)
        have h₂ : b.lineOf p.start ≤ b.lineOf o := b.lineOf_mono hstart
        have h₃ : b.lineOf (q.stop - 1) ≤ b.lineOf p.start := b.lineOf_mono (by lia)
        omega
      rw [← h.level hqmem hp hle hline, h.lines_eq hqmem (by lia) (by lia)]
  rw [lineOf_offset k b (by lia) (by lia), row, hq, hlines]

/-- The shift of offsets by what is put in. -/
def shift (h : k.Suits b ps) : Shift b (k.buffer b) where
  map := k.offset
  row := k.row b ps
  row_lt := h.row_lt
  Solid start stop := start < stop ∧ ∃ p ∈ ps, p.start ≤ start ∧ stop ≤ p.stop
  lt_of_solid hsolid := hsolid.1
  narrow := fun ⟨_, p, hp, hstart, hstop⟩ h₁ h₂ h₃ =>
    ⟨h₂, p, hp, Int.le_trans hstart h₁, Int.le_trans h₃ hstop⟩
  mono hle := by
    rcases Int.lt_or_eq_of_le hle with hlt | rfl
    · exact Int.le_of_lt (k.offset_lt hlt)
    · exact Int.le_refl _
  strict _ hlt := k.offset_lt hlt
  map_eq := by
    rintro start stop o ⟨-, p, hp, hstart, hstop⟩ hle hlt
    have hnonneg := (h.proper hp).1
    rw [offset, offset, if_neg (by lia), if_neg (by lia),
      k.upTo_eq (m := start.toNat) (n := o.toNat) (by lia) fun i hm hn =>
        h.apart hp (by lia) (by lia)]
    lia
  lineOf := by
    rintro o ⟨-, p, hp, hstart, hstop⟩
    exact h.lineOf_eq hp hstart (by lia)
  text := by
    rintro start stop ⟨hlt, p, hp, hstart, hstop⟩
    have hproper := h.proper hp
    exact k.text_offset b (by lia) hlt (by lia) fun i hi hj => h.apart hp (by lia) (by lia)

/-- All offsets are kept. -/
theorem kept_shift (h : k.Suits b ps) (o : Offset) : (shift h).Kept o := fun _ => k.offset_lt

/-- The pieces are found as they are. -/
theorem Suits.solid (h : k.Suits b ps) {p : Piece} (hp : p ∈ ps) : (shift h).Solid p.start p.stop :=
  ⟨(h.proper hp).2.1, p, hp, Int.le_refl _, Int.le_refl _⟩

/-- All offsets behind a text belong to its last line. -/
theorem lineOf_of_size_le (b : Buffer) {o : Offset} (h : b.bytes.size ≤ o) :
    b.lineOf o = b.lineOf b.bytes.size := by
  have hsize : b.bytes.toList.length ≤ o.toNat := by
    rw [Array.length_toList]
    lia
  rw [b.lineOf_eq (by lia), b.lineOf_eq (Int.natCast_nonneg _), List.take_of_length_le hsize,
    Int.toNat_natCast, List.take_of_length_le (by rw [Array.length_toList])]

/-- The text ends where its end is found. -/
theorem size_buffer (b : Buffer) : (k.buffer b).bytes.size = k.offset b.bytes.size := by
  rw [← Array.length_toList, toList_buffer, length_text, Array.length_toList, offset_natCast]
  rfl

/-- If all lines stay where they are, so do those of all offsets. -/
theorem lineOf_offset_of_row (h : ∀ line, k.row b ps line = line) (o : Offset) :
    (k.buffer b).lineOf (k.offset o) = b.lineOf o := by
  -- no piece ends behind the last line
  have hnone : k.lines b.bytes.size = 0 := by
    have hfind : (ps.find? fun p => b.lineCount + 1 ≤ b.lineOf (p.stop - 1)) = none := by
      refine List.find?_eq_none.2 fun p _ => ?_
      have := b.lineOf_le (p.stop - 1)
      rw [decide_eq_true_eq]
      omega
    have hrow := h (b.lineCount + 1)
    rw [row, hfind] at hrow
    dsimp only at hrow
    omega
  have hinside : ∀ o : Offset, 0 ≤ o → o ≤ b.bytes.size →
      (k.buffer b).lineOf (k.offset o) = b.lineOf o := by
    intro o hnonneg hle
    have := k.lines_mono hle
    rw [k.lineOf_offset b hnonneg hle]
    omega
  rcases Int.lt_or_le o 0 with hneg | hnonneg
  · rw [offset, if_pos hneg, Buffer.lineOf_of_neg _ hneg, Buffer.lineOf_of_neg _ hneg]
  rcases Int.le_total o b.bytes.size with hle | hge
  · exact hinside o hnonneg hle
  · have hmono : k.offset b.bytes.size ≤ k.offset o := by
      rcases Int.lt_or_eq_of_le hge with hlt | heq
      · exact Int.le_of_lt (k.offset_lt hlt)
      · exact Int.le_of_eq (by rw [heq])
    rw [lineOf_of_size_le b hge, lineOf_of_size_le _ (by rw [size_buffer]; exact hmono),
      size_buffer, hinside _ (Int.natCast_nonneg _) (Int.le_refl _)]

end Inserts

end ScriptIndent
