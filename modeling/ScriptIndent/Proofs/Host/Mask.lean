import ScriptIndent.Host.Script
import ScriptIndent.Proofs.Layout.Lines

/-!
# ScriptIndent.Proofs.Host.Mask

What is left of a document when all outside the script is blanked.

```
document        <b>\n<script>f;</script>
blanked         ...\n....................
written back    ...\n........f;..........
```

The document is blanked byte by byte, and the blocks are written back one after the other.  They
may overlap, be out of order or end behind the document: each writes as many bytes as it takes
out, so the size stays (`getElem?_splice`), and what stands at an offset depends on no other
offset (`mask_eq_mapIdx`).

Line ends stay, so the lines of the masked document are those of the document
(`lineOf_mask`, `lineStart_mask`).  What is still to be seen stands in a block
(`exists_block_of_inked`), and where a line begins in the block of something that is to
be seen on it, its indentation is that of the document (`indentation_mask`).
-/

namespace ScriptIndent

/-- Lists that agree up to a member that fails a test have the same members before it. -/
theorem takeWhile_eq_of_agree {α : Type} {p : α → Bool} {xs ys : List α} {k : Nat}
    (h : ∀ i ≤ k, xs[i]? = ys[i]?) {a : α} (ha : xs[k]? = some a) (hp : p a = false) :
    xs.takeWhile p = ys.takeWhile p := by
  induction k generalizing xs ys with
  | zero =>
    have hzero := h 0 (Nat.le_refl 0)
    obtain ⟨xs, rfl⟩ := List.head?_eq_some_iff.1 (by rw [List.head?_eq_getElem?, ha])
    obtain ⟨ys, rfl⟩ := List.head?_eq_some_iff.1 (by rw [List.head?_eq_getElem?, ← hzero, ha])
    rw [List.takeWhile_cons, List.takeWhile_cons, hp]
    rfl
  | succ k ih =>
    have hzero := h 0 (Nat.zero_le _)
    rw [← List.head?_eq_getElem?, ← List.head?_eq_getElem?] at hzero
    cases xs with
    | nil => cases ha
    | cons x xs =>
      obtain ⟨ys, rfl⟩ := List.head?_eq_some_iff.1 hzero.symm
      have hrest : xs.takeWhile p = ys.takeWhile p :=
        ih (fun i hi => h (i + 1) (Nat.succ_le_succ hi)) ha
      rw [List.takeWhile_cons, List.takeWhile_cons, hrest]

/-- An offset lies in the block. -/
def ScriptBlock.Holds (k : ScriptBlock) (o : Offset) : Prop := k.start ≤ o ∧ o < k.stop

/-- An offset lies in the block, and not at its start. -/
def ScriptBlock.Surrounds (k : ScriptBlock) (o : Offset) : Prop := k.start < o ∧ o < k.stop

/-- A byte that is to be seen stands at an offset: it neither indents a line nor ends
one. -/
def Buffer.InkedAt (b : Buffer) (o : Offset) : Prop :=
  0 ≤ o ∧ b.bytes[o.toNat]?.any (fun c => !Bytes.isIndent c && !Bytes.isLineEnd c) = true

instance (b : Buffer) : DecidablePred b.InkedAt := fun _ => inferInstanceAs (Decidable (_ ∧ _))

namespace Buffer

theorem inkedAt_iff {b : Buffer} {o : Offset} : b.InkedAt o ↔
    0 ≤ o ∧ ∃ c, b.bytes[o.toNat]? = some c ∧ Bytes.isIndent c = false ∧
      Bytes.isLineEnd c = false := by
  simp [InkedAt, Option.any_eq_true]

/-- A line starts at or before its offsets. -/
theorem lineStart_le (b : Buffer) {o : Offset} (h : 0 ≤ o) : b.lineStart (b.lineOf o) ≤ o := by
  have hsplit := (List.take_append_drop o.toNat b.bytes.toList).symm
  have hlength : (b.bytes.toList.take o.toNat).length ≤ o.toNat := List.length_take_le _ _
  rw [b.lineOf_eq h, b.lineStart_eq hsplit]
  lia

/-- The offset of a later line than another's stands behind the start of its line. -/
theorem lt_lineStart (b : Buffer) {o : Offset} {line : Nat} (hpos : 0 < line)
    (hle : line ≤ b.lineCount) (h : b.lineOf o < line) : o < b.lineStart line := by
  refine Int.not_le.1 fun hstart => ?_
  have hmono := b.lineOf_mono hstart
  rw [b.lineOf_lineStart hpos hle] at hmono
  omega

end Buffer

namespace Host

variable (bytes : Bytes) (blocks : List ScriptBlock)

/-! ## bytes -/

/-- An offset lies in some block. -/
def inBlocks (blocks : List ScriptBlock) (o : Offset) : Bool :=
  blocks.any fun b => b.start ≤ o && o < b.stop

/-- The byte that stands for a byte of the document at an offset: itself in a
block, else a blank. -/
def maskedByte (blocks : List ScriptBlock) (o : Nat) (b : UInt8) : UInt8 :=
  if inBlocks blocks o then b else blank b

/-- A piece that is as long as what it replaces stands in its place, and all around it stays. -/
theorem getElem?_splice {masked piece : Bytes} {start stop : Nat}
    (h : piece.size = min stop masked.size - start) (i : Nat) :
    (splice masked start stop piece)[i]? =
      if start ≤ i ∧ i < stop then piece[i - start]? else masked[i]? := by
  rw [splice, Array.getElem?_append, Array.getElem?_append, Array.size_append, Array.size_extract,
    Array.getElem?_extract, Array.getElem?_extract, h]
  obtain hbefore | ⟨hin, hstop⟩ | hbehind :
      i < start ∨ (start ≤ i ∧ i < stop) ∨ max start stop ≤ i := by omega
  · rw [if_neg (by omega : ¬(start ≤ i ∧ i < stop))]
    by_cases hsize : i < masked.size
    · rw [if_pos (by omega), if_pos (by omega), if_pos (by omega), Nat.zero_add]
    · rw [if_neg (by omega), if_neg (by omega), Array.getElem?_eq_none (Nat.not_lt.1 hsize)]
  · rw [if_pos (⟨hin, hstop⟩ : start ≤ i ∧ i < stop)]
    by_cases hsize : i < masked.size
    · rw [if_pos (by omega), if_neg (by omega), (by omega : min start masked.size - 0 = start)]
    · rw [if_neg (by omega), if_neg (by omega), Array.getElem?_eq_none (by omega)]
  · rw [if_neg (by omega : ¬(start ≤ i ∧ i < stop))]
    by_cases hsize : i < masked.size
    · rw [if_neg (by omega), if_pos (by omega)]
      congr 1
      omega
    · rw [if_neg (by omega), if_neg (by omega), Array.getElem?_eq_none (Nat.not_lt.1 hsize)]

/-- Bytes that are blanked one after the other up to the end of a text: what lies before them
stays. -/
theorem getElem?_foldl_blank (bs : List UInt8) {k : Nat} {masked : Bytes}
    (h : k + bs.length = masked.size) (i : Nat) :
    ((bs.zipIdx k).foldl (fun masked p => masked.setIfInBounds p.2 (blank p.1)) masked)[i]? =
      if i < k then masked[i]? else (bs[i - k]?).map blank := by
  induction bs generalizing k masked with
  | nil =>
    rw [List.length_nil, Nat.add_zero] at h
    split
    · rfl
    · exact Array.getElem?_eq_none (by rw [List.zipIdx_nil, List.foldl_nil]; omega)
  | cons c rest ih =>
    rw [List.length_cons] at h
    rw [List.zipIdx_cons, List.foldl_cons, ih (by rw [Array.size_setIfInBounds]; omega),
      Array.getElem?_setIfInBounds]
    obtain hlt | rfl | hgt := Nat.lt_trichotomy i k
    · rw [if_pos (by omega), if_neg (by omega), if_pos hlt]
    · rw [if_pos (by omega), if_pos rfl, if_pos (by omega), if_neg (by omega), Nat.sub_self]
      rfl
    · rw [if_neg (by omega), if_neg (by omega), (by omega : i - k = (i - (k + 1)) + 1),
        List.getElem?_cons_succ]

theorem blanked_eq_map : blanked bytes = bytes.map blank := by
  refine Array.ext_getElem? fun i => ?_
  rw [blanked, getElem?_foldl_blank _ (by simp), if_neg (by omega), Array.getElem?_map,
    Nat.sub_zero, Array.getElem?_toList]

/-- A block that is written back is that of the document, and all around it stays. -/
theorem restore_mapIdx (f : Nat → UInt8 → UInt8) (k : ScriptBlock) :
    restore bytes (bytes.mapIdx f) k =
      bytes.mapIdx fun i c => if k.start ≤ i ∧ i < k.stop then c else f i c := by
  refine Array.ext_getElem? fun i => ?_
  rw [restore, getElem?_splice (by rw [Array.size_extract, Array.size_mapIdx]),
    Array.getElem?_extract, Array.getElem?_mapIdx, Array.getElem?_mapIdx]
  by_cases hholds : k.start ≤ i ∧ i < k.stop
  · simp only [hholds, and_self, if_true, Option.map_id']
    rw [if_pos (by lia)]
    by_cases hsize : i < bytes.size
    · rw [if_pos (by lia), (by lia : k.start.toNat + (i - k.start.toNat) = i)]
    · rw [if_neg (by lia), Array.getElem?_eq_none (Nat.not_lt.1 hsize)]
  · simp only [hholds, if_false]
    rw [if_neg (by lia)]

/-- Blocks that are written back in turn. -/
theorem foldl_restore (f : Nat → UInt8 → UInt8) :
    blocks.foldl (restore bytes) (bytes.mapIdx f) =
      bytes.mapIdx fun i c => if inBlocks blocks i then c else f i c := by
  induction blocks generalizing f with
  | nil => rfl
  | cons k rest ih =>
    rw [List.foldl_cons, restore_mapIdx, ih]
    congr 1
    funext i c
    rw [inBlocks, inBlocks, List.any_cons]
    by_cases hrest : (rest.any fun b => b.start ≤ i && i < b.stop) = true
    · rw [hrest, Bool.or_true]
      rfl
    · rw [Bool.not_eq_true] at hrest
      simp [hrest]

/-- Each byte of the masked document is that of the document in a block, and is blanked
outside. -/
theorem mask_eq_mapIdx : mask bytes blocks = bytes.mapIdx (maskedByte blocks) := by
  have hblanked : blanked bytes = bytes.mapIdx fun _ => blank := by
    rw [blanked_eq_map]
    refine Array.ext_getElem? fun i => ?_
    rw [Array.getElem?_map, Array.getElem?_mapIdx]
  rw [mask, hblanked, foldl_restore]
  rfl

/-! ## lines -/

/-- Line ends are those of the document. -/
theorem maskedByte_eq_lineFeed (o : Nat) (c : UInt8) :
    (maskedByte blocks o c == Bytes.lineFeed) = (c == Bytes.lineFeed) := by
  rw [maskedByte, blank]
  split
  · rfl
  · split
    · rfl
    · next h =>
      rw [Bytes.isLineEnd, Bool.or_eq_true, not_or] at h
      rw [(Bool.not_eq_true _).mp h.1]
      rfl

private theorem lineStartsFrom_mapIdx {f : Nat → UInt8 → UInt8}
    (h : ∀ i c, (f i c == Bytes.lineFeed) = (c == Bytes.lineFeed)) (next : Offset)
    (bs : List UInt8) :
    Bytes.lineStartsFrom next (bs.mapIdx f) = Bytes.lineStartsFrom next bs := by
  induction bs generalizing f next with
  | nil => rfl
  | cons c rest ih =>
    rw [List.mapIdx_cons, Bytes.lineStartsFrom, Bytes.lineStartsFrom, h,
      ih fun i c => h (i + 1) c]

/-- Lines start where those of the document do. -/
theorem starts_mask : (Buffer.ofBytes (mask bytes blocks)).starts = (Buffer.ofBytes bytes).starts := by
  change (mask bytes blocks).lineStarts = bytes.lineStarts
  rw [Bytes.lineStarts, Bytes.lineStarts, mask_eq_mapIdx, Array.toList_mapIdx,
    lineStartsFrom_mapIdx (maskedByte_eq_lineFeed blocks)]

theorem lineOf_mask (o : Offset) :
    (Buffer.ofBytes (mask bytes blocks)).lineOf o = (Buffer.ofBytes bytes).lineOf o := by
  rw [Buffer.lineOf, Buffer.lineOf, starts_mask]

theorem lineStart_mask (line : Nat) :
    (Buffer.ofBytes (mask bytes blocks)).lineStart line = (Buffer.ofBytes bytes).lineStart line := by
  rw [Buffer.lineStart, Buffer.lineStart, starts_mask]

private theorem lineCount_mask :
    (Buffer.ofBytes (mask bytes blocks)).lineCount = (Buffer.ofBytes bytes).lineCount := by
  rw [Buffer.lineCount, Buffer.lineCount, starts_mask]

/-! ## what is to be seen -/

variable {bytes blocks}

theorem inBlocks_iff {o : Offset} : inBlocks blocks o = true ↔ ∃ k ∈ blocks, k.Holds o := by
  simp [inBlocks, ScriptBlock.Holds]

theorem maskedByte_of_holds {k : ScriptBlock} (hk : k ∈ blocks) {o : Nat} (h : k.Holds o)
    (c : UInt8) : maskedByte blocks o c = c := by
  rw [maskedByte, inBlocks_iff.2 ⟨k, hk, h⟩, if_pos rfl]

/-- What is to be seen stands in a block. -/
theorem exists_block_of_inked {o : Offset} (h : (Buffer.ofBytes (mask bytes blocks)).InkedAt o) :
    ∃ k ∈ blocks, k.Holds o := by
  obtain ⟨hpos, c, hc, hindent, hend⟩ := Buffer.inkedAt_iff.1 h
  obtain ⟨n, rfl⟩ := Int.eq_ofNat_of_zero_le hpos
  change (mask bytes blocks)[n]? = some c at hc
  rw [mask_eq_mapIdx, Array.getElem?_mapIdx, Option.map_eq_some_iff] at hc
  obtain ⟨c', -, rfl⟩ := hc
  rw [← inBlocks_iff]
  by_contra hout
  rw [maskedByte, if_neg hout, blank] at hindent hend
  split at hend
  · next h => rw [h] at hend; cases hend
  · next h =>
    rw [if_neg h] at hindent
    exact absurd hindent (by decide)

/-- A line that begins in the block of something to be seen on it is indented as in the
document. -/
theorem indentation_mask {k : ScriptBlock} (hk : k ∈ blocks) {o : Offset} (hstop : o < k.stop)
    (hink : (Buffer.ofBytes (mask bytes blocks)).InkedAt o)
    (hstart : k.start ≤ (Buffer.ofBytes bytes).lineStart ((Buffer.ofBytes bytes).lineOf o)) :
    (Buffer.ofBytes (mask bytes blocks)).indentation ((Buffer.ofBytes bytes).lineOf o) =
      (Buffer.ofBytes bytes).indentation ((Buffer.ofBytes bytes).lineOf o) := by
  obtain ⟨hpos, c, hc, hindent, -⟩ := Buffer.inkedAt_iff.1 hink
  have hle := (Buffer.ofBytes bytes).lineStart_le hpos
  have hline := (Buffer.ofBytes bytes).lineOf_pos hpos
  have hcount := (Buffer.ofBytes bytes).lineOf_le o
  generalize (Buffer.ofBytes bytes).lineOf o = line at hstart hle hline hcount
  obtain ⟨xs, ys, hbytes, hfeeds, hcolumn, hxs⟩ := (Buffer.ofBytes bytes).exists_line hline hcount
  obtain ⟨us, vs, hmasked, hfeeds', hcolumn', hus⟩ :=
    (Buffer.ofBytes (mask bytes blocks)).exists_line hline (by rwa [lineCount_mask])
  rw [lineStart_mask, hxs, Int.ofNat_inj] at hus
  have hget (i : Nat) : vs[i]? = (ys[i]?).map (maskedByte blocks (xs.length + i)) := by
    have hi : (mask bytes blocks).toList[xs.length + i]? =
        (bytes.toList[xs.length + i]?).map (maskedByte blocks (xs.length + i)) := by
      rw [mask_eq_mapIdx, Array.toList_mapIdx, List.getElem?_mapIdx]
    change bytes.toList = _ at hbytes
    change (mask bytes blocks).toList = _ at hmasked
    rwa [hmasked, hbytes, List.getElem?_append_right (by omega),
      List.getElem?_append_right (by omega), ← hus, Nat.add_sub_cancel_left] at hi
  -- up to the offset the line lies in the block
  rw [hxs] at hstart hle
  obtain ⟨i, rfl⟩ : ∃ i : Nat, o = (xs.length + i : Nat) := ⟨(o - xs.length).toNat, by lia⟩
  have hagree : ∀ l ≤ i, vs[l]? = ys[l]? := by
    intro l hl
    have hholds : k.Holds (xs.length + l : Nat) := ⟨by lia, by lia⟩
    rw [hget]
    cases ys[l]? with
    | none => rfl
    | some c => rw [Option.map_some, maskedByte_of_holds hk hholds]
  have hvs : vs[i]? = some c := by
    have hmasked' : (mask bytes blocks).toList = us ++ vs := hmasked
    rw [Int.toNat_natCast] at hc
    change (mask bytes blocks)[xs.length + i]? = some c at hc
    rwa [← Array.getElem?_toList, hmasked', List.getElem?_append_right (by omega), ← hus,
      Nat.add_sub_cancel_left] at hc
  rw [← hfeeds, Buffer.indentation_eq _ hbytes hcolumn, hfeeds, ← hfeeds',
    Buffer.indentation_eq _ hmasked hcolumn']
  exact takeWhile_eq_of_agree hagree hvs hindent

end Host

end ScriptIndent
