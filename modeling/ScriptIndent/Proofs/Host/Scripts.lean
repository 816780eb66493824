import ScriptIndent.Proofs.Host.Mask
import ScriptIndent.Proofs.Tree.Addresses

/-!
# ScriptIndent.Proofs.Host.Scripts

Which scripts are extracted from a document, and what is left of it.

```
<body>
  <script>                       script
    f;                             the block: the text of the element
  </script>
  <script type="text/json">      passed over, with all that is below it
    {}
  </script>
</body>
```

1. The traversal stops at script elements, so it finds those that do not lie in another one, in
   the order of their addresses (`exists_listing_scriptElements`).
2. Of these the ones with a start tag, a text and attributes that name nothing but JavaScript
   become blocks (`toOption_blockOf?`).
3. The level of a block is measured on the line of its element, in front of the element
   (`tagLevel_eq`).

Nothing is assumed of the tree: ranges may be out of order, overlap or end behind the document.
-/

namespace ScriptIndent

/-! ## the blanks before an offset -/

namespace Buffer

open Bytes

/-- The number of blanks with which the line of an offset begins, the ones from the offset on left
out. -/
def blanksBefore (b : Buffer) (o : Offset) : Nat :=
  min (b.indentation (b.lineOf o)).length (o - b.lineStart (b.lineOf o)).toNat

/-- The blanks before an offset are the first of the bytes before it on its line. -/
theorem blanksBefore_eq_takeWhile (b : Buffer) {o : Nat} (h : o ≤ b.bytes.size) :
    b.blanksBefore o =
      ((lastLine (b.bytes.toList.take o)).reverse.takeWhile isIndent).length := by
  obtain ⟨us, ws, hbytes, hcolumn, hlength, hline, hstart, hws⟩ := b.exists_cut h
  have hbefore : ((o : Offset) - us.length).toNat = ws.length := by lia
  rw [blanksBefore, hline, hstart, b.indentation_eq hbytes hcolumn, hbefore, ← hws,
    List.takeWhile_append]
  split
  · next hall => rw [List.length_append, hall, Nat.min_eq_right (Nat.le_add_right _ _)]
  · exact Nat.min_eq_left (List.takeWhile_prefix _).length_le

/-- The line of an offset at which there is no blank is indented by the blanks before the
offset. -/
theorem blanksBefore_eq_length (b : Buffer) {o : Nat} (h : o ≤ b.bytes.size)
    (hblank : ∀ c, b.bytes[o]? = some c → isIndent c = false) :
    b.blanksBefore o = (b.indentation (b.lineOf o)).length := by
  obtain ⟨us, ws, hbytes, hcolumn, hlength, hline, hstart, -⟩ := b.exists_cut h
  have hrest : (b.bytes.toList.drop o).takeWhile isIndent = [] := by
    cases hdrop : b.bytes.toList.drop o with
    | nil => rfl
    | cons c rest =>
      have hc : b.bytes[o]? = some c := by
        rw [← Array.getElem?_toList, ← List.head?_drop, hdrop, List.head?_cons]
      rw [List.takeWhile_cons, hblank c hc]
      rfl
  have hle : ((ws ++ b.bytes.toList.drop o).takeWhile isIndent).length ≤ ws.length := by
    rw [List.takeWhile_append, hrest, List.append_nil]
    split
    · exact Nat.le_refl _
    · exact (List.takeWhile_prefix _).length_le
  have hbefore : ((o : Offset) - us.length).toNat = ws.length := by lia
  rw [blanksBefore, hline, hstart, b.indentation_eq hbytes hcolumn, hbefore, Nat.min_eq_left hle]

end Buffer

namespace Bytes

theorem index_le (bytes : Bytes) (o : Offset) : bytes.index o ≤ bytes.size := by
  rw [index]
  split <;> lia

end Bytes

namespace Host

variable {bytes : Bytes} {layout : Layout}

/-- The level of a tag is that of the blanks before it. -/
theorem tagLevel_eq (bytes : Bytes) (o : Offset) (width : Int) :
    tagLevel bytes o width =
      ((Buffer.ofBytes bytes).blanksBefore (bytes.index o) : Int) / max width 1 := by
  have hslice : bytes.slice 0 o = bytes.toList.take (bytes.index o) := by
    rw [Bytes.slice, Array.toList_extract, List.extract_eq_take_drop]
    simp [Bytes.index]
  rw [(Buffer.ofBytes bytes).blanksBefore_eq_takeWhile (bytes.index_le o), tagLevel, lineBefore,
    hslice]
  rfl

/-! ## attributes -/

/-- Looking from the end finds the last entry with a key. -/
theorem lookup_reverse_filterMap {α κ ν : Type} [BEq κ] [LawfulBEq κ] (pairOf? : α → Option (κ × ν))
    {xs : List α} {key : κ} {value : ν} :
    (xs.filterMap pairOf?).reverse.lookup key = some value ↔
      ∃ before last after, xs = before ++ last :: after ∧ pairOf? last = some (key, value) ∧
        ∀ x ∈ after, ∀ other, pairOf? x ≠ some (key, other) := by
  rw [List.lookup_eq_some_iff]
  constructor
  · rintro ⟨entries, rest, hsplit, hentries⟩
    rw [List.reverse_eq_append_iff, List.reverse_cons, List.append_assoc, List.singleton_append,
      List.filterMap_eq_append_iff] at hsplit
    obtain ⟨before, behind, rfl, -, hbehind⟩ := hsplit
    obtain ⟨silent, last, after, rfl, -, hlast, hafter⟩ := List.filterMap_eq_cons_iff.1 hbehind
    refine ⟨before ++ silent, last, after, (List.append_assoc ..).symm, hlast, fun x hx other h => ?_⟩
    have hmem : (key, other) ∈ entries := by
      rw [← List.mem_reverse, ← hafter]
      exact List.mem_filterMap.2 ⟨x, hx, h⟩
    simpa using hentries _ hmem
  · rintro ⟨before, last, after, rfl, hlast, hafter⟩
    refine ⟨(after.filterMap pairOf?).reverse, (before.filterMap pairOf?).reverse, ?_, ?_⟩
    · rw [List.filterMap_append, List.filterMap_cons_some hlast]
      simp
    · rintro ⟨k, other⟩ hmem
      obtain ⟨x, hx, hentry⟩ := List.mem_filterMap.1 (List.mem_reverse.1 hmem)
      rw [bne_iff_ne]
      rintro rfl
      exact hafter x hx other hentry

/-- The value that a start tag gives a name is that of its last attribute of the name. -/
def Gives (bytes : Bytes) (startTag : Node) (name value : String) : Prop :=
  ∃ before last after, startTag.namedChildren = before ++ last :: after ∧
    attribute? bytes last = some (name, value) ∧
    ∀ n ∈ after, ∀ other, attribute? bytes n ≠ some (name, other)

theorem lookup_attributes {startTag : Node} {name value : String} :
    (attributes bytes startTag).lookup name = some value ↔ Gives bytes startTag name value :=
  lookup_reverse_filterMap (attribute? bytes)

/-- A start tag names JavaScript if what it gives a name, if anything, is one of some values. -/
theorem contains_lookup_iff {startTag : Node} {name : String} {values : List String}
    (hempty : "" ∈ values) :
    values.contains (((attributes bytes startTag).lookup name).getD "") = true ↔
      ∀ value, Gives bytes startTag name value → value ∈ values := by
  simp only [← lookup_attributes, List.contains_iff_mem]
  cases (attributes bytes startTag).lookup name with
  | none => simpa using hempty
  | some value => simp

/-! ## script elements -/

/-- A script element that is extracted: it has a start tag and a text, and its `type` and its
`lang` name nothing but JavaScript. -/
structure IsScript (bytes : Bytes) (element startTag rawText : Node) : Prop where
  tag : element.childOfKind? "start_tag" = some startTag
  text : element.childOfKind? "raw_text" = some rawText
  type : ∀ value, Gives bytes startTag "type" value → value ∈ scriptTypes
  lang : ∀ value, Gives bytes startTag "lang" value → value ∈ scriptLangs

theorem isJavaScript_iff {startTag : Node} : isJavaScript bytes startTag = true ↔
    (∀ value, Gives bytes startTag "type" value → value ∈ scriptTypes) ∧
      ∀ value, Gives bytes startTag "lang" value → value ∈ scriptLangs := by
  rw [isJavaScript, Bool.and_eq_true, contains_lookup_iff (by decide),
    contains_lookup_iff (by decide)]

/-- A block is extracted from a script element: it is the range of the element's text, and its
level that of the blanks before the element, or one more. -/
def Extracts (bytes : Bytes) (layout : Layout) (element : Node) (k : ScriptBlock) : Prop :=
  ∃ startTag rawText, IsScript bytes element startTag rawText ∧
    k.start = rawText.start ∧ k.stop = rawText.stop ∧
    k.baseLevel =
      ((Buffer.ofBytes bytes).blanksBefore (bytes.index element.start) : Int) / max layout.width 1 +
        if layout.indentScript then 1 else 0

theorem toOption_blockOf? {element : Node} {k : ScriptBlock} :
    (blockOf? bytes layout element).bind (·.toOption) = some k ↔
      Extracts bytes layout element k := by
  rw [blockOf?]
  constructor
  · intro h
    split at h
    · next startTag rawText htag htext =>
      split at h
      · next hscript =>
        obtain ⟨htype, hlang⟩ := isJavaScript_iff.1 hscript
        obtain rfl := Option.some.inj h
        refine ⟨startTag, rawText, ⟨htag, htext, htype, hlang⟩, rfl, rfl, ?_⟩
        rw [← tagLevel_eq]
        cases layout.indentScript <;> simp
      · cases h
    · cases h
  · rintro ⟨startTag, rawText, hscript, hstart, hstop, hlevel⟩
    rw [hscript.tag, hscript.text]
    dsimp only
    rw [if_pos (isJavaScript_iff.2 ⟨hscript.type, hscript.lang⟩)]
    obtain ⟨start, stop, baseLevel⟩ := k
    obtain rfl : start = rawText.start := hstart
    obtain rfl : stop = rawText.stop := hstop
    rw [← tagLevel_eq] at hlevel
    obtain rfl : baseLevel = _ := hlevel
    cases layout.indentScript <;> simp [Except.toOption]

/-- The script element at an address does not lie in another one, and is reached through named
nodes. -/
inductive Outermost : Node → List Nat → Prop
  | itself {n : Node} (script : n.kind = "script_element") : Outermost n []
  | child {n c : Node} {i : Nat} {rest : List Nat} (other : n.kind ≠ "script_element")
      (get : n.children[i]? = some c) (named : c.isNamed = true) (below : Outermost c rest) :
      Outermost n (i :: rest)

theorem scriptElementsOfNamed_eq (ns : List Node) :
    scriptElementsOfNamed ns = (ns.filter (·.isNamed)).flatMap scriptElements := by
  induction ns with
  | nil => rfl
  | cons n rest ih =>
    rw [scriptElementsOfNamed, ih]
    by_cases h : n.isNamed <;> simp [h]

theorem scriptElements_eq (n : Node) :
    scriptElements n = if n.kind = "script_element" then [n]
      else (n.children.filter (·.isNamed)).flatMap scriptElements := by
  obtain ⟨kind, isNamed, isMissing, hasError, fields, start, stop, children⟩ := n
  rw [scriptElements, scriptElementsOfNamed_eq]
  simp only [beq_iff_eq]

/-- The script elements that are found are the outermost ones, in the order of their addresses. -/
theorem exists_listing_scriptElements (ancestors : List Node) (n : Node) :
    ∃ addresses, Node.Listing (Outermost n)
      (fun address element => ∃ above, n.at? ancestors address = some ⟨element, above⟩)
      addresses (scriptElements n) := by
  induction n using Node.induct generalizing ancestors with
  | step n ih =>
    rw [scriptElements_eq]
    by_cases hscript : n.kind = "script_element"
    · rw [if_pos hscript]
      refine ⟨[[]], List.pairwise_singleton .., fun {address} => ?_, .cons ⟨ancestors, rfl⟩ .nil⟩
      rw [List.mem_singleton]
      constructor
      · rintro rfl
        exact .itself hscript
      · intro h
        cases h with
        | itself => rfl
        | child other => exact absurd hscript other
    · rw [if_neg hscript]
      obtain ⟨addresses, hchildren⟩ := Node.exists_listing_children fun c hc =>
        ih c hc (n :: ancestors)
      refine ⟨addresses, hchildren.sorted, fun {address} => ?_, hchildren.stands.imp ?_⟩
      · rw [hchildren.mem_iff]
        constructor
        · rintro ⟨i, rest, c, rfl, get, named, below⟩
          exact .child hscript get named below
        · intro h
          cases h with
          | itself script => exact absurd script hscript
          | child _ get named below => exact ⟨_, _, _, rfl, get, named, below⟩
      · rintro _ element ⟨i, rest, c, rfl, get, above, hat⟩
        refine ⟨above, ?_⟩
        rw [Node.at?, get]
        exact hat

/-- A block is extracted from the script element at an address. -/
def ExtractsAt (bytes : Bytes) (layout : Layout) (root : Node) (address : List Nat)
    (k : ScriptBlock) : Prop :=
  ∃ element, (∃ above, root.at? [] address = some ⟨element, above⟩) ∧
    Extracts bytes layout element k

/-- The blocks of a document are those of its outermost script elements, as far as these are
extracted, in the order of their addresses. -/
theorem exists_listing_blocks (bytes : Bytes) (root : Node) (layout : Layout) :
    ∃ addresses, Node.Listing
      (fun address => Outermost root address ∧ ∃ k, ExtractsAt bytes layout root address k)
      (ExtractsAt bytes layout root) addresses (scripts bytes root layout).blocks := by
  obtain ⟨addresses, hlisting⟩ := exists_listing_scriptElements [] root
  have honly (address : List Nat) (a b : Node)
      (ha : ∃ above, root.at? [] address = some ⟨a, above⟩)
      (hb : ∃ above, root.at? [] address = some ⟨b, above⟩) : a = b := by
    obtain ⟨above, ha⟩ := ha
    obtain ⟨above', hb⟩ := hb
    rw [ha] at hb
    exact congrArg Node.Placed.node (Option.some.inj hb)
  obtain ⟨kept, hkept⟩ := hlisting.filterMap honly
    fun element => (blockOf? bytes layout element).bind (·.toOption)
  have hblocks : (scripts bytes root layout).blocks =
      (scriptElements root).filterMap fun element =>
        (blockOf? bytes layout element).bind (·.toOption) := List.filterMap_filterMap
  simp only [toOption_blockOf?] at hkept
  rw [hblocks]
  refine ⟨kept, hkept.sorted, fun {address} => ?_, hkept.stands⟩
  rw [hkept.mem_iff]
  exact and_congr_right fun _ => ⟨fun ⟨a, k, h⟩ => ⟨k, a, h⟩, fun ⟨k, a, h⟩ => ⟨a, k, h⟩⟩

/-! ## the masked document -/

variable {blocks : List ScriptBlock} {i : Nat} {c : UInt8}

theorem size_mask : (mask bytes blocks).size = bytes.size := by
  rw [mask_eq_mapIdx, Array.size_mapIdx]

theorem getElem?_mask (h : bytes[i]? = some c) :
    (mask bytes blocks)[i]? = some (maskedByte blocks i c) := by
  rw [mask_eq_mapIdx, Array.getElem?_mapIdx, h, Option.map_some]

theorem maskedByte_of_outside (h : ¬∃ k ∈ blocks, k.Holds i) :
    maskedByte blocks i c = if Bytes.isLineEnd c then c else Bytes.space := by
  rw [maskedByte, if_neg (mt inBlocks_iff.1 h), blank]

/-- The bytes that end lines stand where they do in the document. -/
theorem getElem?_mask_iff (hend : Bytes.isLineEnd c = true) :
    (mask bytes blocks)[i]? = some c ↔ bytes[i]? = some c := by
  refine ⟨fun h => ?_, fun h => ?_⟩
  · rw [mask_eq_mapIdx, Array.getElem?_mapIdx, Option.map_eq_some_iff] at h
    obtain ⟨d, hd, rfl⟩ := h
    rw [maskedByte, blank] at hend ⊢
    split
    · exact hd
    · next hout =>
      rw [if_neg hout] at hend
      split at hend
      · next hd' => rwa [if_pos hd']
      · exact absurd hend (by decide)
  · rw [getElem?_mask h, maskedByte, blank, if_pos hend, ite_self]

/-- What is extracted from a document, whatever its tree.

1. The masked document has a byte for each byte of the document: the same one in a block and at
   the end of a line, else a space.
2. Bytes that end lines stand where they did, so each offset has the line and the column that it
   has in the document.
3. The blocks are the texts of the outermost script elements that are extracted, in the order of
   the elements.  The level of a block is measured by the blanks that begin the line of its
   element, up to the element.  These are all the blanks that begin the line, unless the element
   itself begins with a blank. -/
theorem scripts_of_document (bytes : Bytes) (root : Node) (layout : Layout) :
    let found := scripts bytes root layout
    let document := Buffer.ofBytes bytes
    let masked := Buffer.ofBytes found.masked
    found.masked.size = bytes.size ∧
    (∀ (i : Nat) (c : UInt8), bytes[i]? = some c →
      ((∃ k ∈ found.blocks, k.Holds i) → found.masked[i]? = some c) ∧
      ((¬∃ k ∈ found.blocks, k.Holds i) →
        found.masked[i]? = some (if Bytes.isLineEnd c then c else Bytes.space))) ∧
    (∀ c, Bytes.isLineEnd c = true → ∀ i : Nat, found.masked[i]? = some c ↔ bytes[i]? = some c) ∧
    (∀ o, masked.lineOf o = document.lineOf o) ∧
    (∀ line, masked.lineStart line = document.lineStart line) ∧
    (∃ addresses, Node.Listing
      (fun address => Outermost root address ∧ ∃ k, ExtractsAt bytes layout root address k)
      (ExtractsAt bytes layout root) addresses found.blocks) ∧
    ∀ o : Offset, (∀ c, bytes[bytes.index o]? = some c → Bytes.isIndent c = false) →
      document.blanksBefore (bytes.index o) =
        (document.indentation (document.lineOf (bytes.index o))).length := by
  intro found document masked
  refine ⟨size_mask, fun i c hc => ⟨?_, fun hout => ?_⟩,
    fun c hend i => getElem?_mask_iff hend, lineOf_mask bytes _, lineStart_mask bytes _,
    exists_listing_blocks bytes root layout,
    fun o hblank => document.blanksBefore_eq_length (bytes.index_le o) hblank⟩
  · rintro ⟨k, hk, hholds⟩
    calc found.masked[i]? = some (maskedByte found.blocks i c) := getElem?_mask hc
      _ = some c := by rw [maskedByte_of_holds hk hholds]
  · calc found.masked[i]? = some (maskedByte found.blocks i c) := getElem?_mask hc
      _ = some (if Bytes.isLineEnd c then c else Bytes.space) := by rw [maskedByte_of_outside hout]

/-- A page whose script is indented by two blanks. -/
def insetPage : Bytes := "  <script>f;</script>".toUTF8.data

/-- A script element of the page that begins with the second of the blanks. -/
def insetElement : Node :=
  ⟨"script_element", true, false, false, [], 1, 21,
    [⟨"start_tag", true, false, false, [], 2, 10, []⟩,
      ⟨"raw_text", true, false, false, [], 10, 12, []⟩,
      ⟨"end_tag", true, false, false, [], 12, 21, []⟩]⟩

/-- The tree of the page with this element. -/
def insetTree : Node := ⟨"document", true, false, false, [], 0, 21, [insetElement]⟩

/-- The blank with which the element begins does not count for the level of the block, although
the line begins with both blanks. -/
theorem baseLevel_insetPage :
    (scripts insetPage insetTree ⟨true, 1⟩).blocks = [⟨10, 12, 2⟩] ∧
    ¬∀ k ∈ (scripts insetPage insetTree ⟨true, 1⟩).blocks,
      k.baseLevel = (((Buffer.ofBytes insetPage).indentation
        ((Buffer.ofBytes insetPage).lineOf insetElement.start)).length : Int) / max 1 1 + 1 := by
  decide +kernel

end Host

end ScriptIndent
