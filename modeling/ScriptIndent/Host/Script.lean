import ScriptIndent.Notice
import ScriptIndent.Source.Basic
import ScriptIndent.Text.Blank
import ScriptIndent.Text.Lowercase

/-!
# ScriptIndent.Host.Script

The scripts in a host document.

The tree of the document only tells where the script elements are.  All of the
document outside the blocks of script is blanked byte for byte, line ends kept,
so that what is parsed afterwards has the offsets and the lines of the document.

A script element is passed over when its `type` or `lang` names something other
than JavaScript, or when it has no start tag or no text.
-/

namespace ScriptIndent.Host

/-- The values of `type` that name JavaScript. -/
def scriptTypes : List String :=
  ["", "module", "text/javascript", "application/javascript", "javascript"]

/-- The values of `lang` that name JavaScript. -/
def scriptLangs : List String := ["", "js", "javascript"]

/-! ## attributes -/

/-- The text of a node of the document. -/
def nodeText (bytes : Bytes) (n : Node) : String := bytes.text n.start n.stop

/-- The value that a part of an attribute gives it, if any. -/
def valueOfPart? (bytes : Bytes) (part : Node) : Option String :=
  if part.kind == "attribute_value" then some (nodeText bytes part)
  else if part.kind == "quoted_attribute_value" then
    (part.childOfKind? "attribute_value").map (nodeText bytes)
  else none

/-- The value of an attribute: the last that its parts give. -/
def attributeValue (bytes : Bytes) (n : Node) : String :=
  ((n.namedChildren.filterMap (valueOfPart? bytes)).getLast?).getD ""

/-- The name and the value of an attribute, in small letters and the value
without white space around it. -/
def attribute? (bytes : Bytes) (n : Node) : Option (String × String) :=
  if n.kind == "attribute" then
    (n.childOfKind? "attribute_name").map fun name =>
      (Text.lowercase (nodeText bytes name),
        Text.lowercase (String.ofList (Text.strip (attributeValue bytes n).toList)))
  else none

/-- The attributes of a start tag.  Of two with one name the later one counts,
so they are listed backwards. -/
def attributes (bytes : Bytes) (startTag : Node) : List (String × String) :=
  (startTag.namedChildren.filterMap (attribute? bytes)).reverse

/-- The attributes of a start tag by name, each name once. -/
def attributesByName (bytes : Bytes) (startTag : Node) : List (String × String) :=
  let all := attributes bytes startTag
  ((all.map (·.1)).eraseDups.mergeSort (· ≤ ·)).map fun name => (name, (all.lookup name).getD "")

/-- The attributes of a start tag do not name anything other than
JavaScript. -/
def isJavaScript (bytes : Bytes) (startTag : Node) : Bool :=
  let all := attributes bytes startTag
  scriptTypes.contains ((all.lookup "type").getD "")
    && scriptLangs.contains ((all.lookup "lang").getD "")

/-! ## script elements -/

mutual

/-- The outermost script elements of a tree, reached through named nodes. -/
def scriptElements : Node → List Node
  | n@⟨kind, _, _, _, _, _, _, children⟩ =>
    if kind == "script_element" then [n] else scriptElementsOfNamed children

/-- The outermost script elements of the named trees in a list. -/
def scriptElementsOfNamed : List Node → List Node
  | [] => []
  | n :: rest => (if n.isNamed then scriptElements n else []) ++ scriptElementsOfNamed rest

end

/-- How the script of a document is indented. -/
structure Layout where
  /-- Script is indented past its tag. -/
  indentScript : Bool := true
  /-- The width of one level. -/
  width : Int := 2

/-- The bytes before an offset on its line. -/
def lineBefore (bytes : Bytes) (o : Offset) : List UInt8 :=
  ((bytes.slice 0 o).reverse.takeWhile (· != Bytes.lineFeed)).reverse

/-- The level of the line on which a tag starts. -/
def tagLevel (bytes : Bytes) (o : Offset) (width : Int) : Int :=
  (((lineBefore bytes o).takeWhile Bytes.isIndent).length : Int) / max width 1

/-- The block of script in a script element, or the notice that the element
holds something else. -/
def blockOf? (bytes : Bytes) (layout : Layout) (element : Node) :
    Option (Except Notice ScriptBlock) :=
  match element.childOfKind? "start_tag", element.childOfKind? "raw_text" with
  | some startTag, some rawText =>
    if isJavaScript bytes startTag then
      let level := tagLevel bytes element.start layout.width
      some (.ok ⟨rawText.start, rawText.stop, if layout.indentScript then level + 1 else level⟩)
    else
      some (.error (.foreignScript ((Buffer.ofBytes bytes).lineOf element.start)))
  | _, _ => none

/-! ## masking -/

/-- The bytes from one place up to another replaced by a piece, which is put in
at the first place if they are out of order.  Places behind the end are moved to
the end. -/
def splice (bytes : Bytes) (start stop : Nat) (piece : Bytes) : Bytes :=
  bytes.extract 0 start ++ piece ++ bytes.extract (max start stop) bytes.size

/-- The byte that stands for one outside the blocks: itself at the end of a
line, else a space. -/
def blank (b : UInt8) : UInt8 := if Bytes.isLineEnd b then b else Bytes.space

/-- The document with all of it blanked, written byte by byte. -/
def blanked (bytes : Bytes) : Bytes :=
  bytes.toList.zipIdx.foldl (fun masked p => masked.setIfInBounds p.2 (blank p.1))
    (Array.replicate bytes.size 0)

/-- Write a block of the document back.  The ends of a block are places in a
tree, so they count from the front. -/
def restore (bytes masked : Bytes) (block : ScriptBlock) : Bytes :=
  let start := block.start.toNat
  let stop := block.stop.toNat
  splice masked start stop (bytes.extract start stop)

/-- The document with all outside the blocks blanked. -/
def mask (bytes : Bytes) (blocks : List ScriptBlock) : Bytes :=
  blocks.foldl (restore bytes) (blanked bytes)

/-- The scripts of a document. -/
structure Scripts where
  masked : Bytes
  blocks : List ScriptBlock
  notices : List Notice

/-- Extract the scripts of a document with a given tree. -/
def scripts (bytes : Bytes) (root : Node) (layout : Layout) : Scripts :=
  let found := (scriptElements root).filterMap (blockOf? bytes layout)
  let blocks := found.filterMap (·.toOption)
  { masked := mask bytes blocks
    blocks
    notices := found.filterMap fun | .error n => some n | .ok _ => none }

end ScriptIndent.Host
