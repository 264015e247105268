import Buildpath.Document.Encode
import Buildpath.Proofs.Xml.Documents

/-!
# The layout of written documents

The text of a document as characters: blocks with the same gap before each, where a block is an item
that is kept or an entry element, and the tags of an entry element as written tags.
-/

namespace Buildpath

open Xml

/-- What stands at one place in the root element. -/
inductive Block where
  | kept (source : String)
  | entry (e : Entry)

/-- The blocks of a document from a place on. -/
def blocks (foreign : Foreign) (place : Nat) : List Entry → List Block
  | [] => (foreign.topLevel.filter fun item ↦ place ≤ item.1).map fun item ↦ .kept item.2
  | e :: es =>
    ((foreign.topLevel.filter fun item ↦ item.1 = place).map fun item ↦ .kept item.2) ++
      .entry e :: blocks foreign (place + 1) es

/-- The blocks are made of the items of the root and the entries. -/
theorem blocks_congr {foreign foreign' : Foreign} (h : foreign.topLevel = foreign'.topLevel)
    (place : Nat) (es : List Entry) : blocks foreign place es = blocks foreign' place es := by
  induction es generalizing place with
  | nil => rw [blocks, blocks, h]
  | cons e es ih => rw [blocks, blocks, h, ih]

/-- The foreign content of an entry. -/
def Foreign.content (foreign : Foreign) (e : Entry) : ForeignContent :=
  (foreign.entries.find? e.path).getD {}

/-- A line end and an indentation. -/
def gap (depth : Nat) : List Char := '\n' :: List.replicate depth '\t'

/-- The text of an extra attribute. -/
def itemText (a : Attribute) : List Char :=
  openTagText fileWords.attributeItem.toList [("name", a.name), ("value", a.value)] true

/-- The text of the extra attributes of an entry, with the gap before it. -/
def groupText (e : Entry) : List Char :=
  if e.attributes.isEmpty then []
  else
    gap 2 ++ (openTagText fileWords.attributes.toList [] false ++
      (e.attributes.flatMap (fun a ↦ gap 3 ++ itemText a) ++ gap 2) ++
      closeTagText fileWords.attributes.toList)

/-- The text between the tags of an entry element. -/
def innerText (e : Entry) (content : ForeignContent) : List Char :=
  groupText e ++ content.children.flatMap (fun c ↦ gap 2 ++ c.toList) ++ gap 1

/-- The text of an entry element. -/
def entryText (project : Path) (e : Entry) (content : ForeignContent) : List Char :=
  if e.attributes.isEmpty && content.children.isEmpty then
    openTagText fileWords.entry.toList (encodeAttributes project e content) true
  else
    openTagText fileWords.entry.toList (encodeAttributes project e content) false ++
      innerText e content ++ closeTagText fileWords.entry.toList

/-- The text of a block. -/
def blockText (project : Path) (foreign : Foreign) : Block → List Char
  | .kept source => source.toList
  | .entry e => entryText project e (foreign.content e)

/-- The text between the tags of the root element. -/
def rootText (project : Path) (d : Document) : List Char :=
  (blocks d.foreign 0 d.entries).flatMap (fun b ↦ gap 1 ++ blockText project d.foreign b) ++ gap 0

@[simp]
theorem toList_attributeText (name value : String) :
    (attributeText name value).toList = writtenAttribute (name, value) := by
  simp [attributeText, writtenAttribute]

/-- Lines with a tab before and a line end after each, after one more line end. -/
private theorem toList_indented (lines : List String) :
    '\n' :: (indented "\t" lines).toList = lines.flatMap (fun l ↦ gap 1 ++ l.toList) ++ ['\n'] := by
  rw [indented, String.toList_join, List.flatMap_map]
  induction lines with
  | nil => rfl
  | cons line lines ih =>
    rw [List.flatMap_cons, List.flatMap_cons, List.append_assoc, ← ih]
    simp [gap]

private theorem indented_append (lines lines' : List String) :
    indented "\t" (lines ++ lines') = indented "\t" lines ++ indented "\t" lines' := by
  apply String.toList_inj.mp
  simp [indented]

private theorem toList_entryStart (project : Path) (e : Entry) (content : ForeignContent) :
    ("<" ++ fileWords.entry ++ String.join ((encodeAttributes project e content).map
      fun (name, value) ↦ attributeText name value)).toList =
      '<' :: (fileWords.entry.toList ++
        (encodeAttributes project e content).flatMap writtenAttribute) := by
  rw [String.toList_append, String.toList_append, String.toList_join, List.flatMap_map]
  simp

/-- The lines of an entry element are its text after a gap. -/
private theorem flatMap_encodeLines (project : Path) (e : Entry) (content : ForeignContent) :
    (encodeLines project e content).flatMap (fun l ↦ gap 1 ++ l.toList) =
      gap 1 ++ entryText project e content := by
  unfold encodeLines entryText
  dsimp only
  split
  · rw [List.flatMap_cons, List.flatMap_nil, List.append_nil, String.toList_append, toList_entryStart]
    simp [openTagText, tagEnd]
  · rw [List.flatMap_append, List.flatMap_append, List.flatMap_append, List.flatMap_cons,
      List.flatMap_nil, List.append_nil, String.toList_append, toList_entryStart]
    by_cases ha : e.attributes.isEmpty
    · simp [innerText, groupText, ha, openTagText, closeTagText, tagEnd, gap, List.flatMap_map,
        List.replicate]
    · simp [innerText, groupText, ha, openTagText, closeTagText, tagEnd, gap, List.flatMap_map,
        List.replicate, itemText]

/-- The text of a document is its blocks, each after a gap, in the root element. -/
theorem toList_encodeFrom (project : Path) (foreign : Foreign) (place : Nat) (es : List Entry) :
    '\n' :: (encodeFrom project foreign place es).toList =
      (blocks foreign place es).flatMap (fun b ↦ gap 1 ++ blockText project foreign b) ++
        ['\n'] := by
  induction es generalizing place with
  | nil =>
    rw [encodeFrom, encodeTopLevel, toList_indented, blocks, List.flatMap_map, List.flatMap_map]
    simp [blockText]
  | cons e es ih =>
    have hlines := toList_indented (((foreign.topLevel.filter fun item ↦ item.1 = place).map
      Prod.snd) ++ encodeLines project e (foreign.content e))
    rw [List.flatMap_append, flatMap_encodeLines, indented_append] at hlines
    rw [encodeFrom, encodeTopLevel, String.toList_append, ← List.cons_append]
    change '\n' :: (indented "\t" _ ++
      indented "\t" (encodeLines project e (foreign.content e))).toList ++ _ = _
    rw [hlines, List.append_assoc, List.singleton_append, ih (place + 1), blocks]
    simp [blockText, List.flatMap_map]

/-- The text of a document is its header and its root element. -/
theorem toList_encode (project : Path) (d : Document) :
    (d.encode project).toList =
      documentHeader.toList ++ (openTagText fileWords.root.toList [] false ++ rootText project d ++
        closeTagText fileWords.root.toList) ++ ['\n'] := by
  have hroot : '\n' :: (encodeFrom project d.foreign 0 d.entries).toList = rootText project d :=
    toList_encodeFrom project d.foreign 0 d.entries
  have htag : ("<" ++ fileWords.root ++ ">\n").toList =
      openTagText fileWords.root.toList [] false ++ ['\n'] := by decide
  have hclose : ("</" ++ fileWords.root ++ ">\n").toList =
      closeTagText fileWords.root.toList ++ ['\n'] := by decide
  have hsplit : d.encode project = documentHeader ++ ("<" ++ fileWords.root ++ ">\n") ++
      encodeFrom project d.foreign 0 d.entries ++ ("</" ++ fileWords.root ++ ">\n") := by
    simp only [Document.encode, String.append_assoc]
  rw [hsplit, String.toList_append, String.toList_append, String.toList_append, htag, hclose, ← hroot]
  simp

end Buildpath
