import Buildpath.Document.Basic
import Buildpath.Xml.Value

/-!
# Writing buildpath documents

The canonical layout of a project file: one entry a line, indented by a tab, with its attributes in
the order of their names. Foreign content is written back as it was read.
-/

namespace Buildpath

/-- The first line of a document. -/
def documentHeader : String := "<?xml version=\"1.0\" encoding=\"UTF-8\"?>\n"

/-- The text of the path of an entry: relative to the project where the entry is a resource of it. -/
def encodePath (project : Path) (e : Entry) : String :=
  if isProjectKind e.kind && !e.external && project.isPrefixOf e.path then
    (e.path.dropFirst project.segmentCount).toString
  else e.path.toString

/-- A flag as an attribute that is there or not. -/
def encodeFlag (name : String) (isSet : Bool) : List (String × String) :=
  if isSet then [(name, "true")] else []

/-- Patterns as one attribute. -/
def encodePatterns (name : String) (patterns : List String) : List (String × String) :=
  if patterns.isEmpty then []
  else [(name, String.ofList (Text.joinWith patternSeparator (patterns.map String.toList)))]

/-- A path as an attribute that is there or not. -/
def encodeAttachment (name : String) (path : Option Path) : List (String × String) :=
  path.toList.map fun p => (name, p.toString)

/-- The attributes of an entry element, known and foreign, in the order of their names. -/
def encodeAttributes (project : Path) (e : Entry) (foreign : ForeignContent) :
    List (String × String) :=
  let known :=
    [(fileWords.kind, e.kind.fileWord), (fileWords.path, encodePath project e)] ++
      encodeFlag fileWords.exported e.exported ++ encodeFlag fileWords.external e.external ++
      encodePatterns fileWords.including e.inclusions ++
      encodePatterns fileWords.excluding e.exclusions ++
      encodeAttachment fileWords.attachmentPath e.attachmentPath ++
      encodeAttachment fileWords.attachmentRoot e.attachmentRoot
  let unknown := foreign.attributes.filter fun a => a.1 ∉ knownAttributes
  (known ++ unknown).mergeSort fun a b => a.1 ≤ b.1

/-- The text of an attribute with the blank before it. -/
def attributeText (name value : String) : String :=
  " " ++ name ++ "=\"" ++ String.ofList (Xml.encodeValue value.toList) ++ "\""

/-- The lines of an entry element. -/
def encodeLines (project : Path) (e : Entry) (foreign : ForeignContent) : List String :=
  let attributes := String.join
    ((encodeAttributes project e foreign).map fun (name, value) => attributeText name value)
  let start := "<" ++ fileWords.entry ++ attributes
  if e.attributes.isEmpty && foreign.children.isEmpty then [start ++ "/>"]
  else
    let group :=
      if e.attributes.isEmpty then []
      else
        ["\t<" ++ fileWords.attributes ++ ">"] ++
          (e.attributes.map fun a => "\t\t<" ++ fileWords.attributeItem ++ attributeText "name" a.name ++
            attributeText "value" a.value ++ "/>") ++
          ["\t</" ++ fileWords.attributes ++ ">"]
    [start ++ ">"] ++ group ++ (foreign.children.map fun c => "\t" ++ c) ++
      ["</" ++ fileWords.entry ++ ">"]

/-- Lines with an indentation before and a line end after each. -/
def indented (indent : String) (lines : List String) : String :=
  String.join (lines.map fun line => indent ++ line ++ "\n")

/-- The items of the root element that stand at some places among the entries. -/
def encodeTopLevel (foreign : Foreign) (isHere : Nat → Bool) : String :=
  indented "\t" ((foreign.topLevel.filter fun item => isHere item.1).map Prod.snd)

/-- The entries from a place on, each after the items that stand before it. -/
def encodeFrom (project : Path) (foreign : Foreign) (place : Nat) : List Entry → String
  | [] => encodeTopLevel foreign fun position => place ≤ position
  | e :: es =>
    encodeTopLevel foreign (· = place) ++
      indented "\t" (encodeLines project e ((foreign.entries.find? e.path).getD {})) ++
      encodeFrom project foreign (place + 1) es

/-- The text of a document. -/
def Document.encode (project : Path) (d : Document) : String :=
  documentHeader ++ "<" ++ fileWords.root ++ ">\n" ++ encodeFrom project d.foreign 0 d.entries ++
    "</" ++ fileWords.root ++ ">\n"

/-- The text of one entry element. -/
def Entry.encode (project : Path) (e : Entry) : String :=
  String.intercalate "\n" (encodeLines project e {})

end Buildpath
