import Buildpath.Document.Basic
import Buildpath.Text.Escaped

/-!
# Reading buildpath documents

The entries of a project file. A path that is not absolute is relative to the project, unless the
entry is external or of a kind that names no resource, or the path starts with `..`. What has no
meaning is collected as foreign content.
-/

namespace Buildpath

/-- The message of an error. -/
def DocumentError.message : DocumentError → String
  | malformed e => "malformed buildpath XML: " ++ e.message
  | unexpectedRoot name =>
    "unexpected root element <" ++ name ++ ">, expected <" ++ fileWords.root ++ ">"
  | notAnEntry name => "expected a <" ++ fileWords.entry ++ "> element, found <" ++ name ++ ">"
  | unknownKind word => "unknown buildpath entry kind " ++ Text.quoted word
  | missingPath word => "buildpath entry of kind " ++ Text.quoted word ++ " has no path attribute"

/-- The patterns of an attribute, without the empty ones. -/
def splitPatterns (value : Option String) : List String :=
  ((Text.splitOn patternSeparator (value.getD "").toList).filter (· ≠ [])).map String.ofList

/-- The path that the text of an entry stands for. -/
def decodePath (project : Path) (kind : EntryKind) (external : Bool) (text : String) : Path :=
  let path := Path.parse text
  if isProjectKind kind && !external && !path.absolute && !path.startsWithParent then
    project.append path
  else path

/-- The extra attributes below a child of an entry element. -/
def decodeAttributes (node : Xml.Node) : List Attribute :=
  node.children.filterMap fun child =>
    if child.isElement && child.name = fileWords.attributeItem then
      match child.attribute? "name", child.attribute? "value" with
      | some name, some value => some ⟨name, value⟩
      | _, _ => none
    else none

/-- Whether a child of an entry element holds extra attributes. -/
def isAttributeGroup (node : Xml.Node) : Bool := node.isElement && node.name = fileWords.attributes

/-- The foreign content of an entry element. -/
def decodeForeign (node : Xml.Node) : ForeignContent where
  attributes := node.attributes.filterMap fun a =>
    if a.name ∈ knownAttributes then none else some (a.name, a.value)
  children := (node.children.filter fun c => c.isElement && !isAttributeGroup c).map fun c =>
    String.ofList c.source

/-- The entry of an entry element. -/
def decodeElement (project : Path) (node : Xml.Node) : Except DocumentError Entry :=
  let word := (node.attribute? fileWords.kind).getD ""
  let isTrue := fun name => node.attribute? name = some "true"
  match EntryKind.ofFileWord? word, node.attribute? fileWords.path with
  | none, _ => .error (.unknownKind word)
  | some _, none => .error (.missingPath word)
  | some kind, some text =>
    let external := isTrue fileWords.external
    .ok {
      kind, external
      path := decodePath project kind external text
      exported := isTrue fileWords.exported
      inclusions := splitPatterns (node.attribute? fileWords.including)
      exclusions := splitPatterns (node.attribute? fileWords.excluding)
      attachmentPath := (node.attribute? fileWords.attachmentPath).map Path.parse
      attachmentRoot := (node.attribute? fileWords.attachmentRoot).map Path.parse
      attributes := (node.children.filter isAttributeGroup).flatMap decodeAttributes }

/-- Adds a child of the root element to a document. -/
def Document.decodeChild (project : Path) (d : Document) (node : Xml.Node) :
    Except DocumentError Document :=
  let asForeign : Document :=
    { d with foreign := { d.foreign with
        topLevel := d.foreign.topLevel ++ [(d.entries.length, String.ofList node.source)] } }
  match node with
  | .text _ => .ok d
  | .comment _ | .instruction _ => .ok asForeign
  | .element name .. =>
    if name = fileWords.entry then do
      let entry ← decodeElement project node
      let content := decodeForeign node
      let foreign :=
        if content.isEmpty then d.foreign
        else { d.foreign with entries := d.foreign.entries.insert entry.path content }
      pure { entries := d.entries ++ [entry], foreign }
    else .ok asForeign

/-- The tree of a text that may start with a byte order mark. -/
def parseTree (text : String) : Except DocumentError Xml.Node :=
  match Xml.parse (Xml.dropMark text.toList) with
  | .ok root => .ok root
  | .error e => .error (.malformed e)

/-- The lower case of a name, for ASCII letters. -/
def asciiLower (name : String) : List Char := name.toList.map Char.toLower

/-- The document of a text. The name of the root element may be in any case. -/
def Document.decode (project : Path) (text : String) : Except DocumentError Document := do
  let root ← parseTree text
  if asciiLower root.name ≠ asciiLower fileWords.root then throw (.unexpectedRoot root.name)
  root.children.foldlM (Document.decodeChild project) {}

/-- The entry of a text that is one entry element. -/
def Entry.decode (project : Path) (text : String) : Except DocumentError Entry := do
  let root ← parseTree text
  if root.name ≠ fileWords.entry then throw (.notAnEntry root.name)
  decodeElement project root

end Buildpath
