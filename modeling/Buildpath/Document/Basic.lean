import Buildpath.Entry.Basic
import Buildpath.Table
import Buildpath.Xml.Node

/-!
# Buildpath documents

What a project file holds: the entries and, beside them, the foreign content that is kept and written
back without being interpreted. Also the words of the file format.
-/

namespace Buildpath

/-- The foreign attributes of an entry element and the source text of its foreign children. -/
structure ForeignContent where
  attributes : List (String × String) := []
  children : List String := []
deriving DecidableEq, Repr, Inhabited

/-- Whether there is no foreign content. -/
def ForeignContent.isEmpty (f : ForeignContent) : Bool := f.attributes.isEmpty && f.children.isEmpty

/-- The foreign content of a document: that of its entries by path, and the source texts of the other
items of the root element, each with the number of entries before it. -/
structure Foreign where
  entries : Table Path ForeignContent := .empty
  topLevel : List (Nat × String) := []
deriving Inhabited

/-- Whether there is no foreign content. -/
def Foreign.isEmpty (f : Foreign) : Bool := f.entries.records.isEmpty && f.topLevel.isEmpty

/-- What a project file holds. -/
structure Document where
  entries : List Entry := []
  foreign : Foreign := {}
deriving Inhabited

/-- Why a text is not a project file. -/
inductive DocumentError where
  | malformed (error : Xml.XmlError)
  | unexpectedRoot (name : String)
  | notAnEntry (name : String)
  | unknownKind (word : String)
  | missingPath (word : String)
deriving DecidableEq, Repr, Inhabited

/-- Words of the file format. -/
structure FileWords where
  root : String := "buildpath"
  entry : String := "buildpathentry"
  attributes : String := "attributes"
  attributeItem : String := "attribute"
  kind : String := "kind"
  path : String := "path"
  exported : String := "exported"
  external : String := "external"
  including : String := "including"
  excluding : String := "excluding"
  attachmentPath : String := "sourcepath"
  attachmentRoot : String := "rootpath"

/-- The words of the file format. -/
def fileWords : FileWords := {}

/-- The attributes of an entry element that have a meaning. -/
def knownAttributes : List String :=
  [fileWords.kind, fileWords.path, fileWords.exported, fileWords.external, fileWords.including,
    fileWords.excluding, fileWords.attachmentPath, fileWords.attachmentRoot]

/-- The character between the patterns of one attribute. -/
def patternSeparator : Char := '|'

/-- Whether the path of an entry may be written relative to its project: variables and containers are
no project resources, and external entries lie outside. -/
def isProjectKind (kind : EntryKind) : Bool := kind ≠ .variableRef && kind ≠ .container

end Buildpath
