import Buildpath.Entry.Kind
import Buildpath.Path

/-!
# Buildpath entries

One contribution to a buildpath: a path of some kind, with its export flag, patterns and attributes.
Entries are values; an entry that pulls others in restricts them (`Entry.combine`).
-/

namespace Buildpath

/-- A named value that a contributor attaches to an entry. -/
structure Attribute where
  name : String
  value : String
deriving DecidableEq, Repr, Inhabited

/-- One contribution to a buildpath. -/
structure Entry where
  kind : EntryKind
  path : Path
  exported : Bool := false
  external : Bool := false
  inclusions : List String := []
  exclusions : List String := []
  attributes : List Attribute := []
  attachmentPath : Option Path := none
  attachmentRoot : Option Path := none
deriving DecidableEq, Repr, Inhabited

namespace Entry

/-- A source folder. -/
def source (path : Path) : Entry := { kind := .source, path }

/-- A reference to a project. -/
def project (path : Path) : Entry := { kind := .project, path }

/-- The value of the first attribute of a name. -/
def attribute? (e : Entry) (name : String) : Option String :=
  (e.attributes.find? (·.name = name)).map Attribute.value

/-- The attributes with a new value for the first one of a name, or with one more at the end. -/
def setAttributes (name value : String) : List Attribute → List Attribute
  | [] => [⟨name, value⟩]
  | a :: as => if a.name = name then ⟨a.name, value⟩ :: as else a :: setAttributes name value as

/-- Sets the value of an attribute. -/
def setAttribute (e : Entry) (name value : String) : Entry :=
  { e with attributes := setAttributes name value e.attributes }

/-- The tag of a kind in a root identity; what is not concrete has no tag of its own. -/
def rootTag : EntryKind → String
  | .source => "[SRC]"
  | .library => "[LIB]"
  | .project => "[PRJ]"
  | .variableRef | .container => "[UNK]"

/-- The identity of a contribution: its kind and the text of its path. -/
def rootId (e : Entry) : String := rootTag e.kind ++ e.path.toString

/-- The name of the project that a project entry refers to. -/
def projectName? (e : Entry) : Option String :=
  if e.kind = .project then e.path.firstSegment? else none

/-- Restricts an entry by the one that pulled it in: the result is exported if both are, and has the
patterns of both. -/
def combine (e : Entry) (referring : Option Entry) : Entry :=
  match referring with
  | none => e
  | some r =>
    { e with
      exported := e.exported && r.exported
      inclusions := e.inclusions ++ r.inclusions
      exclusions := e.exclusions ++ r.exclusions }

/-- Takes a library path that starts with `..` from the location of the project; the result is
external. -/
def resolveFrom (e : Entry) (location : Option Path) : Entry :=
  match location with
  | none => e
  | some base =>
    if e.kind = .library && e.path.startsWithParent then
      { e with path := e.path.resolveFrom base, external := true }
    else e

/-- Whether two entries agree on everything but attributes and attachments. -/
def sameStructure (a b : Entry) : Bool :=
  a.kind = b.kind && a.path = b.path && a.exported = b.exported && a.external = b.external &&
    a.inclusions = b.inclusions && a.exclusions = b.exclusions

/-- The patterns with the path of the entry in front. -/
def fullPatterns (e : Entry) (patterns : List String) : List String :=
  patterns.map fun pattern => e.path.toString ++ "/" ++ pattern

/-- The text of an entry in a listing. -/
protected def toString (e : Entry) : String :=
  e.kind.fileWord ++ ":" ++ e.path.toString ++ if e.exported then " (exported)" else ""

instance : ToString Entry := ⟨Entry.toString⟩

end Entry

/-- The first segment of the path of a library that the interpreter brings along. -/
def builtinMark : String := "#special#builtin#"

/-- Whether a path names a library that the interpreter brings along. -/
def Path.isBuiltin (p : Path) : Bool :=
  p.firstSegment?.any fun first => builtinMark.toList.isPrefixOf first.toList

/-- Whether two buildpaths agree entry by entry on everything but attributes and attachments. -/
def sameStructure : List Entry → List Entry → Bool
  | [], [] => true
  | a :: as, b :: bs => a.sameStructure b && sameStructure as bs
  | _, _ => false

/-- The names of the required projects in order of first mention. -/
def prerequisites (entries : List Entry) : List String :=
  (entries.filterMap Entry.projectName?).foldl
    (fun names name => if name ∈ names then names else names ++ [name]) []

/-- The first position of a root identity. -/
def firstIndex? (entries : List Entry) (rootId : String) : Option Nat :=
  entries.findIdx? fun e => e.rootId = rootId

end Buildpath
