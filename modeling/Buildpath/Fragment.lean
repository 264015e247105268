import Buildpath.Entry.Basic

/-!
# Fragments

The concrete roots that a project's resolved buildpath contributes.
-/

namespace Buildpath

/-- What a fragment is made of. -/
inductive FragmentKind where
  /-- A source folder inside the project. -/
  | source
  /-- A library folder inside the workspace. -/
  | folder
  /-- A library archive. -/
  | archive
  /-- A library folder outside the workspace. -/
  | external
  /-- A library of the interpreter. -/
  | builtin
deriving DecidableEq, Repr, Inhabited

namespace FragmentKind

/-- The word for a kind in a report. -/
def reportWord : FragmentKind → String
  | source => "source"
  | folder => "folder"
  | archive => "archive"
  | external => "external"
  | builtin => "builtin"

/-- The word for a kind in a listing. -/
def listingWord : FragmentKind → String
  | source => "Source"
  | folder => "Folder"
  | archive => "Archive"
  | external => "External"
  | builtin => "Builtin"

/-- The kind that a word of a report stands for. -/
def ofReportWord? (word : String) : Option FragmentKind :=
  [source, folder, archive, external, builtin].find? fun kind => kind.reportWord = word

end FragmentKind

/-- A concrete root: the project that owns it, its path and its kind. -/
structure Fragment where
  project : String
  path : Path
  kind : FragmentKind
deriving DecidableEq, Repr, Inhabited

namespace Fragment

/-- Whether the fragment is an archive. -/
def isArchive (f : Fragment) : Bool := f.kind = .archive

/-- The identity of the contribution behind a fragment. -/
def rootId (f : Fragment) : String :=
  (if f.kind = .source then "[SRC]" else "[LIB]") ++ f.path.toString

/-- The text of a fragment in a listing. -/
protected def toString (f : Fragment) : String :=
  f.path.toString ++ " (" ++ f.kind.listingWord ++ ", " ++ f.project ++ ")"

instance : ToString Fragment := ⟨Fragment.toString⟩

end Fragment

end Buildpath
