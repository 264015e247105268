import Buildpath.Resource.FileTree

/-!
# Workspaces in a directory

A workspace whose projects are the directories below a root directory of a file tree. References
between projects are not stored in files.
-/

namespace Buildpath

/-- A workspace in a directory: the path text of its root and the nature of its script projects. -/
structure Directory where
  tree : FileTree := {}
  root : String
  nature : String := defaultNature
  references : Table String (List String) := .empty
deriving Inhabited

namespace Directory

/-- A path text with one more name; an absolute name replaces the text. -/
def join (base name : String) : String :=
  if name.toList.head? = some '/' then name
  else if base.isEmpty || base.toList.getLast? = some '/' then base ++ name
  else base ++ "/" ++ name

/-- The path text of a workspace path. -/
def filePath? (d : Directory) (path : Path) : Option String :=
  if !path.absolute || path.segments.isEmpty then none else some (path.segments.foldl join d.root)

/-- The kind of a resource. What lies directly in the root counts only if it is a directory. -/
def kind? (d : Directory) (path : Path) : Option ResourceKind :=
  match (d.filePath? path).bind d.tree.kind? with
  | none => none
  | some kind =>
    if path.segmentCount = 1 then if kind = .folder then some .project else none else some kind

/-- Gives an error of the file tree its message. -/
def withMessage {α : Type} (r : Except AccessCause α) : Except AccessError α :=
  r.mapError AccessError.ofCause

/-- The path text of a workspace path, which has to lie below the root. -/
def requirePath (d : Directory) (path : Path) : Except AccessError String :=
  match d.filePath? path with
  | some text => .ok text
  | none => .error (.missing path)

/-- The contents of a file of the workspace. -/
def read (d : Directory) (path : Path) : Except AccessError ByteArray := do
  let text ← d.requirePath path
  withMessage (d.tree.read text)

/-- The part of a path text before its last slash. -/
def parentText (text : String) : String :=
  String.ofList ((text.toList.reverse.dropWhile (· ≠ '/')).drop 1).reverse

/-- Writes a file of the workspace with the directories above it. -/
def write (d : Directory) (path : Path) (contents : ByteArray) : Except AccessError Directory := do
  let text ← d.requirePath path
  let tree ← withMessage (d.tree.makeDirectory (parentText text))
  let tree ← withMessage (tree.write text contents)
  pure { d with tree }

/-- Paths below a path, in ascending order. -/
def belowPath (path : Path) (names : List String) : List Path := Path.sort (names.map path.appendText)

/-- The children of a directory of the workspace. -/
def children (d : Directory) (path : Path) : Except AccessError (List Path) := do
  let text ← d.requirePath path
  let names ← withMessage (d.tree.list text)
  pure (belowPath path names)

/-- The children of a directory outside the workspace. -/
def externalChildren (d : Directory) (path : Path) : Except AccessError (List Path) := do
  let names ← withMessage (d.tree.list path.toString)
  pure (belowPath path names)

/-- The directories in the root, hidden ones too. -/
def directoryNames (d : Directory) : List String :=
  match d.tree.list d.root with
  | .error _ => []
  | .ok names => names.filter fun name => d.tree.isDirectory (join d.root name)

/-- The names of the projects: directories that are not hidden, in ascending order. -/
def projectNames (d : Directory) : List String :=
  (d.directoryNames.filter fun name => name.toList.head? ≠ some '.').mergeSort (· ≤ ·)

/-- Whether a name leads from the root to a directory. -/
def projectExists (d : Directory) (name : String) : Bool :=
  name ≠ "" && d.tree.isDirectory (join d.root name)

/-- The files that make a directory a script project. -/
def natureMarks : List String := [".buildpath", ".project"]

/-- The nature of a project that is a script project. -/
def nature? (d : Directory) (name : String) : Option String :=
  if natureMarks.any fun mark => d.tree.isFile (join (join d.root name) mark) then some d.nature
  else none

/-- Sets the projects that a project refers to. -/
def setReferences (d : Directory) (name : String) (references : List String) :
    Except AccessError Directory :=
  if d.projectExists name then .ok { d with references := d.references.insert name references }
  else .error (.missing (Path.root.appendText name))

end Directory

end Buildpath
