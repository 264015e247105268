import Buildpath.Resource.Directory
import Buildpath.Resource.Memory

/-!
# Workspaces

The resources that buildpaths are about: those of the projects, by absolute paths that start with the
name of a project, and external ones of the file system. A workspace is held in memory or in a
directory.
-/

namespace Buildpath

/-- A set of projects with their resources, and the resources around it. -/
inductive Workspace where
  | memory (m : Memory)
  | directory (d : Directory)
deriving Inhabited

namespace Workspace

/-- The kind of a resource of the workspace. -/
def kind? : Workspace → Path → Option ResourceKind
  | memory m, path => (m.resources.find? path).map Resource.kind
  | directory d, path => d.kind? path

/-- The kind of a resource outside. -/
def externalKind? : Workspace → Path → Option ResourceKind
  | memory m, path => (m.external.find? path).map Resource.kind
  | directory d, path => d.tree.kind? path.toString

/-- Whether there is a resource in the workspace. -/
def hasResource (w : Workspace) (path : Path) : Bool := (w.kind? path).isSome

/-- Whether there is a resource outside. -/
def hasExternal (w : Workspace) (path : Path) : Bool := (w.externalKind? path).isSome

/-- Whether there is a container in the workspace. -/
def isContainer (w : Workspace) (path : Path) : Bool := (w.kind? path).any ResourceKind.isContainer

/-- The contents of a file of the workspace. -/
def read : Workspace → Path → Except AccessError ByteArray
  | memory m, path => Memory.readFrom m.resources path
  | directory d, path => d.read path

/-- The contents of a file outside. -/
def readExternal : Workspace → Path → Except AccessError ByteArray
  | memory m, path => Memory.readFrom m.external path
  | directory d, path => Directory.withMessage (d.tree.read path.toString)

/-- Writes a file of the workspace with the folders above it. -/
def write : Workspace → Path → ByteArray → Except AccessError Workspace
  | memory m, path, contents => (m.write path contents).map memory
  | directory d, path, contents => (d.write path contents).map directory

/-- The time of the last change of a resource of the workspace. -/
def stamp? : Workspace → Path → Option Nat
  | memory m, path => m.stamp? path
  | directory d, path => (d.filePath? path).bind d.tree.stamp?

/-- The place of a workspace path in the file system. -/
def location? : Workspace → Path → Option Path
  | memory m, path => m.location? path
  | directory d, path => (d.filePath? path).map Path.parse

/-- The children of a container of the workspace, in ascending order. -/
def children : Workspace → Path → Except AccessError (List Path)
  | memory m, path => Memory.childrenIn m.resources path
  | directory d, path => d.children path

/-- The children of a container outside, in ascending order. -/
def externalChildren : Workspace → Path → Except AccessError (List Path)
  | memory m, path => Memory.childrenIn m.external path
  | directory d, path => d.externalChildren path

/-- The names of the projects, in ascending order. -/
def projectNames : Workspace → List String
  | memory m => m.projects.keys.mergeSort (· ≤ ·)
  | directory d => d.projectNames

/-- Whether there is a project of a name. -/
def projectExists : Workspace → String → Bool
  | memory m, name => m.projects.contains name
  | directory d, name => d.projectExists name

/-- The nature of a script project. -/
def nature? : Workspace → String → Option String
  | memory m, name => (m.projects.find? name).bind ProjectRecord.nature
  | directory d, name => d.nature? name

/-- Whether a project is a script project. -/
def isScript (w : Workspace) (name : String) : Bool := (w.nature? name).isSome

/-- The place of a project in the file system. -/
def projectLocation? (w : Workspace) (name : String) : Option Path :=
  w.location? (Path.root.appendText name)

/-- The projects that a project refers to. -/
def references : Workspace → String → List String
  | memory m, name => ((m.projects.find? name).map ProjectRecord.references).getD []
  | directory d, name => (d.references.find? name).getD []

/-- Sets the projects that a project refers to. -/
def setReferences : Workspace → String → List String → Except AccessError Workspace
  | memory m, name, references => (m.setReferences name references).map memory
  | directory d, name, references => (d.setReferences name references).map directory

/-- The script projects, in ascending order. -/
def scriptProjects (w : Workspace) : List String := w.projectNames.filter w.isScript

/-- Every name that a required project may have: those of the projects and, in a directory, of the
hidden directories and of the directory above. -/
def candidateNames : Workspace → List String
  | memory m => m.projects.keys
  | directory d => d.directoryNames ++ [".."]

/-- A bound on the number of the paths that lead to a resource, for one device. In a directory a relative
path can go up any number of times, also from the root, as long as its text stays below the limit. -/
def pathBound : Workspace → Nat
  | memory m => m.resources.records.length + m.external.records.length
  | directory d => FileTree.textLimit * (2 * d.tree.nodes.records.length + 1)

end Workspace

end Buildpath
