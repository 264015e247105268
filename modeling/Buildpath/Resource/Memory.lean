import Buildpath.Resource.Basic
import Buildpath.Table

/-!
# Workspaces in memory

A workspace whose projects, resources and external resources are tables. Every change advances a
clock, and a resource carries the time of the change that made it.
-/

namespace Buildpath

/-- A resource with its contents and the time of its last change. -/
structure Resource where
  kind : ResourceKind
  contents : ByteArray := .empty
  stamp : Nat
deriving Inhabited

/-- What is known of a project: its nature, if it is a script project, and the projects it refers
to. -/
structure ProjectRecord where
  nature : Option String := none
  references : List String := []
deriving DecidableEq, Repr, Inhabited

/-- A workspace in memory. A project `p` has the path `/p` and lies in the file system below
`locationRoot`. -/
structure Memory where
  locationRoot : Path := ⟨none, true, ["workspace"]⟩
  projects : Table String ProjectRecord := .empty
  resources : Table Path Resource := .empty
  external : Table Path Resource := .empty
  clock : Nat := 0
deriving Inhabited

namespace Memory

/-- The folders that a resource needs, innermost first: in the workspace those below a project,
outside all of them. The number bounds the folders. -/
def foldersFrom (isExternal : Bool) : Nat → Path → List Path
  | 0, _ => []
  | n + 1, folder =>
    if folder.segmentCount = 0 || (!isExternal && folder.segmentCount < 2) then []
    else folder :: foldersFrom isExternal n (folder.dropLast 1)

/-- The folders above a path, innermost first. -/
def foldersAbove (isExternal : Bool) (path : Path) : List Path :=
  match path.parent? with
  | none => []
  | some parent => foldersFrom isExternal (parent.segmentCount + 1) parent

/-- Adds the folders above a path that are not there. The clock advances for each of them, there or
not. -/
def ensureFolders (m : Memory) (isExternal : Bool) (path : Path) : Memory :=
  (foldersAbove isExternal path).foldl
    (fun m folder =>
      let m := { m with clock := m.clock + 1 }
      let made : Resource := { kind := .folder, stamp := m.clock }
      if isExternal then { m with external := m.external.insertIfNew folder made }
      else { m with resources := m.resources.insertIfNew folder made })
    m

/-- The path of a project. -/
def projectPath (name : String) : Path := Path.root.appendText name

/-- Adds a project. -/
def addProject (m : Memory) (name : String) (nature : Option String) : Memory :=
  let m := { m with clock := m.clock + 1 }
  { m with
    projects := m.projects.insert name { nature }
    resources := m.resources.insert (projectPath name) { kind := .project, stamp := m.clock } }

/-- Removes a project and everything below its path. -/
def removeProject (m : Memory) (name : String) : Memory :=
  { m with
    projects := m.projects.erase name
    resources := m.resources.filterKeys fun p => !(projectPath name).isPrefixOf p }

/-- Adds a folder and those above it. -/
def addFolder (m : Memory) (path : Path) : Memory := m.ensureFolders false (path.appendText "_")

/-- Puts a file with the folders above it. -/
def putFile (m : Memory) (isExternal : Bool) (path : Path) (contents : ByteArray) : Memory :=
  let m := m.ensureFolders isExternal path
  let m := { m with clock := m.clock + 1 }
  let made : Resource := { kind := .file, contents, stamp := m.clock }
  if isExternal then { m with external := m.external.insert path made }
  else { m with resources := m.resources.insert path made }

/-- Adds a file to the workspace. -/
def addFile (m : Memory) (path : Path) (contents : ByteArray) : Memory :=
  m.putFile false path contents

/-- Adds a folder outside the workspace and those above it. -/
def addExternalFolder (m : Memory) (path : Path) : Memory :=
  m.ensureFolders true (path.appendText "_")

/-- Adds a file outside the workspace. -/
def addExternalFile (m : Memory) (path : Path) (contents : ByteArray) : Memory :=
  m.putFile true path contents

/-- Removes a resource of the workspace and everything below it. -/
def remove (m : Memory) (path : Path) : Memory :=
  { m with resources := m.resources.filterKeys fun p => !path.isPrefixOf p }

/-- Removes a resource outside the workspace and everything below it. -/
def removeExternal (m : Memory) (path : Path) : Memory :=
  { m with external := m.external.filterKeys fun p => !path.isPrefixOf p }

/-- The contents of a file of a table. -/
def readFrom (table : Table Path Resource) (path : Path) : Except AccessError ByteArray :=
  match table.find? path with
  | some r => if r.kind = .file then .ok r.contents else .error (.missing path)
  | none => .error (.missing path)

/-- The resources of a table one level below a container, in ascending order. -/
def childrenIn (table : Table Path Resource) (path : Path) : Except AccessError (List Path) :=
  match table.find? path with
  | some r =>
    if r.kind.isContainer then
      .ok (Path.sort (table.keys.filter fun p =>
        p.segmentCount = path.segmentCount + 1 && path.isPrefixOf p))
    else .error (.missing path)
  | none => .error (.missing path)

/-- Writes a file of a project. -/
def write (m : Memory) (path : Path) (contents : ByteArray) : Except AccessError Memory :=
  match if path.absolute then path.firstSegment? else none with
  | none => .error (.missing path)
  | some project =>
    if !m.projects.contains project || path.segmentCount < 2 then .error (.missing path)
    else .ok (m.putFile false path contents)

/-- The time of the last change of a resource. -/
def stamp? (m : Memory) (path : Path) : Option Nat := (m.resources.find? path).map Resource.stamp

/-- The place of a workspace path in the file system. -/
def location? (m : Memory) (path : Path) : Option Path :=
  if !path.absolute || path.segmentCount = 0 then none else some (m.locationRoot.append path)

/-- Sets the projects that a project refers to. -/
def setReferences (m : Memory) (name : String) (references : List String) :
    Except AccessError Memory :=
  match m.projects.find? name with
  | none => .error (.missing (projectPath name))
  | some record =>
    .ok { m with projects := m.projects.insert name { record with references } }

end Memory

end Buildpath
