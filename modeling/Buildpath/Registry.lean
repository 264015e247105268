import Buildpath.Container
import Buildpath.Resource.Workspace

/-!
# Bindings of containers and variables

Which containers the projects are bound to, now and when the last session ended, and the values of
the variables that buildpaths may start with.
-/

namespace Buildpath

/-- What a project has under the path of a container. -/
inductive Binding where
  /-- The container is being made. -/
  | inProgress
  | bound (container : Container)
deriving DecidableEq, Repr, Inhabited

/-- The container of a binding. -/
def Binding.container? : Binding → Option Container
  | inProgress => none
  | bound container => some container

/-- A project and the path of a container. -/
abbrev BindingKey := String × Path

/-- The bindings of all projects, and the containers that were bound when they were last frozen. -/
structure Registry where
  bindings : Table BindingKey Binding := .empty
  previous : Table BindingKey Container := .empty
deriving Inhabited

namespace Registry

/-- The container that a project is bound to. -/
def peek? (r : Registry) (path : Path) (project : String) : Option Container :=
  (r.bindings.find? (project, path)).bind Binding.container?

/-- Binds a project, or drops its binding. -/
def set (r : Registry) (path : Path) (project : String) : Option Container → Registry
  | some container => { r with bindings := r.bindings.insert (project, path) (.bound container) }
  | none => { r with bindings := r.bindings.erase (project, path) }

/-- Binds a list of projects, or drops their bindings. -/
def put (r : Registry) (path : Path) (containers : List (String × Option Container)) : Registry :=
  containers.foldl (fun r (project, container) => r.set path project container) r

/-- Marks a container as being made. -/
def start (r : Registry) (path : Path) (project : String) : Registry :=
  { r with bindings := r.bindings.insert (project, path) .inProgress }

/-- Drops the binding of a project. -/
def reset (r : Registry) (path : Path) (project : String) : Registry := r.set path project none

/-- Drops every binding of a project. -/
def removeProject (r : Registry) (project : String) : Registry :=
  { r with bindings := r.bindings.filterKeys fun key => key.1 ≠ project }

/-- The keys that are bound, with their containers. -/
def boundRecords (r : Registry) : List (BindingKey × Container) :=
  r.bindings.records.filterMap fun (key, binding) => binding.container?.map fun c => (key, c)

/-- The containers of a project in the order of their paths. -/
def containersOf (r : Registry) (project : String) : List (Path × Container) :=
  (r.boundRecords.filterMap fun (key, c) => if key.1 = project then some (key.2, c) else none).mergeSort
    fun a b => a.1.le b.1

/-- Keeps the containers that are bound now as those of the previous session. -/
def freeze (r : Registry) : Registry := { r with previous := ⟨r.boundRecords⟩ }

/-- The container of a project in the previous session. -/
def previous? (r : Registry) (path : Path) (project : String) : Option Container :=
  r.previous.find? (project, path)

end Registry

/-- The values of variables. -/
abbrev Variables := Table String Path

namespace Variables

/-- The path that a path stands for whose first segment is a variable. -/
def path? (v : Variables) (path : Path) : Option Path := do
  let value ← v.find? (← path.firstSegment?)
  pure (value.append (path.dropFirst 1))

/-- Whether a path is that of a project. -/
def isProjectPath (w : Workspace) (path : Path) : Bool :=
  path.absolute && path.segmentCount = 1 && path.device.isNone &&
    path.firstSegment?.any w.projectExists

/-- The entry that a variable entry stands for: a project, or a library, which is external unless
the workspace has a file or a folder at its path. Any other entry stands for itself. -/
def entry? (v : Variables) (w : Workspace) (e : Entry) : Option Entry := do
  if e.kind ≠ .variableRef then return e
  let path ← v.path? e.path
  if isProjectPath w path then
    pure { Entry.project path with exported := e.exported, attributes := e.attributes }
  else
    let isInside := w.kind? path = some .file || w.kind? path = some .folder
    pure
      { kind := .library, path, external := !isInside, exported := e.exported
        attributes := e.attributes
        attachmentPath := e.attachmentPath.map fun p => (v.path? p).getD p
        attachmentRoot := e.attachmentRoot }

end Variables

end Buildpath
