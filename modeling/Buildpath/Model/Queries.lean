import Buildpath.Archive.Zip
import Buildpath.Cycle
import Buildpath.Entry.Patterns
import Buildpath.Model.Fragments

/-!
# Queries

What a model answers about the buildpath of a project, about the members of its fragments and about
cycles between projects.
-/

namespace Buildpath

/-- Why an archive cannot be opened. -/
def unreadableArchive : AccessError := ⟨.invalidData, "invalid Zip archive"⟩

namespace Model

/-- The resource at a path, in the workspace or else outside. -/
def readLibrary (m : Model) (path : Path) : Except AccessError ByteArray :=
  if m.workspace.hasResource path then m.workspace.read path else m.workspace.readExternal path

/-- The paths of the members of an archive below its own path. -/
def archiveMembers (m : Model) (path : Path) : Except AccessError (List Path) := do
  match Archive.members? (← m.readLibrary path) with
  | none => throw unreadableArchive
  | some members =>
    pure ((members.filter fun member => member.name.toList.getLast? ≠ some '/').map fun member =>
      path.appendText member.name)

/-- The children of a fragment, whatever the patterns of its entry say. -/
def membersOf (m : Model) (f : Fragment) : Except AccessError (List Path) :=
  match f.kind with
  | .builtin => .ok []
  | .source | .folder => m.workspace.children f.path
  | .external => m.workspace.externalChildren f.path
  | .archive => m.archiveMembers f.path

/-- The script projects that exist, by every name that an entry may give them. -/
def projectGraphNames (m : Model) : List String :=
  m.workspace.candidateNames.filter fun name =>
    m.workspace.projectExists name && m.workspace.isScript name

end Model

namespace ModelM

/-- The raw buildpath of a project. A project file that cannot be used is shown as a problem. -/
def rawBuildpath (project : String) : Action (List Entry) := do
  requireProject project
  let raw ← loadRaw project
  if let some problem := raw.formatProblem then
    modify fun m =>
      { m with markers := m.markers.create project problem (m.optionsOf project) }
  return raw.entries

/-- The raw buildpath that the project file holds now. -/
def readRawBuildpath (project : String) : Action (List Entry) := do
  requireProject project
  let file := ProjectFile.load (← get).workspace project
  match file.problem? with
  | some problem => throw (.status problem)
  | none => return file.entries (projectPath project)

/-- The resolved entries of a project. An entry without a binding is a failure unless that is to be
ignored. -/
def resolvedBuildpath (project : String) (ignoresUnresolved : Bool) : Action (List Entry) := do
  let issued ← resolution project
  match issued.result.unresolved with
  | some problem =>
    if ignoresUnresolved then return issued.result.entries else throw (.status problem)
  | none => return issued.result.entries

/-- The names of the projects that a project requires. -/
def requiredProjects (project : String) : Action (List String) := do
  return prerequisites (← resolvedBuildpath project true)

/-- The resolved entry at a path. -/
def entryFor (project : String) (path : Path) : Action (Option Entry) := do
  return (← resolution project).result.roots.find? path

/-- Whether a path lies on the buildpath of a project. -/
def isOnBuildpath (project : String) (path : Path) : Action Bool := do
  let issued ← resolution project
  let isFolder := (← get).workspace.isContainer path
  return issued.result.entries.any fun e =>
    e.path = path || (e.path.isPrefixOf path && !e.isExcluded path isFolder)

/-- The problem of a project file, if it cannot be used. -/
def fileProblem (project : String) : ModelM (Option Status) := do
  return (← loadRaw project).formatProblem

/-- Gives an access error the path that it is about. -/
def access {α : Type} (path : Path) : Except AccessError α → Action α
  | .ok a => pure a
  | .error error => throw (.access path.toString error)

/-- The children of a fragment in ascending order, without those that a source entry hides. -/
def listFragment (f : Fragment) : Action (List Path) := do
  let members ← access f.path ((← get).membersOf f)
  let seen ←
    if f.kind = .source then
      match ← entryFor f.project f.path with
      | some e =>
        let w := (← get).workspace
        pure (members.filter fun child => !e.isExcluded child (w.isContainer child))
      | none => pure members
    else pure members
  return Path.sort (if f.kind = .archive then seen.eraseDups else seen)

/-- The children of a fragment, which are kept until it is closed. -/
def fragmentChildren (f : Fragment) : Action (List Path) := do
  match (← get).children.find? (f.project, f.path) with
  | some children => return children
  | none =>
    let children ← listFragment f
    modify fun m => { m with children := m.children.insert (f.project, f.path) children }
    return children

/-- Forgets the children of a fragment. -/
def closeFragment (f : Fragment) : ModelM Unit :=
  modify fun m => { m with children := m.children.erase (f.project, f.path) }

/-- Forgets the children of the fragments of a project. -/
def closeChildren (project : String) : ModelM Unit :=
  modify fun m => { m with children := m.children.filterKeys fun key => key.1 ≠ project }

/-- Forgets everything about a project that was closed or removed. -/
def closeProject (project : String) : ModelM Unit := do
  modify fun m => { m with cells := m.cells.erase project }.clearRoots
  modifyRegistry (·.removeProject project)
  closeChildren project

/-- The buildpaths of the script projects, for walks along their project entries. -/
def projectGraph : ModelM (ProjectGraph ModelM) := do
  return {
    names := (← get).projectGraphNames
    entries? := fun project => do
      return (← (resolvedBuildpath project true).run).toOption }

/-- The script projects that lead into a cycle. -/
def cycleParticipants (preferred : PreferredBuildpaths) : ModelM (List String) := do
  (← projectGraph).cycleParticipants preferred (← get).workspace.scriptProjects

/-- Whether a project would lead into a cycle with a given buildpath. -/
def hasCycle (project : String) (entries : List Entry) : ModelM Bool := do
  (← projectGraph).hasCycle project entries

/-- Brings the cycle markers of all script projects up to date. -/
def validateCycles (preferred : PreferredBuildpaths) : ModelM Unit := do
  let participants ← cycleParticipants preferred
  modify fun m =>
    { m with
      markers := m.markers.validateCycles m.workspace.scriptProjects participants m.optionsOf }

end ModelM

end Buildpath
