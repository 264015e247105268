import Buildpath.Model.Change
import Buildpath.Validation

/-!
# Operations

The operations that change buildpaths: replacing the raw buildpath of a project, rebinding containers
and variables, and taking over an edit of a project file. Each compares the projects concerned with how
they were, and what follows from the difference happens in a fixed order: listeners, indexing, project
references, cycle markers, external folders, markers.
-/

namespace Buildpath

namespace ModelM

/-- Removes markers of a project. -/
def flushMarkers (project : String) (cycles formats : Bool) : ModelM Unit :=
  modify fun m => { m with markers := m.markers.flush project cycles formats }

/-- Shows a problem at a project. -/
def createMarker (project : String) (problem : Status) : ModelM Unit :=
  modify fun m => { m with markers := m.markers.create project problem (m.optionsOf project) }

/-- The outcome of steps that can fail, as an answer. -/
def attempt {α : Type} (act : Action α) : Action (Except Failure α) := ExceptT.lift act.run

/-- Runs an operation while rules are held. They are free again however it ends. -/
def holding {α : Type} (rules : List Rule) (act : Action α) : Action α := do
  let guard ← modifyGet fun m =>
    let (guard, held) := m.held.acquire rules
    (guard, { m with held })
  let result ← attempt act
  modify fun m => { m with held := m.held.release guard }
  match result with
  | .ok a => pure a
  | .error failure => throw failure

/-- Names in ascending order, each once. -/
def sortNames (names : List String) : List String := (names.mergeSort (· ≤ ·)).eraseReps

/-- Makes the references of a project follow its buildpath: those that come from the old one give way
to those of the new one, and the others stay. Tells whether the references were set. -/
def updateReferences (project : String) (old : Option Issued) : Action Bool := do
  let required := prerequisites (← resolution project).result.entries
  let gone := (old.map fun o => prerequisites o.result.entries).getD []
  let w := (← get).workspace
  let before := sortNames (w.references project)
  let after := sortNames ((before.filter (· ∉ gone)) ++ required)
  if after = before then return false
  let w ← access (projectPath project) (w.setReferences project after)
  modify fun m => { m with workspace := w }
  return true

/-- Everything that follows from a change. -/
def applyChange (change : Change) (setsUpFolders : Bool) : ModelM GeneratedDelta := do
  let project := change.project
  let (g, _) ← generateDelta change
  if g.hasDelta then
    modify (·.notify g.delta g.flags)
    requestIndexing g
    let _ ← (updateReferences project change.resolved).run
  if g.flags.hasProjectChange then validateCycles []
  if g.flags.hasLibraryChange && setsUpFolders then
    modify fun m => { m with folders := m.folders.createPending.2 }
  flushMarkers project false false
  match ← (resolution project).run with
  | .ok issued =>
    if let some problem := issued.result.unresolved then createMarker project problem
  | .error _ => pure ()
  return g

/-- The valid fragments of a project, computed if need be. -/
def knownFragments (project : String) : ModelM (Option (List Fragment)) := do
  match (← cell project).fragments with
  | some fragments => return some fragments
  | none => return (← (fragments project).run).toOption

/-- The change of a project whose cell is being changed by `f`. -/
def changeBy (project : String) (f : Cell → Cell) (fragments : Option (List Fragment))
    (resolved : Option Issued) : ModelM Change := do
  let c ← cell project
  modifyCell project f
  return { project, raw := c.raw.map RawBuildpath.entries, resolved, fragments }

/-- Accepts a raw buildpath for a project that exists. -/
def verify (project : String) (entries : List Entry) : Action Unit := do
  requireProject project
  match validate (projectPath project) entries with
  | .ok () => pure ()
  | .error problem => throw (.status problem)

/-- Writes the project file and remembers its time. -/
def saveFile (project : String) (entries : List Entry) : Action Unit := do
  match ProjectFile.save (← get).workspace project entries with
  | .error failure => throw failure
  | .ok (_, w) =>
    modify fun m => { m with workspace := w }
    modifyCell project (·.setStamp (w.stamp? (projectFilePath project)))

/-- Replaces the raw buildpath of a project. With `saves` the project file is written as well, and
external folders are set up. -/
def setRawBuildpath (project : String) (entries : List Entry) (saves : Bool) :
    Action GeneratedDelta :=
  holding (.project project :: if saves then [.externalFolders] else []) do
    verify project entries
    flushMarkers project false false
    let _ ← loadRaw project
    let _ ← attempt (resolution project)
    let fragments ← knownFragments project
    let resolved := (← cell project).issued?
    let change ← changeBy project (·.setRaw entries) fragments resolved
    modify Model.clearRoots
    let g ← applyChange change saves
    if saves then saveFile project entries
    return g

/-- Whether the raw buildpath of a script project has an entry that passes a test. -/
def mentions (project : String) (test : Entry → Bool) : ModelM Bool := do
  if !(← get).workspace.isScript project then return false
  return (← loadRaw project).entries.any test

/-- Resolves projects anew and applies the changes that come of it, given their old resolutions. -/
def refresh (projects : List (String × Option Issued)) : ModelM (List GeneratedDelta) := do
  let deltas ← projects.mapM fun (project, resolved) => do
    let fragments := (← cell project).fragments
    let change ← changeBy project Cell.invalidate fragments resolved
    applyChange change false
  modify Model.clearRoots
  return deltas

/-- Whether a project has to be resolved anew when a container is bound to another one; `none` if
nothing changes for a project that mentions it. -/
def rebinding (path : Path) (project : String) (container : Option Container) :
    ModelM (Option Bool) := do
  if ← mentions project fun e => e.kind = .container && e.path = path then
    return if (← get).registry.peek? path project = container then none else some true
  else return some false

/-- Binds projects to containers, or drops their bindings, and refreshes those that mention the
container. -/
def setContainer (path : Path) (containers : List (String × Option Container)) :
    Action (List GeneratedDelta) :=
  holding (containers.map fun (project, _) => .project project) do
    let (bound, modified) ← containers.foldlM
      (fun (bound, modified) (project, container) => do
        match ← rebinding path project container with
        | none => return (bound, modified)
        | some isMentioned =>
          let bound := bound ++ [(project, container)]
          if isMentioned then
            return (bound, modified ++ [(project, (← attempt (resolution project)).toOption)])
          else return (bound, modified))
      (([], []) : List (String × Option Container) × List (String × Option Issued))
    modifyRegistry (·.put path bound)
    if modified.isEmpty then return []
    refresh modified

/-- Gives a variable a value, or none. -/
def setVariable (v : Variables) (name : String) : Option Path → Variables
  | some value => v.insert name value
  | none => v.erase name

/-- Sets variables and refreshes the projects that mention one that changed. -/
def setVariables (values : List (String × Option Path)) : Action (List GeneratedDelta) := do
  let m ← get
  let changed := (values.filter fun (name, value) => m.variableValues.find? name ≠ value).map Prod.fst
  if changed.isEmpty then return []
  let affected ← m.workspace.projectNames.filterM fun project =>
    mentions project fun e => e.kind = .variableRef && e.path.firstSegment?.any (· ∈ changed)
  holding (affected.map .project) do
    let old ← affected.mapM fun project => do
      return (project, (← attempt (resolution project)).toOption)
    modify fun m =>
      { m with
        variableValues := values.foldl (fun v (name, value) => setVariable v name value) m.variableValues }
    refresh old

/-- Takes over an edit of the project file, without writing it. A file that cannot be used is shown as
a problem and otherwise ignored. -/
def fileChanged (project : String) : Action (Option GeneratedDelta) := do
  requireProject project
  let c ← cell project
  let w := (← get).workspace
  let stamp := w.stamp? (projectFilePath project)
  match c.raw with
  | none => return none
  | some raw =>
    if c.stamp = stamp then return none
    let file := ProjectFile.load w project
    match file.problem? with
    | some problem =>
      createMarker project problem
      modifyCell project (·.setStamp stamp)
      return none
    | none =>
      flushMarkers project false true
      let entries := file.entries (projectPath project)
      if raw.entries = entries then
        modifyCell project (·.setStamp stamp)
        return none
      let g ← setRawBuildpath project entries false
      modifyCell project (·.setStamp stamp)
      return some g

end ModelM

end Buildpath
