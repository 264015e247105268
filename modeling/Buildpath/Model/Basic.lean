import Buildpath.Cell
import Buildpath.Delta
import Buildpath.ExternalFolders
import Buildpath.Index
import Buildpath.Marker
import Buildpath.ProjectFile
import Buildpath.Registry
import Buildpath.Scheduling
import Buildpath.Script

/-!
# The model

The state behind all queries and operations: a workspace with its settings, the bindings of containers
and variables, one cell for each project that was asked for, and what is kept for others to read.
Also the two look-ups that need each other: resolving a project looks up its containers, and making a
container may resolve projects.
-/

namespace Buildpath

/-- What happened while something ran. -/
inductive Event where
  /-- A delta reached a listener; listeners are numbered as they were added. -/
  | delivered (listener : Nat) (delta : Delta) (flags : ChangeFlags)
  /-- An initializer noted a value. -/
  | noted (value : JsonValue)
deriving Inhabited

/-- Makes the fragments of libraries for projects of one nature; the general rules apply where it
makes none. -/
abbrev FragmentFactory := String → Entry → Option Fragment

/-- The state behind all queries and operations. -/
structure Model where
  workspace : Workspace
  settings : Settings := {}
  /-- Whether libraries bring along the libraries that they refer to. -/
  followsLibraries : Bool := true
  variableValues : Variables := .empty
  registry : Registry := {}
  /-- The initializers by the first segment of the container paths that they are for. -/
  initializers : Table String Initializer := .empty
  cells : Table String Cell := .empty
  /-- The number of the results issued so far. -/
  issued : Nat := 0
  /-- The projects that are being resolved. -/
  resolving : List String := []
  folders : ExternalFolders := {}
  /-- The factories by the nature of the projects that they are for. -/
  factories : Table String FragmentFactory := .empty
  markers : MarkerStore := {}
  indexer : Indexer := {}
  /-- The number of the listeners for deltas. -/
  listeners : Nat := 0
  held : HeldRules := {}
  /-- The children of the fragments that were asked for, by project and path. -/
  children : Table (String × Path) (List Path) := .empty
  log : List Event := []
  /-- How deep look-ups may nest. -/
  nesting : Nat := 4096
deriving Inhabited

/-- Steps on a model. -/
abbrev ModelM := StateM Model

/-- Steps on a model that can fail. What was changed before a failure stays changed. -/
abbrev Action := ExceptT Failure ModelM

namespace Model

/-- The options of a project. -/
def optionsOf (m : Model) (project : String) : Options := m.settings.optionsOf project

/-- The cell of a project. -/
def cell (m : Model) (project : String) : Cell := (m.cells.find? project).getD {}

/-- Puts the cell of a project. -/
def setCell (m : Model) (project : String) (c : Cell) : Model :=
  { m with cells := m.cells.insert project c }

/-- How deep walks through projects and containers go. -/
def depth (m : Model) : Nat := m.nesting + m.workspace.pathBound

/-- The libraries that a library brings along. -/
def chained (m : Model) (path : Path) (external : Bool) : List ChainedLibrary :=
  if m.followsLibraries then m.workspace.chainedLibraries path external else []

/-- Adds an event to the log. -/
def addEvent (m : Model) (event : Event) : Model := { m with log := m.log ++ [event] }

/-- Delivers a delta to every listener. -/
def notify (m : Model) (delta : Delta) (flags : ChangeFlags) : Model :=
  (List.range m.listeners).foldl (fun m i => m.addEvent (.delivered i delta flags)) m

/-- Drops the visible roots of every project, since they depend on each other. -/
def clearRoots (m : Model) : Model :=
  { m with cells := ⟨m.cells.records.map fun (project, c) => (project, c.clearRoots)⟩ }

/-- Registers folders that have to be set up. -/
def addFolders (m : Model) (folders : List Path) : Model :=
  { m with folders := folders.foldl (fun f path => f.add path true) m.folders }

/-- What the resolution of a project depends on, apart from bindings. -/
def resolutionContext (m : Model) (project : String) (last : Option Issued) : ResolutionContext :=
  let options := m.optionsOf project
  { project
    location := m.workspace.projectLocation? project
    followsLibraries := true
    followsContainers := options.chainsContainers
    chained := m.chained
    last := (last.map fun issued => issued.result.roots).getD .empty
    isExternalFolder := fun path => (isExternalFolder m.workspace options path {}).1 }

end Model

namespace ModelM

/-- The cell of a project, which exists from then on. -/
def cell (project : String) : ModelM Cell :=
  modifyGet fun m => (m.cell project, m.setCell project (m.cell project))

/-- Changes the cell of a project. -/
def modifyCell (project : String) (f : Cell → Cell) : ModelM Unit :=
  modify fun m => m.setCell project (f (m.cell project))

/-- Issues a result under a new number. -/
def issue (result : Resolved) : ModelM Issued :=
  modifyGet fun m => (⟨m.issued, result⟩, { m with issued := m.issued + 1 })

/-- The raw buildpath of a project, read from its file when it is first asked for. -/
def loadRaw (project : String) : ModelM RawBuildpath := do
  let c ← cell project
  match c.raw with
  | some raw => pure raw
  | none =>
    let w := (← get).workspace
    let file := ProjectFile.load w project
    let raw : RawBuildpath :=
      { entries := file.entries (projectPath project), foreign := file.foreign
        formatProblem := file.problem? }
    modifyCell project (·.storeRaw raw (w.stamp? (projectFilePath project)))
    pure raw

/-- The bindings that are valid while a project is resolved. -/
def bindings (find : Path → String → ModelM (Option Container)) (project : String) :
    Bindings ModelM where
  variableEntry? e := do
    let m ← get
    pure (m.variableValues.entry? m.workspace e)
  container? path := find path project

/-- Resolves a raw buildpath, and registers the external folders that occur in it. -/
def resolveRaw (find : Path → String → ModelM (Option Container)) (project : String)
    (raw : List Entry) (last : Option Issued) : ModelM Resolved := do
  let m ← get
  let pass ← resolve (bindings find project) (m.resolutionContext project last) raw
  modify (·.addFolders pass.folders)
  pure pass.result

/-- Fails unless there is a project of a name. -/
def requireProject (project : String) : Action Unit := do
  if !(← get).workspace.projectExists project then throw (.projectNotFound project)

/-- Resolves a project. A project that is being resolved already has no entries for the time
being. -/
def resolutionBy (find : Path → String → ModelM (Option Container)) (project : String) :
    Action Issued := do
  requireProject project
  let raw ← loadRaw project
  let c ← cell project
  let (beginning, c) := c.begin (project ∈ (← get).resolving)
  modifyCell project fun _ => c
  match beginning with
  | .cached result => pure result
  | .reentrant => issue Resolved.ofProgress
  | .start generation current last =>
    modify fun m => { m with resolving := project :: m.resolving }
    let result ← resolveRaw find project (current.getD raw).entries last
    let issued ← issue result
    modifyCell project (·.complete generation issued)
    modify fun m => { m with resolving := m.resolving.erase project }
    pure issued

/-- Changes the bindings of containers. -/
def modifyRegistry (f : Registry → Registry) : ModelM Unit :=
  modify fun m => { m with registry := f m.registry }

/-- Answers a call of a script, given how containers are looked up and projects resolved for it. -/
def answer (find : Path → String → ModelM (Option Container)) (resolve : String → Action Issued) :
    (call : Call) → ModelM call.Answer
  | .find path project => find path project
  | .peek path project => do return (← get).registry.peek? path project
  | .previous path project => do return (← get).registry.previous? path project
  | .put path containers => modifyRegistry (·.put path containers)
  | .reset path project => modifyRegistry (·.reset path project)
  | .removeProject project => modifyRegistry (·.removeProject project)
  | .freeze => modifyRegistry Registry.freeze
  | .containers project => do return (← get).registry.containersOf project
  | .resolve project => do
    let result ← (resolve project).run
    pure (result.map Issued.result)
  | .setRaw project entries => modifyCell project (·.setRaw entries)
  | .note value => modify (·.addEvent (.noted value))

/-- Runs a script. -/
def runScript (find : Path → String → ModelM (Option Container)) (resolve : String → Action Issued) :
    Script → ModelM (Option Container)
  | .done container => pure container
  | .ask call next => do runScript find resolve (next (← answer find resolve call))

/-- Binds what an initializer made, unless the container was bound while it ran. -/
def finish (path : Path) (project : String) (made : Option Container) : ModelM (Option Container) := do
  match (← get).registry.peek? path project with
  | some container => pure (some container)
  | none =>
    modifyRegistry (·.set path project made)
    pure made

/-- Resolves a project for a script that may nest look-ups `depth` times. If it may not, it is answered
that there is no such project. -/
def resolutionWithin (depth : Nat) (find : Path → String → ModelM (Option Container))
    (project : String) : Action Issued :=
  if depth = 0 then throw (.projectNotFound project) else resolutionBy find project

/-- The container of a project, made by its initializer when it is first looked up. While it is being
made, an empty one stands for it. A look-up that is nested deeper than `depth` finds nothing. -/
def findContainerWithin : Nat → Path → String → ModelM (Option Container)
  | 0, _, _ => pure none
  | depth + 1, path, project => do
    let m ← get
    match m.registry.bindings.find? (project, path) with
    | some (.bound container) => pure (some container)
    | some .inProgress => pure (some (Container.placeholder path))
    | none =>
      match path.firstSegment?.bind m.initializers.find? with
      | none => pure none
      | some initializer =>
        modifyRegistry (·.start path project)
        let find := findContainerWithin depth
        finish path project (← runScript find (resolutionWithin depth find) (initializer path project))

/-- The container of a project, made when it is first looked up. -/
def findContainer (path : Path) (project : String) : ModelM (Option Container) := do
  findContainerWithin (← get).depth path project

/-- The resolution of a project, computed when it is first asked for. -/
def resolution (project : String) : Action Issued := resolutionBy findContainer project

end ModelM

end Buildpath
