import Buildpath.Command.Arguments
import Buildpath.Command.Report
import Buildpath.Model.Expansion

/-!
# Running commands

A command runs on a file tree: it opens the workspace in a directory with its settings, answers with a
report or an error, and leaves the tree with the files that it wrote.
-/

namespace Buildpath

/-- Why a command has no report. -/
inductive CommandError where
  /-- The settings file cannot be read. -/
  | settingsUnreadable (path : String) (cause : AccessCause)
  /-- The settings file is not one. -/
  | settingsMalformed (path : String)
  /-- There is no directory for the workspace. -/
  | noWorkspace (path : String)
  /-- The project that is asked for cannot be resolved. -/
  | unresolvable (project : String) (failure : Failure)
  /-- Something else failed. -/
  | failed (failure : Failure)
  /-- A project file cannot be written. -/
  | unwritable (path : Path) (error : AccessError)
deriving DecidableEq, Repr, Inhabited

namespace CommandError

/-- The message of a failure with that of its cause. -/
def failureChain (f : Failure) : String :=
  match f with
  | .access _ error => f.message ++ ": " ++ error.message
  | .status _ | .projectNotFound _ => f.message

/-- The message of an error. -/
def message : CommandError → String
  | settingsUnreadable path cause =>
    "failed to load config " ++ path ++ ": failed to read config file " ++ path ++ ": " ++
      cause.systemMessage ++ ": " ++ cause.systemMessage
  | settingsMalformed path =>
    "failed to load config " ++ path ++ ": failed to parse toml config: unexpected settings"
  | noWorkspace path => "workspace root " ++ path ++ " is not a directory"
  | unresolvable project failure =>
    "failed to resolve buildpath of " ++ project ++ ": " ++ failureChain failure
  | failed failure => failureChain failure
  | unwritable path error => "failed to write " ++ path.toString ++ ": " ++ error.message

end CommandError

/-- Steps of a command. -/
abbrev CommandM := ExceptT CommandError ModelM

namespace Invocation

/-- The settings file in the directory of the workspace that counts if none is given. -/
def defaultSettingsFile : String := "dltk.toml"

/-- The settings file to read. -/
def settingsFile? (i : Invocation) (t : FileTree) : Option String :=
  match i.settings with
  | some path => some path
  | none =>
    let path := Directory.join i.workspace defaultSettingsFile
    if t.isFile path then some path else none

/-- Reads a settings file. -/
def readSettings (t : FileTree) (path : String) : Except CommandError Settings :=
  match t.read path with
  | .error cause => .error (.settingsUnreadable path cause)
  | .ok bytes =>
    match String.fromUTF8? bytes with
    | none => .error (.settingsUnreadable path .invalidData)
    | some text =>
      match Settings.parse? text with
      | some settings => .ok settings
      | none => .error (.settingsMalformed path)

/-- The settings of an invocation. -/
def settingsOf (i : Invocation) (t : FileTree) : Except CommandError Settings :=
  match i.settingsFile? t with
  | some path => readSettings t path
  | none => .ok {}

/-- The tree with a log file, if one is wanted and can be opened. -/
def openLog (t : FileTree) (log : LogSettings) : FileTree :=
  match log.file with
  | some path => if t.isFile path then t else (t.write path .empty).toOption.getD t
  | none => t

/-- The model of the workspace of an invocation. -/
def openModel (i : Invocation) (t : FileTree) : Except CommandError Model := do
  let settings ← i.settingsOf t
  if !t.isDirectory i.workspace then throw (.noWorkspace i.workspace)
  pure { workspace := .directory { tree := t, root := i.workspace }, settings }

end Invocation

namespace CommandM

/-- A step of the model whose failure ends the command. -/
def orFail {α : Type} (error : Failure → CommandError) (act : Action α) : CommandM α :=
  ExceptT.mk do return (← act.run).mapError error

/-- Resolves a project. -/
def resolve (project : String) (expanded : Bool) : CommandM CommandReport := do
  let issued ← orFail (.unresolvable project) (ModelM.resolution project)
  let entries ←
    if expanded then orFail .failed (ModelM.expanded project) else pure issued.result.entries
  return .resolution project entries issued.result.unresolved

/-- Lists the fragments of a project. -/
def fragments (project : String) (all : Bool) : CommandM CommandReport :=
  orFail .failed do
    if all then return .fragments project (← ModelM.visibleRoots project).fragments
    else return .fragments project (← ModelM.fragments project)

/-- Shows the problems of a script project. -/
def checkProject (project : String) : ModelM Unit := do
  match ← (ModelM.rawBuildpath project).run with
  | .error _ => pure ()
  | .ok raw =>
    match validate (projectPath project) raw with
    | .error problem => ModelM.createMarker project problem
    | .ok () => pure ()
    match ← (ModelM.resolution project).run with
    | .error _ => pure ()
    | .ok issued =>
      if let some problem := issued.result.unresolved then ModelM.createMarker project problem

/-- Shows the problems of every script project. -/
def check : ModelM CommandReport := do
  (← get).workspace.scriptProjects.forM checkProject
  ModelM.validateCycles []
  return .problems (← get).markers.all

/-- Brings a project file into its canonical form, unless `checkOnly` is set, and tells whether it was
in another one; `none` if there is no file. -/
def formatProject (project : String) (checkOnly : Bool) : CommandM (Option Bool) := do
  let w := (← get).workspace
  if !w.projectExists project then throw (.failed (.projectNotFound project))
  match ProjectFile.load w project with
  | .missing => return none
  | .invalid problem => throw (.failed (.status problem))
  | .valid document =>
    let path := projectFilePath project
    let canonical := (document.encode (projectPath project)).toUTF8
    if (w.read path).toOption.map (·.data) = some canonical.data then return some false
    if !checkOnly then
      match w.write path canonical with
      | .error error => throw (.unwritable path error)
      | .ok w => modify fun m => { m with workspace := w }
    return some true

/-- Brings project files into their canonical form: those of the projects named, or else those of all
script projects. -/
def format (projects : List String) (checkOnly : Bool) : CommandM CommandReport := do
  let w := (← get).workspace
  let projects := if projects.isEmpty then w.scriptProjects else projects
  let (changed, unchanged) ← projects.foldlM
    (fun (changed, unchanged) project => do
      match ← formatProject project checkOnly with
      | none => return (changed, unchanged)
      | some true => return (changed ++ [project], unchanged)
      | some false => return (changed, unchanged ++ [project]))
    (([], []) : List String × List String)
  return .formatted checkOnly changed unchanged

/-- Runs a command. -/
def ofCommand : Command → CommandM CommandReport
  | .resolve project expanded => resolve project expanded
  | .fragments project all => fragments project all
  | .cycles => do
    return .cycles (ModelM.sortNames (← ModelM.cycleParticipants []))
  | .check => check
  | .format projects checkOnly => format projects checkOnly

end CommandM

/-- How the tool ended: its status and what it printed. -/
structure Outcome where
  status : Nat
  output : String := ""
  errors : String := ""
deriving DecidableEq, Repr, Inhabited

/-- The outcome of a command with an error. -/
def Outcome.ofError (error : CommandError) : Outcome := { status := 2, errors := error.message ++ "\n" }

/-- The tree of a workspace in a directory. -/
def Workspace.tree (w : Workspace) : FileTree :=
  match w with
  | .directory d => d.tree
  | .memory _ => {}

/-- Runs an invocation on a file tree. -/
def Invocation.run (i : Invocation) (t : FileTree) : Outcome × FileTree :=
  let t := match i.settingsOf t with
    | .ok settings => openLog t settings.log
    | .error _ => t
  match i.openModel t with
  | .error error => (.ofError error, t)
  | .ok m =>
    let (result, m) := (CommandM.ofCommand i.command).run.run m
    match result with
    | .error error => (.ofError error, m.workspace.tree)
    | .ok report =>
      ({ status := report.exitStatus, output := report.print i.json }, m.workspace.tree)

/-- The version of the tool. -/
def versionLine : String := "dltk 0.1.0"

/-- Does what a command line asks for on a file tree. -/
def Request.run (r : Request) (t : FileTree) : Outcome × FileTree :=
  match r with
  | .version => ({ status := 0, output := versionLine ++ "\n" }, t)
  | .invoke invocation => invocation.run t

/-- The path texts that the resolution of the script projects of a model depends on: those of the
libraries, inside and outside the workspace, of their manifests and of the libraries that they refer
to. -/
def Model.mentionedFiles (m : Model) : List String :=
  let issued := (m.workspace.scriptProjects.mapM fun project => (ModelM.resolution project).run).run m
  let entries := issued.1.flatMap fun result =>
    match result with
    | .ok issued => issued.result.entries
    | .error _ => []
  let paths := entries.flatMap fun e =>
    e.path :: e.path.appendText Manifest.memberName ::
      (m.workspace.libraryReferences e.external e.path ++ e.attachmentPath.toList)
  paths.flatMap fun p => p.toString :: (m.workspace.location? p).toList.map Path.toString

end Buildpath
