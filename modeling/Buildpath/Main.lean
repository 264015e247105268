import Buildpath.Command.Run

/-!
# The command line tool

Reads the files that a command depends on from the disk, runs the command on them, writes the files
that it changed and prints its answer.
-/

namespace Buildpath.Disk

/-- Takes over one file or directory of the disk. What cannot be read counts as missing. -/
def load (t : FileTree) (path : String) : IO FileTree := do
  let place := (← IO.currentDir) / path
  try
    if ← place.isDir then return (t.makeDirectory path).toOption.getD t
    if !(← place.pathExists) then return t
    let contents ← IO.FS.readBinFile place
    let t := (t.makeDirectory (Directory.parentText path)).toOption.getD t
    return (t.write path contents).toOption.getD t
  catch _ => return t

/-- Takes over the projects of a workspace with the files that make them script projects. -/
def loadProjects (t : FileTree) (root : String) : IO FileTree := do
  let place := (← IO.currentDir) / root
  if !(← place.isDir) then return t
  let names := (← place.readDir).toList.map (·.fileName)
  let projects := names.map (Directory.join root)
  let marks := projects.flatMap fun project => Directory.natureMarks.map (Directory.join project)
  (projects ++ marks).foldlM load t

/-- Takes over the files that the buildpaths mention, until there is no new one. -/
partial def loadMentioned (i : Invocation) (t : FileTree) (loaded : List String) : IO FileTree := do
  match i.openModel t with
  | .error _ => return t
  | .ok m =>
    let new := (m.mentionedFiles.filter (· ∉ loaded)).eraseDups
    if new.isEmpty then return t
    loadMentioned i (← new.foldlM load t) (new ++ loaded)

/-- The file tree that an invocation depends on. -/
def loadFor (i : Invocation) : IO FileTree := do
  let here := (← IO.currentDir).toString
  let t := ((({} : FileTree).makeDirectory here).toOption.getD {}).enter here
  let settings := i.settings.getD (Directory.join i.workspace Invocation.defaultSettingsFile)
  let t ← [i.workspace, settings].foldlM load t
  loadMentioned i (← loadProjects t i.workspace) []

/-- Writes the files that differ from those before. -/
def save (before after : FileTree) : IO Unit := do
  for (place, node) in after.nodes.records do
    match node, before.node? place with
    | .file new _, some (.file old _) => if new.data ≠ old.data then IO.FS.writeBinFile (text place) new
    | .file new _, _ => IO.FS.writeBinFile (text place) new
    | .directory _, _ => pure ()
where
  /-- The path text of a place. -/
  text (place : Place) : String := "/" ++ String.intercalate "/" place

end Buildpath.Disk

/-- Runs the tool. -/
def main (args : List String) : IO UInt32 := do
  match Buildpath.Request.parse? args with
  | none =>
    IO.eprintln "usage: dltk [--workspace DIR] [--config FILE] COMMAND [PROJECT...] [--json]"
    return 2
  | some request =>
    let before ← match request with
      | .invoke invocation => Buildpath.Disk.loadFor invocation
      | .version => pure {}
    let (outcome, after) := request.run before
    Buildpath.Disk.save before after
    IO.print outcome.output
    IO.eprint outcome.errors
    return UInt32.ofNat outcome.status
