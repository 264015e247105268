import Buildpath.Resource.Workspace
import Buildpath.Settings

/-!
# External folders

The folders outside the workspace that buildpaths refer to: which paths count, and which of them still
have to be set up.
-/

namespace Buildpath

/-- The devices that were looked for, each with whether it is there. A device is looked for once. -/
structure KnownDrives where
  probed : Table String Bool := .empty
deriving Inhabited

namespace KnownDrives

/-- Whether the device of a path is there. A path without a device needs none. -/
def has (d : KnownDrives) (w : Workspace) (path : Path) : Bool × KnownDrives :=
  match path.device with
  | none => (true, d)
  | some device =>
    match d.probed.find? device with
    | some isThere => (isThere, d)
    | none =>
      let isThere := w.hasExternal (Path.parse (device ++ "/"))
      (isThere, ⟨d.probed.insert device isThere⟩)

/-- The number of the devices looked for. -/
def probes (d : KnownDrives) : Nat := d.probed.records.length

end KnownDrives

/-- Whether a path can be that of a folder outside: absolute, not in a project and not named like an
archive. -/
def mayBeExternalFolder (w : Workspace) (options : Options) (path : Path) : Bool :=
  path.absolute && path.segmentCount ≠ 0 &&
    !(path.device.isNone && path.firstSegment?.any w.projectExists) &&
    !path.extension?.any options.isArchive

/-- Whether a path is that of a folder outside. -/
def isExternalFolder (w : Workspace) (options : Options) (path : Path) (drives : KnownDrives) :
    Bool × KnownDrives :=
  if mayBeExternalFolder w options path then
    let (isThere, drives) := drives.has w path
    (isThere && w.externalKind? path = some .folder, drives)
  else (false, drives)

/-- The folders that are registered, and those of them that have to be set up. -/
structure ExternalFolders where
  registered : List Path := []
  pending : List Path := []
deriving Inhabited

namespace ExternalFolders

/-- Registers a folder that is not registered yet, to be set up if `schedule` is set. -/
def add (f : ExternalFolders) (path : Path) (schedule : Bool) : ExternalFolders :=
  if path ∈ f.registered then f
  else
    { registered := f.registered ++ [path]
      pending := if schedule then f.pending.insert path else f.pending }

/-- Forgets a folder. -/
def remove (f : ExternalFolders) (path : Path) : ExternalFolders :=
  { registered := f.registered.filter (· ≠ path), pending := f.pending.filter (· ≠ path) }

/-- Sets up the folders that have to be, and tells which, in ascending order. -/
def createPending (f : ExternalFolders) : List Path × ExternalFolders :=
  (Path.sort f.pending, { f with pending := [] })

end ExternalFolders

end Buildpath
