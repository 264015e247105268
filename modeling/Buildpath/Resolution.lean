import Buildpath.Container
import Buildpath.Library.Chained
import Buildpath.Status

/-!
# Resolution

What a raw buildpath stands for: variables and containers are replaced by the entries behind them,
libraries bring along the libraries that they refer to, and each path occurs once. Bindings are looked
up in any monad, since a look-up may have to make a container first. An entry without a binding is
left out and reported.
-/

namespace Buildpath

/-- The outcome of a resolution. -/
structure Resolved where
  /-- The entries in the order of the raw buildpath, each path once. -/
  entries : List Entry := []
  /-- The raw entry that brought in the entry at a path. -/
  rawOf : Table Path Entry := .empty
  /-- The entry at a path. -/
  roots : Table Path Entry := .empty
  /-- The first raw entry without a binding. -/
  unresolved : Option Status := none
  /-- Whether the project was being resolved already, so that nothing is known. -/
  inProgress : Bool := false
deriving Inhabited

namespace Resolved

/-- Whether every entry had a binding. -/
def isOk (r : Resolved) : Bool := r.unresolved.isNone

/-- What is known of a project that is being resolved already. -/
def ofProgress : Resolved := { inProgress := true }

/-- Records the problem of a raw entry, unless there was one before. -/
def recordProblem (r : Resolved) (problem : Status) : Resolved :=
  { r with unresolved := some (r.unresolved.getD problem) }

end Resolved

/-- What variables and containers of a project are bound to. -/
structure Bindings (m : Type → Type) where
  /-- The entry that a variable entry stands for. -/
  variableEntry? : Entry → m (Option Entry)
  /-- The container of a path. -/
  container? : Path → m (Option Container)

/-- What else a resolution depends on. -/
structure ResolutionContext where
  project : String
  /-- The place of the project in the file system. -/
  location : Option Path
  /-- Whether the references of libraries are followed. -/
  followsLibraries : Bool
  /-- Whether those of the libraries in containers are followed, too. -/
  followsContainers : Bool
  /-- The libraries that a library brings along. -/
  chained : Path → Bool → List ChainedLibrary
  /-- The entries of the last resolution by path. -/
  last : Table Path Entry
  /-- Whether a path is that of a folder outside the workspace. -/
  isExternalFolder : Path → Bool

/-- The state of a resolution: its result so far and the external folders that occurred. -/
structure ResolutionPass where
  result : Resolved := {}
  folders : List Path := []
deriving Inhabited

namespace ResolutionPass

/-- Gives a chained library what a user had attached to it in the last resolution. -/
def carryOver (e old : Entry) : Entry :=
  let e := { e with exported := old.exported }
  let e :=
    if old.attachmentPath.isSome || old.attachmentRoot.isSome then
      { e with attachmentPath := old.attachmentPath, attachmentRoot := old.attachmentRoot }
    else e
  if old.attributes.isEmpty then e else { e with attributes := old.attributes }

/-- Notes the external folders that an entry refers to. -/
def addFolders (p : ResolutionPass) (c : ResolutionContext) (e : Entry) : ResolutionPass :=
  let own := if e.kind = .library && c.isExternalFolder e.path then [e.path] else []
  let attached := e.attachmentPath.toList.filter c.isExternalFolder
  { p with folders := p.folders ++ own ++ attached }

/-- Adds an entry that a raw entry brings in, unless its path is there. -/
def add (p : ResolutionPass) (c : ResolutionContext) (raw e : Entry) : ResolutionPass :=
  if p.result.rawOf.contains e.path then p.addFolders c e
  else
    { p with
      result :=
        { p.result with
          entries := p.result.entries ++ [e]
          rawOf := p.result.rawOf.insert e.path raw
          roots := p.result.roots.insert e.path e } }.addFolders c e

/-- Adds a library that another one brought along, which keeps what was attached to it. -/
def addChained (p : ResolutionPass) (c : ResolutionContext) (raw e : Entry) : ResolutionPass :=
  if p.result.rawOf.contains e.path then p.addFolders c e
  else
    match c.last.find? e.path with
    | some old => p.add c raw (carryOver e old)
    | none => p.add c raw e

/-- Adds the libraries chained from a library that is not there yet. They are exported with it, and
those that the raw buildpath lists are left to it. -/
def addReferences (p : ResolutionPass) (c : ResolutionContext) (listed : List Path)
    (raw library : Entry) : ResolutionPass :=
  if p.result.rawOf.contains library.path then p
  else
    (c.chained library.path library.external).foldl
      (fun p reference =>
        if reference.path ∈ listed then p
        else
          p.addChained c raw
            { kind := .library, path := reference.path, external := reference.external
              exported := library.exported })
      p

/-- Whether the references of the libraries behind a raw entry are followed. -/
def follows (c : ResolutionContext) (raw : Entry) : Bool :=
  c.followsLibraries && (raw.kind ≠ .container || c.followsContainers)

/-- Adds the entries behind a raw entry, each library after those that it brings along. -/
def addAll (p : ResolutionPass) (c : ResolutionContext) (listed : List Path) (raw : Entry)
    (entries : List Entry) : ResolutionPass :=
  entries.foldl
    (fun p e =>
      let p := if e.kind = .library && follows c raw then p.addReferences c listed raw e else p
      p.add c raw e)
    p

end ResolutionPass

variable {m : Type → Type} [Monad m]

/-- The entries behind a raw entry, or the problem that there is no binding. -/
def entriesBehind (b : Bindings m) (c : ResolutionContext) (raw : Entry) :
    m (Except Status (List Entry)) :=
  match raw.kind with
  | .variableRef => do
    match ← b.variableEntry? raw with
    | some e => pure (.ok [e])
    | none => pure (.error (.unboundVariable c.project raw.path))
  | .container => do
    match ← b.container? raw.path with
    | some container =>
      pure (.ok (container.entries.map fun e => (e.combine (some raw)).resolveFrom c.location))
    | none => pure (.error (.unboundContainer c.project raw.path))
  | .library => pure (.ok [raw.resolveFrom c.location])
  | .source | .project => pure (.ok [raw])

/-- The libraries that a raw buildpath lists itself, if references are followed at all. -/
def listedLibraries (c : ResolutionContext) (raw : List Entry) : List Path :=
  if c.followsLibraries then
    (raw.filter (·.kind = .library)).map fun e => (e.resolveFrom c.location).path
  else []

/-- Resolves a raw buildpath. -/
def resolve (b : Bindings m) (c : ResolutionContext) (raw : List Entry) : m ResolutionPass :=
  raw.foldlM
    (fun p e => do
      match ← entriesBehind b c e with
      | .ok entries => pure (p.addAll c (listedLibraries c raw) e entries)
      | .error problem => pure { p with result := p.result.recordProblem problem })
    {}

end Buildpath
