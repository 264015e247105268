import Buildpath.Model.Queries

/-!
# Changes

What a change of a buildpath means for others: the project is compared with how it was before. Entries
are matched by their root identities; one is added or removed if the other list has none of its
identity, and reordered if it stands at another index.
-/

namespace Buildpath

/-- How a project was before a change. -/
structure Change where
  project : String
  raw : Option (List Entry) := none
  resolved : Option Issued := none
  /-- The fragments before the change, if they are known. -/
  fragments : Option (List Fragment) := none
deriving Inhabited

/-- What a change comes to. -/
structure GeneratedDelta where
  project : String
  flags : ChangeFlags := {}
  delta : Delta
  old : Option Issued := none
  new : Option Issued := none
deriving Inhabited

namespace GeneratedDelta

/-- Whether anything changed. -/
def hasDelta (g : GeneratedDelta) : Bool := g.flags.hasDelta

/-- Sets flags on the project. -/
def addFlags (g : GeneratedDelta) (flags : DeltaFlags) : GeneratedDelta :=
  { g with delta := g.delta.addFlags flags, flags := { g.flags with hasDelta := true } }

/-- Records that a project entry changed. -/
def noteProjectChange (g : GeneratedDelta) : GeneratedDelta :=
  { g with flags := { g.flags with hasProjectChange := true } }

/-- Records the kind of an entry that was added or removed. -/
def noteKind (g : GeneratedDelta) (kind : EntryKind) : GeneratedDelta :=
  match kind with
  | .project => g.noteProjectChange
  | .library => { g with flags := { g.flags with hasLibraryChange := true } }
  | .source | .variableRef | .container => g

/-- Records what happened to some fragments. -/
def record (g : GeneratedDelta) (kind : DeltaKind) (flags : DeltaFlags) (fragments : List Fragment) :
    GeneratedDelta :=
  { g with delta := fragments.foldl (fun d f => d.record kind f flags) g.delta }

end GeneratedDelta

/-- The fragments that an entry contributed before it was removed: the known one at its path, or what
it would contribute if it were there. -/
def Model.removedFragments (m : Model) (project : String) (known : List Fragment) (e : Entry) :
    List Fragment :=
  match known.reverse.find? (·.path = e.path) with
  | some fragment => [fragment]
  | none => m.ownFragments false project [e]

namespace ModelM

/-- Compares an old entry at an index with the new buildpath. -/
def compareOld (known : List Fragment) (new : List Entry) (g : GeneratedDelta) (index : Nat)
    (old : Entry) : ModelM GeneratedDelta := do
  let m ← get
  match firstIndex? new old.rootId with
  | none =>
    if old.kind = .project then return g.noteProjectChange
    let fragments := m.removedFragments g.project known old
    fragments.forM closeFragment
    return (g.noteKind old.kind).record .removed { removed := true } fragments
  | some newIndex =>
    if old.kind = .project then
      let isSame := new[newIndex]?.all fun e => e.exported = old.exported
      return if isSame then g else g.noteProjectChange
    else if newIndex = index then return g
    else return g.record .changed { reordered := true } (m.ownFragments true g.project [old])

/-- Adds a new entry that has no match in the old buildpath. -/
def compareNew (m : Model) (old : List Entry) (g : GeneratedDelta) (new : Entry) : GeneratedDelta :=
  if (firstIndex? old new.rootId).isSome then g
  else if new.kind = .project then g.noteProjectChange
  else
    (g.noteKind new.kind).record .added { added := true } (m.ownFragments true g.project [new])

/-- Compares the resolved buildpaths before and after a change that differ. -/
def compareResolved (known : List Fragment) (old new : List Entry) (g : GeneratedDelta) :
    ModelM GeneratedDelta := do
  let g ← old.zipIdx.foldlM (fun g (e, index) => compareOld known new g index e) g
  return new.foldl (compareNew (← get) old) g

/-- Compares the raw buildpaths before and after a change. A container that is no longer mentioned
loses its binding. -/
def compareRaw (old new : List Entry) (g : GeneratedDelta) : ModelM GeneratedDelta := do
  if sameStructure old new then return g
  for e in old do
    if e.kind = .container && !new.any (·.sameStructure e) then
      modifyRegistry (·.reset e.path g.project)
  return g.addFlags { rawChanged := true }

/-- Compares a project with how it was before. How it is now becomes the new point of comparison. -/
def generateDelta (change : Change) : ModelM (GeneratedDelta × Change) := do
  let project := change.project
  let nothing : GeneratedDelta := { project, delta := { project }, old := change.resolved }
  match ← (resolution project).run with
  | .error _ => return (nothing, change)
  | .ok new =>
    let newRaw := ((← cell project).raw.map RawBuildpath.entries).getD []
    let g := { nothing with new := some new }
    let g ← match change.raw with
      | some oldRaw => compareRaw oldRaw newRaw g
      | none => pure g
    let now : Change := { project, raw := some newRaw, resolved := some new }
    match change.resolved with
    | none => return (g, now)
    | some old =>
      if sameStructure old.result.entries new.result.entries then return (g, now)
      closeChildren project
      modify Model.clearRoots
      let g ← compareResolved (change.fragments.getD []) old.result.entries new.result.entries
        (g.addFlags { resolvedChanged := true })
      return (g, now)

/-- Whether another project that was resolved has a library at a path. -/
def isLibraryShared (m : Model) (path : Path) (project : String) : Bool :=
  m.cells.records.any fun (name, c) =>
    name ≠ project &&
      c.issued?.any fun issued =>
        issued.result.entries.any fun e => e.kind = .library && e.path = path

/-- The requests to the indexer for an old entry without a match. The index of a library stays while
another project has the library. -/
def requestsForOld (m : Model) (project : String) (old : Entry) : List IndexRequest :=
  match old.kind with
  | .source => [.removeSourceFolder project old.path]
  | .library =>
    if isLibraryShared m old.path project then []
    else [.discardJobs old.path, .removeIndex old.path]
  | .project | .variableRef | .container => []

/-- The requests to the indexer for a new entry without a match. A library at a path that was there
before is not indexed again. -/
def requestsForNew (project : String) (old : List Entry) (new : Entry) : List IndexRequest :=
  match new.kind with
  | .library => if old.any (·.path = new.path) then [] else [.indexLibrary project new.path]
  | .source => [.indexFragment project new.path]
  | .project | .variableRef | .container => []

/-- The requests to the indexer for a change, removals first. -/
def indexRequests (m : Model) (g : GeneratedDelta) : List IndexRequest :=
  match g.new with
  | none => []
  | some issued =>
    let new := issued.result.entries
    let old := (g.old.map fun o => o.result.entries).getD []
    let unmatched := fun (es others : List Entry) =>
      es.filter fun e => (firstIndex? others e.rootId).isNone
    (unmatched old new).flatMap (requestsForOld m g.project) ++
      (unmatched new old).flatMap (requestsForNew g.project old)

/-- Sends the requests for a change to the indexer. -/
def requestIndexing (g : GeneratedDelta) : ModelM Unit :=
  modify fun m => { m with indexer := (indexRequests m g).foldl Indexer.handle m.indexer }

end ModelM

end Buildpath
