import Buildpath.Path

/-!
# Indexing

The requests that changes of buildpaths send to the indexer, and an indexer that keeps track of which
paths have an index or a job that waits to build one.
-/

namespace Buildpath

/-- A request to the indexer. -/
inductive IndexRequest where
  | indexFragment (project : String) (path : Path)
  | indexLibrary (project : String) (path : Path)
  | removeSourceFolder (project : String) (path : Path)
  | removeIndex (path : Path)
  /-- Cancels the waiting jobs at and below a path. -/
  | discardJobs (path : Path)
deriving DecidableEq, Repr, Inhabited

/-- The requests since they were last taken, the paths with a waiting job and those with an index. -/
structure Indexer where
  requests : List IndexRequest := []
  pending : List Path := []
  indexed : List Path := []
deriving Inhabited

namespace Indexer

/-- Handles a request. A path that has an index gets no new job. -/
def handle (i : Indexer) (request : IndexRequest) : Indexer :=
  let i := { i with requests := i.requests ++ [request] }
  match request with
  | .indexFragment _ path | .indexLibrary _ path =>
    if path ∈ i.indexed then i else { i with pending := i.pending.insert path }
  | .removeSourceFolder _ path =>
    { i with pending := i.pending.filter (· ≠ path), indexed := i.indexed.filter (· ≠ path) }
  | .removeIndex path => { i with indexed := i.indexed.filter (· ≠ path) }
  | .discardJobs path => { i with pending := i.pending.filter fun p => !path.isPrefixOf p }

/-- Completes every waiting job. -/
def runPending (i : Indexer) : Indexer :=
  { i with pending := [], indexed := i.pending.foldl (fun paths p => paths.insert p) i.indexed }

/-- Forgets the requests. -/
def takeRequests (i : Indexer) : List IndexRequest × Indexer :=
  (i.requests, { i with requests := [] })

/-- Whether a path has an index. -/
def isIndexed (i : Indexer) (path : Path) : Bool := path ∈ i.indexed

/-- The paths with a waiting job in ascending order. -/
def pendingPaths (i : Indexer) : List Path := Path.sort i.pending

end Indexer

end Buildpath
