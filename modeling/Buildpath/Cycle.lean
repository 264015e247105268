import Buildpath.Entry.Basic

/-!
# Cycles between projects

The depth-first walk along project entries that finds the projects which take part in a cycle, or
lead into one. The walk reads buildpaths in any monad, since reading may resolve them.
-/

namespace Buildpath

/-- Read access to the buildpaths of projects: the names of the projects that exist, and for each
name its resolved entries, if they can be read. -/
structure ProjectGraph (m : Type → Type) where
  names : List String
  entries? : String → m (Option (List Entry))

/-- Buildpaths that stand in for those of the projects named. -/
abbrev PreferredBuildpaths := List (String × List Entry)

/-- The state of a walk: the projects on the current path, those found to take part in a cycle, and
those visited. -/
structure CycleWalk where
  chain : List String := []
  participants : List String := []
  traversed : List String := []
deriving DecidableEq, Repr, Inhabited

namespace CycleWalk

/-- Adds names that are not there yet. -/
def addNames (names new : List String) : List String :=
  new.foldl (fun names name => if name ∈ names then names else names ++ [name]) names

/-- Where a required project closes the chain: at its place in it, or at the start if the project is
known to take part in a cycle. -/
def closingIndex? (w : CycleWalk) (required : String) : Option Nat :=
  if required ∈ w.participants then some 0 else w.chain.findIdx? (· = required)

/-- Steps onto a project. -/
def enter (w : CycleWalk) (project : String) : CycleWalk :=
  { w with chain := w.chain ++ [project], traversed := addNames w.traversed [project] }

/-- Steps back from the project entered last. -/
def leave (w : CycleWalk) : CycleWalk := { w with chain := w.chain.dropLast }

end CycleWalk

namespace ProjectGraph

variable {m : Type → Type} [Monad m]

/-- The entries of a project: the preferred ones, if there are any, or those of the graph. -/
def entriesWith (g : ProjectGraph m) (preferred : PreferredBuildpaths) (project : String) :
    m (Option (List Entry)) :=
  match preferred.lookup project with
  | some entries => pure (some entries)
  | none => g.entries? project

/-- Walks from a project along its project entries. Each step down enters a project that exists and
was not visited, so `depth` need not exceed the number of the projects that exist by more than one. -/
def walkFrom (g : ProjectGraph m) (preferred : PreferredBuildpaths) :
    Nat → String → CycleWalk → m CycleWalk
  | 0, _, w => pure w
  | depth + 1, project, w => do
    let entries ← g.entriesWith preferred project
    let w ← ((entries.getD []).filterMap Entry.projectName?).foldlM
      (fun w required =>
        match w.closingIndex? required with
        | some index =>
          pure { w with participants := CycleWalk.addNames w.participants (w.chain.drop index) }
        | none =>
          if required ∈ w.traversed || required ∉ g.names then pure w
          else g.walkFrom preferred depth required w)
      (w.enter project)
    pure w.leave

/-- One walk from a project, starting in any state. -/
def walk (g : ProjectGraph m) (preferred : PreferredBuildpaths) (project : String) (w : CycleWalk) :
    m CycleWalk :=
  g.walkFrom preferred (g.names.length + 1) project w

/-- The projects that walks from the projects of a list, in order, find on a chain into a cycle. -/
def cycleParticipants (g : ProjectGraph m) (preferred : PreferredBuildpaths)
    (projects : List String) : m (List String) := do
  let w ← projects.foldlM
    (fun w project =>
      if project ∈ w.traversed then pure w else g.walk preferred project w)
    ({} : CycleWalk)
  pure w.participants

/-- Whether a walk from a project finds a cycle once the project has the given buildpath. -/
def hasCycle (g : ProjectGraph m) (project : String) (buildpath : List Entry) : m Bool := do
  let w ← g.walk [(project, buildpath)] project {}
  pure !w.participants.isEmpty

end ProjectGraph

end Buildpath
