import Buildpath.Model.Fragments

/-!
# Expansion

The buildpath of a project as one list: its own entries and after each project entry what that project
exports, restricted by the entries that lead to it. A contribution occurs once, and a project is
followed once.
-/

namespace Buildpath

/-- The identities met and the entries collected. -/
structure Expansion where
  rootIds : List String := []
  entries : List Entry := []
deriving Inhabited

namespace Expansion

/-- Collects an entry. -/
def add (x : Expansion) (e : Entry) (referring : Option Entry) : Expansion :=
  { x with entries := x.entries ++ [e.combine referring] }

/-- Marks an identity as met. -/
def mark (x : Expansion) (rootId : String) : Expansion := { x with rootIds := rootId :: x.rootIds }

/-- Collects an entry that is met for the first time, and enters the project that it leads to. An entry
that leads to no project does not count as met. -/
def turn (m : Model) (referring : Option Entry) (x : Expansion) (e : Entry) : Turn Expansion :=
  if e.isHidden referring || e.rootId ∈ x.rootIds then .pass x
  else if e.kind ≠ .project then .pass ((x.add e referring).mark e.rootId)
  else
    match m.requiredProject? e with
    | none => .pass (x.add e referring)
    | some required => .enter required ((x.add e referring).mark e.rootId)

/-- An expansion that starts at a project, to which no entry leads back. -/
def ofProject (project : String) : Expansion :=
  { rootIds := [(Entry.project (projectPath project)).rootId] }

end Expansion

namespace ModelM

/-- Goes on from the entries of a project to what the required projects export. -/
def expand (project : String) (entries : List Entry) : ModelM (List Entry) := do
  let m ← get
  let x ← walk (fun _ => Expansion.turn m) resolvedEntries? m.depth project none entries
    (.ofProject project)
  return x.entries

/-- The buildpath of a project with what the required projects export. -/
def expanded (project : String) : Action (List Entry) := do
  let issued ← resolution project
  expand project issued.result.entries

end ModelM

end Buildpath
