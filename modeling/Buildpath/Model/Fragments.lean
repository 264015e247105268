import Buildpath.Model.Basic
import Buildpath.Walk

/-!
# Fragments of projects

Which fragments a project contributes itself, and which it sees in addition through the projects that
it requires. A contribution counts once, wherever it is met first; a required project is followed once,
and of its entries only those that it exports are seen, apart from source folders.
-/

namespace Buildpath

namespace Model

/-- The fragment of a source entry. A source folder lies in its project; `checks` asks for the folder
to be there. -/
def sourceFragment? (m : Model) (checks : Bool) (project : String) (e : Entry) : Option Fragment :=
  if !(projectPath project).isPrefixOf e.path then none
  else if checks && !m.workspace.isContainer e.path then none
  else some ⟨project, e.path, .source⟩

/-- The kind of a library that is not there: its name and where it should be decide. -/
def missingLibraryKind (m : Model) (project : String) (e : Entry) : FragmentKind :=
  if e.path.extension?.any (m.optionsOf project).isArchive then .archive
  else if e.external then .external
  else .folder

/-- The kind of a library. An entry that is not external is looked up in the workspace first. -/
def libraryKind? (m : Model) (checks : Bool) (project : String) (e : Entry) : Option FragmentKind :=
  match if e.external then none else m.workspace.kind? e.path with
  | some .file => some .archive
  | some .folder | some .project => some .folder
  | none =>
    match m.workspace.externalKind? e.path with
    | some .file => some .archive
    | some .folder | some .project => some .external
    | none => if checks then none else some (m.missingLibraryKind project e)

/-- The fragment of a library by the factory for the nature of its project. -/
def factoryFragment? (m : Model) (project : String) (e : Entry) : Option Fragment := do
  let factory ← m.factories.find? (← m.workspace.nature? project)
  factory project e

/-- The fragment of a library entry. -/
def libraryFragment? (m : Model) (checks : Bool) (project : String) (e : Entry) : Option Fragment :=
  match m.factoryFragment? project e with
  | some fragment => some fragment
  | none =>
    if e.path.isBuiltin then some ⟨project, e.path, .builtin⟩
    else (m.libraryKind? checks project e).map fun kind => ⟨project, e.path, kind⟩

/-- The fragment of an entry of a project. -/
def fragment? (m : Model) (checks : Bool) (project : String) (e : Entry) : Option Fragment :=
  match e.kind with
  | .source => m.sourceFragment? checks project e
  | .library => m.libraryFragment? checks project e
  | .project | .variableRef | .container => none

/-- The project that an entry leads to, if it is a script project. -/
def requiredProject? (m : Model) (e : Entry) : Option String :=
  match e.projectName? with
  | some required =>
    if m.workspace.kind? e.path = some .project && m.workspace.isScript required then some required
    else none
  | none => none

end Model

/-- What a walk through entries has met: the identities of the contributions, and the fragments with
the entries behind them. -/
structure FragmentWalk where
  rootIds : List String := []
  roots : VisibleRoots := {}
deriving Inhabited

namespace FragmentWalk

/-- A walk that starts at a project, to which no entry leads back. -/
def ofProject (project : String) : FragmentWalk :=
  { rootIds := [(Entry.project (projectPath project)).rootId] }

/-- Adds a fragment with the entry behind it. -/
def add (w : FragmentWalk) (fragment : Fragment) (e : Entry) (referring : Option Entry) :
    FragmentWalk where
  rootIds := e.rootId :: w.rootIds
  roots :=
    { fragments :=
        if fragment ∈ w.roots.fragments then w.roots.fragments else w.roots.fragments ++ [fragment]
      entryOf := w.roots.entryOf.insert fragment.path (e.combine referring) }

/-- Adds the fragment of an entry that is met for the first time. -/
def visit (w : FragmentWalk) (m : Model) (checks : Bool) (project : String) (referring : Option Entry)
    (e : Entry) : FragmentWalk :=
  if e.rootId ∈ w.rootIds then w
  else
    match m.fragment? checks project e with
    | some fragment => w.add fragment e referring
    | none => w

/-- Marks an identity as met. -/
def mark (w : FragmentWalk) (rootId : String) : FragmentWalk := { w with rootIds := rootId :: w.rootIds }

/-- Adds the fragment that an entry contributes, or enters the project that it leads to. -/
def turn (m : Model) (project : String) (referring : Option Entry) (w : FragmentWalk) (e : Entry) :
    Turn FragmentWalk :=
  if e.rootId ∈ w.rootIds then .pass w
  else
    match e.kind with
    | .source => .pass (w.visit m true project referring e)
    | .library =>
      .pass (if e.isHidden referring then w else w.visit m true project referring e)
    | .variableRef | .container => .pass w
    | .project =>
      if e.isHidden referring then .pass w
      else
        match m.requiredProject? e with
        | none => .pass w
        | some required => .enter required (w.mark e.rootId)

end FragmentWalk

/-- The fragments of a project's own entries. -/
def Model.ownFragments (m : Model) (checks : Bool) (project : String) (entries : List Entry) :
    List Fragment :=
  (entries.foldl (fun w e => w.visit m checks project none e)
    (FragmentWalk.ofProject project)).roots.fragments

namespace ModelM

/-- The entries that a project is resolved to, if it can be resolved. -/
def resolvedEntries? (project : String) : ModelM (Option (List Entry)) := do
  return (← (resolution project).run).toOption.map fun issued => issued.result.entries

/-- Computes the fragments that a project with a result sees, and keeps them. -/
def computeRoots (project : String) (issued : Issued) : ModelM VisibleRoots := do
  let m ← get
  let w ← walk (FragmentWalk.turn m) resolvedEntries? m.depth project none issued.result.entries
    (.ofProject project)
  modifyCell project (·.storeRoots issued w.roots)
  pure w.roots

/-- The fragments that a project sees, and the entries behind them. -/
def visibleRoots (project : String) : Action VisibleRoots := do
  let issued ← resolution project
  match (← cell project).roots with
  | some roots => pure roots
  | none => computeRoots project issued

/-- The fragments of a project's own entries that are there. -/
def fragments (project : String) : Action (List Fragment) := do
  let issued ← resolution project
  match (← cell project).fragments with
  | some fragments => pure fragments
  | none =>
    let fragments := (← get).ownFragments true project issued.result.entries
    modifyCell project (·.storeFragments issued fragments)
    pure fragments

/-- The fragment at a path that a project sees. -/
def findFragment (project : String) (path : Path) : Action (Option Fragment) := do
  return (← visibleRoots project).fragments.find? (·.path = path)

/-- The fragments that a raw entry of a project brings in. -/
def fragmentsOf (project : String) (raw : Entry) : Action (List Fragment) := do
  let issued ← resolution project
  let roots ← visibleRoots project
  return roots.fragments.filter fun f => (issued.result.rawOf.find? f.path).any (·.sameStructure raw)

end ModelM

end Buildpath
