import Buildpath.Entry.Basic

/-!
# Walks through projects

A walk goes through the entries of a project in order. Where an entry leads to a project, it goes
through the entries of that project before it goes on. Of the projects below the first one only what
they export is in sight. What a walk makes of an entry is up to it (`Turn`); the buildpaths of projects
are read in any monad, since reading may resolve them.
-/

namespace Buildpath

/-- Whether an entry is hidden from the project that leads to it. -/
def Entry.isHidden (e : Entry) (referring : Option Entry) : Bool := referring.isSome && !e.exported

/-- What a walk does once it met an entry. -/
inductive Turn (σ : Type) where
  /-- Goes on in a state. -/
  | pass (state : σ)
  /-- Goes through the entries of a project first. -/
  | enter (required : String) (state : σ)

variable {σ : Type} {m : Type → Type} [Monad m]

/-- Goes through the entries of a project, each restricted by the one that leads to the project. A
project that cannot be read has nothing to go through, and walks nest at most `depth` times. -/
def walk (turn : String → Option Entry → σ → Entry → Turn σ)
    (entries? : String → m (Option (List Entry))) :
    Nat → String → Option Entry → List Entry → σ → m σ
  | 0, _, _, _, s => pure s
  | depth + 1, project, referring, entries, s =>
    entries.foldlM
      (fun s e =>
        match turn project referring s e with
        | .pass s => pure s
        | .enter required s => do
          match ← entries? required with
          | none => pure s
          | some found =>
            walk turn entries? depth required (some (e.combine referring)) found s)
      s

end Buildpath
