import Buildpath.Container
import Buildpath.Report.JsonValue
import Buildpath.Resolution

/-!
# Initializers

An initializer makes the container of a path for a project when it is first looked up. It is a script
that may ask the model before it answers: look up containers, also the one being made, change bindings
and resolve projects.
-/

namespace Buildpath

/-- What a script can ask the model. -/
inductive Call where
  /-- Looks up a container, which is made if need be. -/
  | find (path : Path) (project : String)
  /-- Looks up a container without making it. -/
  | peek (path : Path) (project : String)
  /-- Looks up a container of the previous session. -/
  | previous (path : Path) (project : String)
  /-- Binds projects, or drops their bindings. -/
  | put (path : Path) (containers : List (String × Option Container))
  /-- Drops a binding. -/
  | reset (path : Path) (project : String)
  /-- Drops the bindings of a project. -/
  | removeProject (project : String)
  /-- Keeps the current bindings as those of the previous session. -/
  | freeze
  /-- Lists the containers of a project. -/
  | containers (project : String)
  /-- Resolves a project. -/
  | resolve (project : String)
  /-- Replaces the raw buildpath that is remembered for a project. -/
  | setRaw (project : String) (entries : List Entry)
  /-- Notes a value in the log. -/
  | note (value : JsonValue)
deriving Inhabited

/-- The answers to a call. -/
def Call.Answer : Call → Type
  | find .. | peek .. | previous .. => Option Container
  | put .. | reset .. | removeProject _ | freeze | setRaw .. | note _ => Unit
  | containers _ => List (Path × Container)
  | resolve _ => Except Failure Resolved

/-- The steps of an initializer. -/
inductive Script where
  /-- Ends with a container, or without one. -/
  | done (container : Option Container)
  /-- Makes a call and goes on with the answer. -/
  | ask (call : Call) (next : call.Answer → Script)

instance : Inhabited Script := ⟨.done none⟩

/-- A script for each path and project. -/
abbrev Initializer := Path → String → Script

end Buildpath
