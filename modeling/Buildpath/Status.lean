import Buildpath.Resource.Basic

/-!
# Problems of buildpaths

The problems that a buildpath can have and the failures that an operation can end with, with their
codes and messages.
-/

namespace Buildpath

/-- A problem of a buildpath. -/
inductive Status where
  /-- A variable entry whose variable has no value. -/
  | unboundVariable (project : String) (path : Path)
  /-- A container entry whose container is not bound. -/
  | unboundContainer (project : String) (path : Path)
  /-- An entry whose path is not allowed. -/
  | invalidPath (path : Path) (reason : String)
  /-- A project that leads into a cycle of projects. -/
  | cycle (project : String)
  /-- A project file that cannot be read. -/
  | invalidFile (project : String) (reason : String)
  /-- Two entries of one path. -/
  | nameCollision (path : Path)
  /-- A name that is not allowed. -/
  | invalidName (name : String)
  /-- A resource that cannot be accessed. -/
  | inaccessible (path : String) (reason : String)
deriving DecidableEq, Repr, Inhabited

namespace Status

/-- The code of a problem. -/
def code : Status → String
  | unboundVariable .. => "unbound-variable"
  | unboundContainer .. => "unbound-container"
  | invalidPath .. => "invalid-path"
  | cycle .. => "buildpath-cycle"
  | invalidFile .. => "invalid-buildpath-file-format"
  | nameCollision .. => "name-collision"
  | invalidName .. => "invalid-name"
  | inaccessible .. => "io"

/-- The message of a problem. -/
def message : Status → String
  | unboundVariable _ path => "unbound buildpath variable: " ++ path.toString
  | unboundContainer _ path => "unbound buildpath container: " ++ path.toString
  | invalidPath path reason => "invalid buildpath path " ++ path.toString ++ ": " ++ reason
  | cycle project => "a cycle was detected in the buildpath of project '" ++ project ++ "'"
  | invalidFile project reason =>
    "cannot read .buildpath file of project '" ++ project ++ "': " ++ reason
  | nameCollision path => "buildpath contains duplicate entry: " ++ path.toString
  | invalidName name => "invalid name: " ++ name
  | inaccessible path reason => "i/o failure on " ++ path ++ ": " ++ reason

/-- The path that a problem is about. -/
def path? : Status → Option Path
  | unboundVariable _ path | unboundContainer _ path | invalidPath path _ | nameCollision path =>
    some path
  | _ => none

/-- Whether the problem is a missing binding. -/
def isUnbound : Status → Bool
  | unboundVariable .. | unboundContainer .. => true
  | _ => false

end Status

/-- What an operation on a model can end with. -/
inductive Failure where
  /-- The buildpath has a problem. -/
  | status (status : Status)
  /-- There is no such project. -/
  | projectNotFound (project : String)
  /-- A resource cannot be accessed. -/
  | access (path : String) (error : AccessError)
deriving DecidableEq, Repr, Inhabited

/-- The message of a failure, without that of its cause. -/
def Failure.message : Failure → String
  | status s => s.message
  | projectNotFound project => "project '" ++ project ++ "' does not exist"
  | access path error => "failed to access " ++ path ++ ": " ++ error.message

end Buildpath
