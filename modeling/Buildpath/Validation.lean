import Buildpath.Entry.Patterns
import Buildpath.Status

/-!
# Validation of buildpaths

The rules that a raw buildpath has to obey before it is accepted: no two entries of one path, each
path of the form that its kind asks for, and no source folder inside another one that does not
exclude it. The first offence in list order is reported, nesting last.
-/

namespace Buildpath

/-- The problem of one entry by itself. -/
def entryProblem? (project : Path) (e : Entry) : Option Status :=
  let invalid := fun reason => some (Status.invalidPath e.path reason)
  match e.kind with
  | .source =>
    if !e.path.absolute || !project.isPrefixOf e.path then
      invalid "source folder must be inside the project"
    else none
  | .project =>
    if !e.path.absolute || e.path.segmentCount ≠ 1 then some (.invalidName e.path.toString)
    else if e.path = project then invalid "project cannot reference itself"
    else none
  | .library | .variableRef | .container =>
    if e.path.isEmpty then invalid "path must not be empty" else none

/-- The first entry whose path occurs in `seen` or before it, or that has a problem by itself. -/
def listProblem? (project : Path) (seen : List Path) : List Entry → Option Status
  | [] => none
  | e :: es =>
    if e.path ∈ seen then some (.nameCollision e.path)
    else
      match entryProblem? project e with
      | some problem => some problem
      | none => listProblem? project (e.path :: seen) es

/-- The problem of a source folder inside another one. -/
def nestingProblem? (outer inner : Entry) : Option Status :=
  if outer.path = inner.path || !outer.path.isPrefixOf inner.path then none
  else if outer.isExcluded inner.path true then none
  else
    let relative := inner.path.dropFirst outer.path.segmentCount
    some (.invalidPath inner.path
      ("cannot nest inside " ++ outer.path.toString ++ "; exclude '" ++ relative.toString ++
        "/' from it to enable nesting"))

/-- The first problem of a raw buildpath. -/
def problem? (project : Path) (raw : List Entry) : Option Status :=
  match listProblem? project [] raw with
  | some problem => some problem
  | none =>
    let sources := raw.filter (·.kind = .source)
    sources.findSome? fun outer => sources.findSome? fun inner => nestingProblem? outer inner

/-- Accepts a raw buildpath without problems. -/
def validate (project : Path) (raw : List Entry) : Except Status Unit :=
  match problem? project raw with
  | some problem => .error problem
  | none => .ok ()

end Buildpath
