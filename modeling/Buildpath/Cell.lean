import Buildpath.Document.Basic
import Buildpath.Fragment
import Buildpath.Resolution

/-!
# Cells

What is remembered of one project: its raw buildpath, the outcome of the last resolution and what was
computed from it. A cell does not resolve by itself: a resolution begins with the raw buildpath of the
moment and its outcome is kept only if the cell was not invalidated in the meantime.
-/

namespace Buildpath

/-- A buildpath as it stands in the project file, or as an operation set it. -/
structure RawBuildpath where
  entries : List Entry := []
  foreign : Foreign := {}
  /-- Why the project file could not be used. -/
  formatProblem : Option Status := none
deriving Inhabited

/-- A result under the number that it was issued with; no two results have one number. -/
structure Issued where
  number : Nat
  result : Resolved
deriving Inhabited

/-- The fragments that a project sees and the entry behind each path, restricted by the project
entries that lead to it. -/
structure VisibleRoots where
  fragments : List Fragment := []
  entryOf : Table Path Entry := .empty
deriving Inhabited

/-- How far the resolution of a project is. -/
inductive ResolutionState where
  | unresolved
  | resolving (generation : Nat)
  | resolved (result : Issued)
deriving Inhabited

/-- The result, if there is one. -/
def ResolutionState.issued? : ResolutionState → Option Issued
  | resolved result => some result
  | _ => none

/-- What is remembered of one project. -/
structure Cell where
  raw : Option RawBuildpath := none
  /-- The time of the last change of the project file that `raw` comes from. -/
  stamp : Option Nat := none
  /-- How often the cell was invalidated. -/
  generation : Nat := 0
  state : ResolutionState := .unresolved
  /-- The result kept last, which outlives its invalidation. -/
  last : Option Issued := none
  fragments : Option (List Fragment) := none
  roots : Option VisibleRoots := none
deriving Inhabited

/-- What to do for a resolution. -/
inductive Beginning where
  /-- There is a result. -/
  | cached (result : Issued)
  /-- The project is being resolved. -/
  | reentrant
  /-- Resolve a raw buildpath. -/
  | start (generation : Nat) (raw : Option RawBuildpath) (last : Option Issued)
deriving Inhabited

namespace Cell

/-- The result that is valid now. -/
def issued? (c : Cell) : Option Issued := c.state.issued?

/-- Drops what was computed from the raw buildpath. -/
def invalidate (c : Cell) : Cell :=
  { c with generation := c.generation + 1, state := .unresolved, fragments := none, roots := none }

/-- Stores what was read from the project file, unless there is a raw buildpath. -/
def storeRaw (c : Cell) (raw : RawBuildpath) (stamp : Option Nat) : Cell :=
  match c.raw with
  | some _ => c
  | none => { c with raw := some raw, stamp }.invalidate

/-- Replaces the entries of the raw buildpath. Foreign content stays. -/
def setRaw (c : Cell) (entries : List Entry) : Cell :=
  { c with raw := some { entries, foreign := (c.raw.map RawBuildpath.foreign).getD {} } }.invalidate

/-- Sets the time of the project file. -/
def setStamp (c : Cell) (stamp : Option Nat) : Cell := { c with stamp }

/-- Begins a resolution, where `isResolving` tells whether the project is being resolved already. A
result with an unbound entry does not count. -/
def begin (c : Cell) (isResolving : Bool) : Beginning × Cell :=
  let start :=
    if isResolving then (.reentrant, c)
    else
      (.start c.generation c.raw c.last,
        match c.state with
        | .resolving _ => c
        | _ => { c with state := .resolving c.generation })
  match c.issued? with
  | some result => if result.result.isOk then (.cached result, c) else start
  | none => start

/-- Keeps the outcome of a resolution that began in a generation, if that is still the current one. -/
def complete (c : Cell) (generation : Nat) (result : Issued) : Cell :=
  if c.generation = generation then
    { c with state := .resolved result, last := some result, fragments := none, roots := none }
  else c

/-- Whether a result is the valid one. -/
def isCurrent (c : Cell) (result : Issued) : Bool :=
  c.issued?.any fun current => current.number = result.number

/-- Keeps the fragments of a result, if it is the valid one. -/
def storeFragments (c : Cell) (result : Issued) (fragments : List Fragment) : Cell :=
  if c.isCurrent result then { c with fragments := some fragments } else c

/-- Keeps the visible roots of a result, if it is the valid one. -/
def storeRoots (c : Cell) (result : Issued) (roots : VisibleRoots) : Cell :=
  if c.isCurrent result then { c with roots := some roots } else c

/-- Drops the visible roots. -/
def clearRoots (c : Cell) : Cell := { c with roots := none }

end Cell

end Buildpath
