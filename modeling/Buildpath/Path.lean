import Buildpath.Text.Blank
import Buildpath.Text.Split

/-!
# Resource paths

The platform-independent paths that identify every resource. A workspace path is absolute and starts
with a project name (`/p/src`); an external path is an absolute path of the file system, with a device
where the system has them (`C:/lib/a.zip`); container and variable paths are relative.

Paths are canonical when they are built: empty and `.` segments are dropped, a name followed by `..`
collapses, and `..` survives only at the front of a relative path (`Path.Canonical`).
-/

namespace Buildpath

/-- A device such as `C:`, the absolute flag and the segments between slashes. -/
structure Path where
  device : Option String
  absolute : Bool
  segments : List String
deriving DecidableEq, Repr

namespace Path

/-- The segment that leads to the parent folder. -/
def parentSegment : String := ".."

/-- One step of canonicalization: `stack` holds the canonical segments read so far, last one first.
At the root of an absolute path `..` has no effect. -/
def pushSegment (absolute : Bool) (stack : List String) (part : String) : List String :=
  if part = "" ∨ part = "." then stack
  else if part = parentSegment then
    match stack with
    | [] => if absolute then [] else [parentSegment]
    | last :: rest =>
      if last ≠ parentSegment then rest else if absolute then stack else parentSegment :: stack
  else part :: stack

/-- The canonical segments of a sequence of parts. -/
def canonicalSegments (absolute : Bool) (parts : List String) : List String :=
  (parts.foldl (pushSegment absolute) []).reverse

/-- The device of a text with forward slashes and what follows it: a device ends at the first colon,
is not empty otherwise and holds no slash. -/
def splitDevice (text : List Char) : Option String × List Char :=
  match text.span (· ≠ ':') with
  | (name, _ :: rest) =>
    if name ≠ [] ∧ '/' ∉ name then (some (String.ofList (name ++ [':'])), rest) else (none, text)
  | (_, []) => (none, text)

/-- The path of a text: blanks around it are dropped and backslashes count as slashes. -/
def parseChars (text : List Char) : Path :=
  let slashed := (Text.trimChars text).map fun c => if c = '\\' then '/' else c
  let (device, rest) := splitDevice slashed
  let absolute := rest.head? = some '/'
  { device, absolute
    segments := canonicalSegments absolute ((Text.splitOn '/' rest).map String.ofList) }

/-- The path of a text. -/
def parse (text : String) : Path := parseChars text.toList

/-- The characters of the text of a path: device, leading slash, segments with slashes between. -/
def toChars (p : Path) : List Char :=
  (p.device.getD "").toList ++ (if p.absolute then ['/'] else []) ++
    Text.joinWith '/' (p.segments.map String.toList)

/-- The text of a path. -/
protected def toString (p : Path) : String := String.ofList p.toChars

instance : ToString Path := ⟨Path.toString⟩

/-- The workspace root, `/`. -/
def root : Path := ⟨none, true, []⟩

/-- The empty relative path. -/
def empty : Path := ⟨none, false, []⟩

instance : Inhabited Path := ⟨empty⟩

/-- Whether the path is the empty relative path. -/
def isEmpty (p : Path) : Bool := !p.absolute && p.device.isNone && p.segments.isEmpty

/-- Whether the path is absolute and has no segment. -/
def isRoot (p : Path) : Bool := p.absolute && p.segments.isEmpty

/-- The number of segments. -/
def segmentCount (p : Path) : Nat := p.segments.length

/-- The first segment. -/
def firstSegment? (p : Path) : Option String := p.segments.head?

/-- The last segment. -/
def lastSegment? (p : Path) : Option String := p.segments.getLast?

/-- What follows the last dot of a name, if neither side of that dot is empty. -/
def nameExtension? (name : String) : Option String :=
  match name.toList.reverse.span (· ≠ '.') with
  | (ext, _ :: stem) =>
    if stem ≠ [] ∧ ext ≠ [] then some (String.ofList ext.reverse) else none
  | (_, []) => none

/-- The extension of the last segment, without the dot. -/
def extension? (p : Path) : Option String := p.lastSegment?.bind nameExtension?

/-- Appends the segments of `tail`; the device and the absolute flag are those of `p`. -/
def append (p tail : Path) : Path :=
  { p with segments := canonicalSegments p.absolute (p.segments ++ tail.segments) }

/-- Appends the segments of a text. -/
def appendText (p : Path) (text : String) : Path := p.append (parse text)

/-- Drops the last `count` segments. -/
def dropLast (p : Path) (count : Nat) : Path :=
  { p with segments := p.segments.take (p.segments.length - count) }

/-- Drops the first `count` segments; the result is relative and has no device. -/
def dropFirst (p : Path) (count : Nat) : Path := ⟨none, false, p.segments.drop count⟩

/-- The path without its last segment. -/
def parent? (p : Path) : Option Path := if p.segments.isEmpty then none else some (p.dropLast 1)

/-- The path as an absolute one. -/
def makeAbsolute (p : Path) : Path :=
  { p with absolute := true, segments := canonicalSegments true p.segments }

/-- The segments as a relative path without a device. -/
def makeRelative (p : Path) : Path := ⟨none, false, p.segments⟩

/-- Whether `q` is `p` or lies below it. -/
def isPrefixOf (p q : Path) : Bool :=
  p.device = q.device && p.absolute = q.absolute && p.segments.isPrefixOf q.segments

/-- The number of leading segments that two lists have in common. -/
def commonLength : List String → List String → Nat
  | a :: as, b :: bs => if a = b then commonLength as bs + 1 else 0
  | _, _ => 0

/-- The number of leading segments that two paths have in common. -/
def matchingFirstSegments (p q : Path) : Nat := commonLength p.segments q.segments

/-- Whether the path starts with `..`. -/
def startsWithParent (p : Path) : Bool := p.firstSegment? = some parentSegment

/-- A relative path that starts with `..` is taken from `base`; any other path stays as it is. -/
def resolveFrom (p base : Path) : Path :=
  if p.absolute || !p.startsWithParent then p else base.append p

/-- The order of paths: no device first, relative before absolute, then segment by segment. -/
protected def compare (p q : Path) : Ordering :=
  (compare p.device q.device).then ((compare p.absolute q.absolute).then
    (compare p.segments q.segments))

instance : Ord Path := ⟨Path.compare⟩

/-- Whether `p` comes before `q` or is equal to it. -/
def le (p q : Path) : Bool := (p.compare q).isLE

/-- Paths in ascending order. -/
def sort (paths : List Path) : List Path := paths.mergeSort le

/-- Paths in ascending order, each once. -/
def sortDistinct (paths : List Path) : List Path := (sort paths).eraseReps

/-- A segment that names a resource: not empty, neither `.` nor `..`, and without a slash. -/
def OrdinarySegment (segment : String) : Prop :=
  segment ≠ "" ∧ segment ≠ "." ∧ segment ≠ parentSegment ∧
    '/' ∉ segment.toList ∧ '\\' ∉ segment.toList

/-- The normal form of paths: ordinary segments, after a run of `..` on a relative path. -/
def Canonical (p : Path) : Prop :=
  ∃ ups names, p.segments = List.replicate ups parentSegment ++ names ∧
    (p.absolute = true → ups = 0) ∧ ∀ name ∈ names, OrdinarySegment name

end Path

end Buildpath
