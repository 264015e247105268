import Buildpath.Fragment

/-!
# Deltas

The report of what changed when the buildpath of a project was replaced: flags on the project and one
child for each fragment concerned.
-/

namespace Buildpath

/-- What happened to an element of a delta. -/
inductive DeltaKind where
  | added
  | removed
  | changed
deriving DecidableEq, Repr, Inhabited

/-- The word for a kind in a report. -/
def DeltaKind.reportWord : DeltaKind → String
  | added => "added"
  | removed => "removed"
  | changed => "changed"

/-- The character for a kind in the text of a delta. -/
def DeltaKind.sign : DeltaKind → Char
  | added => '+'
  | removed => '-'
  | changed => '*'

/-- The flags of an element of a delta. -/
structure DeltaFlags where
  /-- The entry of a fragment was added to the resolved buildpath. -/
  added : Bool := false
  /-- The entry of a fragment was removed from the resolved buildpath. -/
  removed : Bool := false
  /-- A fragment moved to another position. -/
  reordered : Bool := false
  /-- The raw buildpath of the project changed. -/
  rawChanged : Bool := false
  /-- The resolved buildpath of the project changed. -/
  resolvedChanged : Bool := false
  /-- Some child changed. -/
  children : Bool := false
deriving DecidableEq, Repr, Inhabited

namespace DeltaFlags

/-- No flag. -/
def none : DeltaFlags := {}

/-- The flags of either. -/
def union (a b : DeltaFlags) : DeltaFlags where
  added := a.added || b.added
  removed := a.removed || b.removed
  reordered := a.reordered || b.reordered
  rawChanged := a.rawChanged || b.rawChanged
  resolvedChanged := a.resolvedChanged || b.resolvedChanged
  children := a.children || b.children

instance : Union DeltaFlags := ⟨union⟩

/-- The names of the flags that are set, in their fixed order. -/
def names (f : DeltaFlags) : List String :=
  [(f.added, "ADDED_TO_BUILDPATH"), (f.removed, "REMOVED_FROM_BUILDPATH"), (f.reordered, "REORDER"),
    (f.rawChanged, "BUILDPATH_CHANGED"), (f.resolvedChanged, "RESOLVED_BUILDPATH_CHANGED"),
    (f.children, "CHILDREN")].filterMap fun (isSet, name) => if isSet then some name else Option.none

/-- The flags of a list of names. -/
def ofNames (ns : List String) : DeltaFlags where
  added := "ADDED_TO_BUILDPATH" ∈ ns
  removed := "REMOVED_FROM_BUILDPATH" ∈ ns
  reordered := "REORDER" ∈ ns
  rawChanged := "BUILDPATH_CHANGED" ∈ ns
  resolvedChanged := "RESOLVED_BUILDPATH_CHANGED" ∈ ns
  children := "CHILDREN" ∈ ns

end DeltaFlags

/-- The summary of a delta. -/
structure ChangeFlags where
  /-- Something changed. -/
  hasDelta : Bool := false
  /-- A project entry was added, removed or changed its export flag. -/
  hasProjectChange : Bool := false
  /-- A library entry was added or removed. -/
  hasLibraryChange : Bool := false
deriving DecidableEq, Repr, Inhabited

/-- The names of the flags that are set, in their fixed order. -/
def ChangeFlags.names (f : ChangeFlags) : List String :=
  [(f.hasDelta, "HAS_DELTA"), (f.hasProjectChange, "HAS_PROJECT_CHANGE"),
    (f.hasLibraryChange, "HAS_LIBRARY_CHANGE")].filterMap fun (isSet, name) =>
      if isSet then some name else none

/-- What happened to one fragment. -/
structure FragmentDelta where
  fragment : Fragment
  kind : DeltaKind
  flags : DeltaFlags
deriving DecidableEq, Repr, Inhabited

/-- What happened to a project. -/
structure Delta where
  project : String
  flags : DeltaFlags := {}
  children : List FragmentDelta := []
deriving DecidableEq, Repr, Inhabited

namespace Delta

/-- Whether nothing happened. -/
def isEmpty (d : Delta) : Bool := d.flags = DeltaFlags.none && d.children.isEmpty

/-- Adds flags to the project. -/
def addFlags (d : Delta) (flags : DeltaFlags) : Delta := { d with flags := d.flags ∪ flags }

/-- Whether a child is about a fragment: project and path decide, the kind does not. -/
def isAbout (fragment : Fragment) (child : FragmentDelta) : Bool :=
  child.fragment.path = fragment.path && child.fragment.project = fragment.project

/-- Adds flags to the child of a fragment, or a child at the end. A child that is mentioned with two
kinds has only changed. -/
def mergeChild (fragment : Fragment) (kind : DeltaKind) (flags : DeltaFlags) :
    List FragmentDelta → List FragmentDelta
  | [] => [⟨fragment, kind, flags⟩]
  | child :: children =>
    if isAbout fragment child then
      { child with
        kind := if child.kind = kind then child.kind else .changed
        flags := child.flags ∪ flags } :: children
    else child :: mergeChild fragment kind flags children

/-- Records what happened to a fragment. -/
def record (d : Delta) (kind : DeltaKind) (fragment : Fragment) (flags : DeltaFlags) : Delta :=
  { d with
    flags := d.flags ∪ { children := true }
    children := mergeChild fragment kind flags d.children }

/-- The child of the fragment at a path. -/
def find? (d : Delta) (path : Path) : Option FragmentDelta :=
  d.children.find? (·.fragment.path = path)

/-- The flags of the project and of every child. -/
def allFlags (d : Delta) : DeltaFlags :=
  d.children.foldl (fun flags child => flags ∪ child.flags) d.flags

/-- The line of one element of a delta. -/
def line (name : String) (kind : DeltaKind) (flags : DeltaFlags) : String :=
  name ++ "[" ++ kind.sign.toString ++ "]: \x7b" ++ String.intercalate " | " flags.names ++ "\x7d"

/-- The text of a delta: a line for the project and an indented one for each child. -/
protected def toString (d : Delta) : String :=
  String.intercalate "\n" (line d.project .changed d.flags ::
    d.children.map fun child => "\t" ++ line child.fragment.path.toString child.kind child.flags)

instance : ToString Delta := ⟨Delta.toString⟩

end Delta

end Buildpath
