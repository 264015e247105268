import Buildpath.Archive.Zip
import Buildpath.Library.Manifest
import Buildpath.Resource.Workspace

/-!
# Chained libraries

The libraries that a library names in its manifest, with those that they name in turn. A reference is
relative to the folder of the library that holds it, and stays on its side: references of an external
library are external. Each library is followed once, and missing ones are skipped.
-/

namespace Buildpath

/-- A library that another one refers to. -/
structure ChainedLibrary where
  path : Path
  external : Bool
deriving DecidableEq, Repr, Inhabited

namespace Workspace

/-- The kind of a resource, outside or in the workspace. -/
def kindOn? (w : Workspace) (external : Bool) (path : Path) : Option ResourceKind :=
  if external then w.externalKind? path else w.kind? path

/-- The contents of a file, outside or in the workspace. -/
def readOn? (w : Workspace) (external : Bool) (path : Path) : Option ByteArray :=
  (if external then w.readExternal path else w.read path).toOption

/-- The manifest of a library: a file in a folder, or a member of an archive. -/
def manifest? (w : Workspace) (external : Bool) (library : Path) : Option String := do
  let kind ← w.kindOn? external library
  let bytes ←
    if kind.isContainer then w.readOn? external (library.appendText Manifest.memberName)
    else do Archive.read? (← w.readOn? external library) Manifest.memberName
  String.fromUTF8? bytes

/-- The paths that a library refers to. -/
def libraryReferences (w : Workspace) (external : Bool) (library : Path) : List Path :=
  match (w.manifest? external library).bind (Manifest.mainAttribute? · Manifest.referencesHeader),
      library.parent? with
  | some value, some folder => (Text.words value).map folder.appendText
  | _, _ => []

/-- The paths met so far, those of missing libraries too, and the libraries found. -/
structure ChainWalk where
  visited : List Path
  found : List ChainedLibrary := []
deriving Inhabited

/-- Follows the references of a library, depth first. Each step down finds a library that was not
found before, so `depth` need not exceed the number of the resources by more than one. -/
def followReferences (w : Workspace) (external : Bool) : Nat → Path → ChainWalk → ChainWalk
  | 0, _, walk => walk
  | depth + 1, library, walk =>
    (w.libraryReferences external library).foldl
      (fun walk target =>
        if target ∈ walk.visited then walk
        else
          let walk := { walk with visited := target :: walk.visited }
          if (w.kindOn? external target).isSome then
            w.followReferences external depth target
              { walk with found := walk.found ++ [⟨target, external⟩] }
          else walk)
      walk

/-- The libraries chained from a library, each before those that it refers to. -/
def chainedLibraries (w : Workspace) (library : Path) (external : Bool) : List ChainedLibrary :=
  (w.followReferences external (w.pathBound + 1) library { visited := [library] }).found

end Workspace

end Buildpath
