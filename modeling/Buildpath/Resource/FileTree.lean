import Buildpath.Resource.Basic
import Buildpath.Table

/-!
# File trees

A file system as a value: directories and files by their names from the root, with a current
directory. Paths are texts; they are followed name by name, so each directory on the way has to
exist.
-/

namespace Buildpath

/-- A directory, or a file with its contents; both with the time of the last change. -/
inductive FileNode where
  | directory (stamp : Nat)
  | file (contents : ByteArray) (stamp : Nat)
deriving Inhabited

/-- The names from the root to a node. -/
abbrev Place := List String

/-- A file system. The root is always a directory. -/
structure FileTree where
  nodes : Table Place FileNode := .empty
  current : Place := []
  clock : Nat := 0
deriving Inhabited

namespace FileTree

/-- The node at a place. -/
def node? (t : FileTree) (place : Place) : Option FileNode :=
  if place.isEmpty then some (.directory 0) else t.nodes.find? place

/-- Whether a place holds a directory. -/
def isDirectoryAt (t : FileTree) (place : Place) : Bool :=
  match t.node? place with
  | some (.directory _) => true
  | _ => false

/-- The name of a directory in itself. -/
def selfName : String := "."

/-- The names of a path text: those between slashes that are not empty. A slash at the end asks for a
directory. -/
def names (text : String) : List String :=
  let parts := ((Text.splitOn '/' text.toList).map String.ofList).filter (· ≠ "")
  if text.toList.getLast? = some '/' then parts ++ [selfName] else parts

/-- Follows names from a directory. Every directory on the way has to exist; the last name need not.
-/
def follow (t : FileTree) (place : Place) : List String → Except AccessCause Place
  | [] => .ok place
  | name :: rest =>
    match t.node? place with
    | none => .error .notFound
    | some (.file ..) => .error .notADirectory
    | some (.directory _) =>
      if name.utf8ByteSize > 255 then .error .nameTooLong
      else
        follow t
          (if name = selfName then place
            else if name = ".." then place.dropLast
            else place ++ [name])
          rest

/-- The number of bytes that a path text has to stay below. -/
def textLimit : Nat := 4096

/-- The directory that a path text starts from, if the text can be one. -/
def start (t : FileTree) (text : String) : Except AccessCause Place :=
  if '\x00' ∈ text.toList then .error .invalidInput
  else if text.utf8ByteSize ≥ textLimit then .error .nameTooLong
  else .ok (if text.toList.head? = some '/' then [] else t.current)

/-- The place of a path text, absolute or from the current directory. -/
def locate (t : FileTree) (text : String) : Except AccessCause Place := do
  let place ← t.start text
  if text.isEmpty then throw .notFound
  t.follow place (names text)

/-- Makes the directory of a path text the current one; a text that leads to none changes nothing. -/
def enter (t : FileTree) (text : String) : FileTree :=
  match t.locate text with
  | .ok place => if t.isDirectoryAt place then { t with current := place } else t
  | .error _ => t

/-- The node of a path text. -/
def lookup (t : FileTree) (text : String) : Except AccessCause FileNode := do
  let place ← t.locate text
  match t.node? place with
  | some n => pure n
  | none => throw .notFound

/-- Whether a path text leads to a directory. -/
def isDirectory (t : FileTree) (text : String) : Bool :=
  match t.lookup text with
  | .ok (.directory _) => true
  | _ => false

/-- Whether a path text leads to a file. -/
def isFile (t : FileTree) (text : String) : Bool :=
  match t.lookup text with
  | .ok (.file ..) => true
  | _ => false

/-- What a path text leads to. -/
def kind? (t : FileTree) (text : String) : Option ResourceKind :=
  match t.lookup text with
  | .ok (.directory _) => some .folder
  | .ok (.file ..) => some .file
  | .error _ => none

/-- The contents of a file. -/
def read (t : FileTree) (text : String) : Except AccessCause ByteArray := do
  match ← t.lookup text with
  | .file contents _ => pure contents
  | .directory _ => throw .isADirectory

/-- The time of the last change of a node. -/
def stamp? (t : FileTree) (text : String) : Option Nat :=
  match t.lookup text with
  | .ok (.directory stamp) | .ok (.file _ stamp) => some stamp
  | .error _ => none

/-- The names in a directory. -/
def list (t : FileTree) (text : String) : Except AccessCause (List String) := do
  let place ← t.locate text
  match t.node? place with
  | none => throw .notFound
  | some (.file ..) => throw .notADirectory
  | some (.directory _) =>
    pure ((t.nodes.keys.filter fun p => p.dropLast = place && p ≠ []).filterMap List.getLast?)

/-- Marks the directory above a place as changed. -/
def touchParent (t : FileTree) (place : Place) : FileTree :=
  if place.dropLast.isEmpty then t
  else { t with nodes := t.nodes.insert place.dropLast (.directory t.clock) }

/-- Puts a node at a place whose directory exists. -/
def put (t : FileTree) (place : Place) (make : Nat → FileNode) : FileTree :=
  let t := { t with clock := t.clock + 1 }
  let t := if (t.node? place).isSome then t else t.touchParent place
  { t with nodes := t.nodes.insert place (make t.clock) }

/-- Makes the directories on the way along some names, as far as they are missing. -/
def makeDirectories (t : FileTree) (place : Place) : List String → Except AccessCause FileTree
  | [] => .ok t
  | name :: rest => do
    let next ← t.follow place [name]
    match t.node? next with
    | some (.directory _) => t.makeDirectories next rest
    | some (.file ..) => throw (if rest.isEmpty then .alreadyExists else .notADirectory)
    | none => (t.put next .directory).makeDirectories next rest

/-- Makes the directory of a path text with those above it. -/
def makeDirectory (t : FileTree) (text : String) : Except AccessCause FileTree := do
  let place ← t.start text
  t.makeDirectories place (names text)

/-- Writes a file whose directory exists. -/
def write (t : FileTree) (text : String) (contents : ByteArray) : Except AccessCause FileTree := do
  let place ← t.locate text
  match t.node? place with
  | some (.directory _) => throw .isADirectory
  | _ => pure (t.put place (.file contents))

end FileTree

end Buildpath
