import Buildpath.Document.Decode
import Buildpath.Document.Encode
import Buildpath.Resource.Workspace
import Buildpath.Status
import Buildpath.Text.Utf8

/-!
# Project files

The file of a project that holds its raw buildpath. A project whose file is missing or cannot be used
has its own folder as its only source folder.
-/

namespace Buildpath

/-- The path of a project. -/
def projectPath (project : String) : Path := Path.root.appendText project

/-- The path of a project file. -/
def projectFilePath (project : String) : Path := (projectPath project).appendText ".buildpath"

/-- The buildpath of a project without a usable file. -/
def defaultBuildpath (path : Path) : List Entry := [Entry.source path]

/-- What a project file holds. -/
inductive ProjectFile where
  | missing
  | invalid (problem : Status)
  | valid (document : Document)
deriving Inhabited

namespace ProjectFile

/-- The entries of a project with this file. -/
def entries (path : Path) : ProjectFile → List Entry
  | valid document => document.entries
  | missing | invalid _ => defaultBuildpath path

/-- The foreign content to keep. -/
def foreign : ProjectFile → Foreign
  | valid document => document.foreign
  | missing | invalid _ => {}

/-- Why the file cannot be used. -/
def problem? : ProjectFile → Option Status
  | invalid problem => some problem
  | missing | valid _ => none

/-- What the bytes of a file hold. -/
def ofBytes (project : String) (bytes : ByteArray) : ProjectFile :=
  match Text.decodeUtf8 bytes with
  | .error fault => invalid (.invalidFile project fault.message)
  | .ok text =>
    match Document.decode (projectPath project) text with
    | .error error => invalid (.invalidFile project error.message)
    | .ok document => valid document

/-- Reads the file of a project. -/
def load (w : Workspace) (project : String) : ProjectFile :=
  let path := projectFilePath project
  if !w.hasResource path then missing
  else
    match w.read path with
    | .error error => invalid (.inaccessible path.toString error.message)
    | .ok bytes => ofBytes project bytes

/-- Whether a file holds exactly some entries. -/
def holds (entries : List Entry) : ProjectFile → Bool
  | valid document => document.entries = entries
  | missing | invalid _ => false

/-- Writes the file of a project, unless it holds the entries already, and tells whether it was
written. Foreign content stays. -/
def save (w : Workspace) (project : String) (entries : List Entry) :
    Except Failure (Bool × Workspace) :=
  let current := load w project
  if current.holds entries then .ok (false, w)
  else
    let path := projectFilePath project
    let text := Document.encode (projectPath project) { entries, foreign := current.foreign }
    match w.write path text.toUTF8 with
    | .error error => .error (.access path.toString error)
    | .ok w => .ok (true, w)

end ProjectFile

end Buildpath
