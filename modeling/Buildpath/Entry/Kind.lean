/-!
# Entry kinds

The five kinds of buildpath entries with the words that stand for them in project files and reports.
-/

namespace Buildpath

/-- What an entry contributes. -/
inductive EntryKind where
  /-- A source folder of the project. -/
  | source
  /-- A library folder or archive. -/
  | library
  /-- Another project. -/
  | project
  /-- A path that starts with a variable. -/
  | variableRef
  /-- A named container of further entries. -/
  | container
deriving DecidableEq, Repr, Inhabited

namespace EntryKind

/-- The word for a kind in a project file. -/
def fileWord : EntryKind → String
  | source => "src"
  | library => "lib"
  | project => "prj"
  | variableRef => "var"
  | container => "con"

/-- The word for a kind in a report. -/
def reportWord : EntryKind → String
  | source => "source"
  | library => "library"
  | project => "project"
  | variableRef => "variable"
  | container => "container"

/-- Every kind once. -/
def all : List EntryKind := [source, library, project, variableRef, container]

/-- The kind that a word of a project file stands for. -/
def ofFileWord? (word : String) : Option EntryKind := all.find? fun kind => kind.fileWord = word

/-- The kind that a word of a report stands for. -/
def ofReportWord? (word : String) : Option EntryKind := all.find? fun kind => kind.reportWord = word

/-- Reading the word of a kind gives the kind. -/
theorem ofFileWord?_fileWord (kind : EntryKind) : ofFileWord? kind.fileWord = some kind := by
  cases kind <;> rfl

/-- A word that names a kind is the word of that kind. -/
theorem fileWord_of_ofFileWord? {word : String} {kind : EntryKind}
    (h : ofFileWord? word = some kind) : kind.fileWord = word := by
  simpa using List.find?_some h

end EntryKind

end Buildpath
