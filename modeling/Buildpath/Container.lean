import Buildpath.Entry.Basic

/-!
# Containers

Named lists of entries that stand behind the container entries of a project.
-/

namespace Buildpath

/-- Where the libraries of a container come from. -/
inductive ContainerKind where
  /-- The application or a framework. -/
  | application
  /-- The interpreter of the project. -/
  | system
  /-- The interpreter that the workspace uses by default. -/
  | defaultSystem
deriving DecidableEq, Repr, Inhabited

namespace ContainerKind

/-- The word for a kind in a report. -/
def reportWord : ContainerKind → String
  | application => "application"
  | system => "system"
  | defaultSystem => "default-system"

/-- The kind that a word of a report stands for. -/
def ofReportWord? (word : String) : Option ContainerKind :=
  [application, system, defaultSystem].find? fun kind => kind.reportWord = word

end ContainerKind

/-- A named list of entries. -/
structure Container where
  path : Path
  description : String
  kind : ContainerKind
  entries : List Entry
deriving DecidableEq, Repr, Inhabited

namespace Container

/-- A container that is described by its path. -/
def ofEntries (path : Path) (kind : ContainerKind) (entries : List Entry) : Container :=
  ⟨path, path.toString, kind, entries⟩

/-- What stands for a container while it is being made. -/
def placeholder (path : Path) : Container := ofEntries path .application []

end Container

end Buildpath
