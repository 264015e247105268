import Buildpath.Settings
import Buildpath.Status
import Buildpath.Table

/-!
# Markers

The problems that are shown at projects. A problem is shown once; a marker for a cycle and one for an
unreadable project file are told apart from the others, so that each kind can be removed by itself.
-/

namespace Buildpath

/-- A problem at a project. -/
structure Marker where
  project : String
  severity : Severity
  message : String
  code : String
  arguments : List String
  /-- The project leads into a cycle. -/
  isCycle : Bool
  /-- The project file cannot be read. -/
  isFileFormat : Bool
deriving DecidableEq, Repr, Inhabited

namespace Marker

/-- The marker for a problem. How severe a problem is depends on the options, but an unreadable file
is always an error. -/
def ofStatus (project : String) (status : Status) (options : Options) : Marker :=
  let base : Marker :=
    { project, severity := options.incomplete, message := status.message, code := status.code
      arguments := [], isCycle := false, isFileFormat := false }
  match status with
  | .cycle _ => { base with severity := options.circular, isCycle := true }
  | .invalidFile .. => { base with severity := .error, isFileFormat := true }
  | _ => { base with arguments := status.path?.toList.map Path.toString }

/-- Whether two markers are about one problem. -/
def isSameProblem (a b : Marker) : Bool :=
  a.isCycle = b.isCycle && a.isFileFormat = b.isFileFormat && a.message = b.message &&
    a.arguments = b.arguments

end Marker

/-- The markers of each project that has any, in the order in which they were added. -/
structure MarkerStore where
  byProject : Table String (List Marker) := .empty
deriving Inhabited

namespace MarkerStore

/-- The markers of a project. -/
def markers (s : MarkerStore) (project : String) : List Marker :=
  (s.byProject.find? project).getD []

/-- The projects with markers, in ascending order. -/
def projects (s : MarkerStore) : List String := s.byProject.keys.mergeSort (· ≤ ·)

/-- The markers of all projects, project by project. -/
def all (s : MarkerStore) : List Marker := s.projects.flatMap s.markers

/-- Replaces the markers of a project. -/
def setMarkers (s : MarkerStore) (project : String) (markers : List Marker) : MarkerStore :=
  if markers.isEmpty then ⟨s.byProject.erase project⟩ else ⟨s.byProject.insert project markers⟩

/-- Shows a problem at a project, unless it is shown there. -/
def create (s : MarkerStore) (project : String) (status : Status) (options : Options) :
    MarkerStore :=
  let marker := Marker.ofStatus project status options
  if (s.markers project).any (·.isSameProblem marker) then s
  else s.setMarkers project (s.markers project ++ [marker])

/-- Whether a flush of cycle markers, of file format markers, of both or of neither removes a marker.
A flush of both removes every marker. -/
def isFlushed (cycles formats : Bool) (marker : Marker) : Bool :=
  (cycles && formats) || (marker.isCycle = cycles && marker.isFileFormat = formats)

/-- Removes markers of a project. -/
def flush (s : MarkerStore) (project : String) (cycles formats : Bool) : MarkerStore :=
  s.setMarkers project ((s.markers project).filter fun marker => !isFlushed cycles formats marker)

/-- Gives the cycle markers of a project a severity. -/
def setCycleSeverity (s : MarkerStore) (project : String) (severity : Severity) : MarkerStore :=
  s.setMarkers project
    ((s.markers project).map fun marker =>
      if marker.isCycle then { marker with severity } else marker)

/-- Shows the cycle at a project that takes part in one. -/
def showCycle (s : MarkerStore) (project : String) (options : Options) : MarkerStore :=
  let s := s.setCycleSeverity project options.circular
  if (s.markers project).any (·.isCycle) then s else s.create project (.cycle project) options

/-- Brings the cycle markers of some projects in line with the projects that take part in cycles. -/
def validateCycles (s : MarkerStore) (projects participants : List String)
    (optionsOf : String → Options) : MarkerStore :=
  projects.foldl
    (fun s project =>
      if project ∈ participants then s.showCycle project (optionsOf project)
      else s.flush project true false)
    s

end MarkerStore

end Buildpath
