import Buildpath.Report.Model

/-!
# Reports of commands

What a command reports, as lines of text and as a machine-readable report, and with which status the
tool ends.
-/

namespace Buildpath

open JsonValue

/-- What a command reports. -/
inductive CommandReport where
  | resolution (project : String) (entries : List Entry) (unresolved : Option Status)
  | fragments (project : String) (fragments : List Fragment)
  | cycles (participants : List String)
  | problems (markers : List Marker)
  /-- The projects whose files were not in canonical form, and those whose files were. -/
  | formatted (checkOnly : Bool) (changed unchanged : List String)
deriving Inhabited

/-- The number of errors among some markers. -/
def errorCount (markers : List Marker) : Nat :=
  (markers.filter fun marker => marker.severity = .error).length

namespace CommandReport

/-- The status with which the tool ends: one if there is something to mend. -/
def exitStatus : CommandReport → Nat
  | resolution _ _ unresolved => if unresolved.isSome then 1 else 0
  | fragments .. => 0
  | cycles participants => if participants.isEmpty then 0 else 1
  | problems markers => if errorCount markers > 0 then 1 else 0
  | formatted checkOnly changed _ => if checkOnly && !changed.isEmpty then 1 else 0

/-- The line for a marker. -/
def markerLine (m : Marker) : String :=
  m.project ++ ": " ++ m.severity.toString ++ "[" ++ m.code ++ "] " ++ m.message

/-- The line that counts problems. -/
def summaryLine (errors warnings : Nat) : String :=
  "summary: " ++ toString errors ++ " errors, " ++ toString warnings ++ " warnings"

/-- The report as lines of text. -/
def lines : CommandReport → List String
  | resolution _ entries unresolved =>
    entries.map Entry.toString ++ unresolved.toList.map fun s => "unresolved: " ++ s.message
  | fragments _ fs => fs.map Fragment.toString
  | cycles participants =>
    if participants.isEmpty then ["no buildpath cycles"]
    else participants.map fun project => "cycle: " ++ project
  | problems markers =>
    let errors := errorCount markers
    markers.map markerLine ++ [summaryLine errors (markers.length - errors)]
  | formatted checkOnly changed unchanged =>
    let label := if checkOnly then "not formatted: " else "formatted: "
    changed.map (label ++ ·) ++ unchanged.map ("unchanged: " ++ ·)

/-- The machine-readable report. -/
def toJsonValue : CommandReport → JsonValue
  | resolution project entries unresolved =>
    object ([("project", string project), ("entries", list Entry.toJsonValue entries)] ++
      optional "unresolved" (unresolved.map fun s => string s.message))
  | fragments project fs =>
    object [("project", string project), ("fragments", list Fragment.toJsonValue fs)]
  | cycles participants => object [("participants", strings participants)]
  | problems markers =>
    let errors := errorCount markers
    object [("markers", list Marker.toJsonValue markers),
      ("summary", object [("errors", number errors), ("warnings", number (markers.length - errors))])]
  | formatted _ changed unchanged =>
    object [("changed", strings changed), ("unchanged", strings unchanged)]

/-- What is printed: every line ends with a line feed. -/
def print (r : CommandReport) (json : Bool) : String :=
  String.join ((if json then [r.toJsonValue.pretty] else r.lines).map (· ++ "\n"))

end CommandReport

end Buildpath
