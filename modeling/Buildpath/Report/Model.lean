import Buildpath.Model.Operations
import Buildpath.Report.JsonValue

/-!
# Reports of a model

The machine-readable reports of what a model holds and answers: problems and markers, containers,
fragments, resolutions, deltas and requests to the indexer.
-/

namespace Buildpath

open JsonValue

/-- The report of a path. -/
def Path.toJsonValue (p : Path) : JsonValue := string p.toString

namespace JsonValue

/-- A value, or null. -/
def orNull (value : Option JsonValue) : JsonValue := value.getD null

/-- A list of values. -/
def list {α : Type} (report : α → JsonValue) (items : List α) : JsonValue := array (items.map report)

/-- The records of a table in the order of their paths, each as a pair. -/
def records {α : Type} (report : α → JsonValue) (t : Table Path α) : JsonValue :=
  array ((t.records.mergeSort fun a b => a.1.le b.1).map fun (p, a) =>
    array [p.toJsonValue, report a])

end JsonValue

/-- The members of the report of a path with its parts. -/
def Path.reportMembers (p : Path) : List (String × JsonValue) :=
  [("text", p.toJsonValue), ("device", orNull (p.device.map string)), ("absolute", bool p.absolute),
    ("empty", bool p.isEmpty), ("root", bool p.isRoot), ("segments", strings p.segments)]

/-- The report of a walk along project entries. -/
def CycleWalk.toJsonValue (w : CycleWalk) : JsonValue :=
  let sorted (names : List String) := strings (names.mergeSort (· ≤ ·))
  object [("chain", strings w.chain), ("participants", sorted w.participants),
    ("traversed", sorted w.traversed)]

/-- The report of a problem. -/
def Status.toJsonValue (s : Status) : JsonValue :=
  object [("code", string s.code), ("message", string s.message),
    ("path", orNull (s.path?.map Path.toJsonValue)), ("unbound", bool s.isUnbound)]

/-- The report of a marker. -/
def Marker.toJsonValue (m : Marker) : JsonValue :=
  object [("project", string m.project), ("severity", string m.severity.toString),
    ("message", string m.message), ("code", string m.code), ("arguments", strings m.arguments),
    ("cycle_detected", bool m.isCycle), ("buildpath_file_format", bool m.isFileFormat)]

/-- The report of a container. -/
def Container.toJsonValue (c : Container) : JsonValue :=
  object [("path", c.path.toJsonValue), ("kind", string c.kind.reportWord),
    ("description", string c.description), ("entries", list Entry.toJsonValue c.entries)]

/-- The report of a fragment with its text and its identity. -/
def Fragment.toDetailedJsonValue (f : Fragment) : JsonValue :=
  object [("fragment", f.toJsonValue), ("display", string f.toString), ("root_id", string f.rootId),
    ("archive", bool f.isArchive)]

/-- The report of the fragments that a project sees. -/
def VisibleRoots.toJsonValue (r : VisibleRoots) : JsonValue :=
  object [("fragments", list Fragment.toDetailedJsonValue r.fragments),
    ("reverse", records Entry.toJsonValue r.entryOf)]

/-- The report of a resolution. -/
def Resolved.toJsonValue (r : Resolved) : JsonValue :=
  let line (e : Entry) := string e.toString
  object [("entries", list Entry.toJsonValue r.entries), ("ok", bool r.isOk),
    ("in_progress", bool r.inProgress),
    ("unresolved", orNull (r.unresolved.map Status.toJsonValue)), ("raw_of", records line r.rawOf),
    ("roots", records line r.roots)]

/-- The report of an element of a delta. -/
def deltaElement (element : JsonValue) (kind : DeltaKind) (flags : DeltaFlags)
    (children : List JsonValue) : JsonValue :=
  object [("element", element), ("kind", string kind.reportWord), ("flags", strings flags.names),
    ("children", array children)]

/-- The report of what happened to a fragment. -/
def FragmentDelta.toJsonValue (d : FragmentDelta) : JsonValue :=
  deltaElement (object [("fragment", d.fragment.toJsonValue)]) d.kind d.flags []

/-- The report of a delta. -/
def Delta.toJsonValue (d : Delta) : JsonValue :=
  deltaElement (object [("project", string d.project)]) .changed d.flags
    (d.children.map FragmentDelta.toJsonValue)

/-- The report of what a change comes to. -/
def GeneratedDelta.toJsonValue (g : GeneratedDelta) : JsonValue :=
  object [("project", string g.project), ("flags", strings g.flags.names),
    ("has_delta", bool g.hasDelta), ("empty", bool g.delta.isEmpty),
    ("all_flags", strings g.delta.allFlags.names), ("delta", g.delta.toJsonValue),
    ("text", string g.delta.toString)]

/-- The report of a request to the indexer. -/
def IndexRequest.toJsonValue : IndexRequest → JsonValue
  | indexFragment project path => strings ["IndexFragment", project, path.toString]
  | indexLibrary project path => strings ["IndexLibrary", project, path.toString]
  | removeSourceFolder project path => strings ["RemoveSourceFolder", project, path.toString]
  | removeIndex path => strings ["RemoveIndex", path.toString]
  | discardJobs path => strings ["DiscardJobs", path.toString]

/-- The report of options, each of which may be left open. -/
def Overrides.toJsonValue (o : Overrides) : JsonValue :=
  object [("circular_buildpath", orNull (o.circular.map fun s => string s.toString)),
    ("incomplete_buildpath", orNull (o.incomplete.map fun s => string s.toString)),
    ("archive_extensions", orNull (o.archiveExtensions.map strings)),
    ("resolve_referenced_libraries_for_containers", orNull (o.chainsContainers.map bool))]

/-- The report of options. -/
def Options.toJsonValue (o : Options) : JsonValue :=
  Overrides.toJsonValue
    ⟨some o.circular, some o.incomplete, some o.archiveExtensions, some o.chainsContainers⟩

/-- The report of the settings of the log. -/
def LogSettings.toJsonValue (log : LogSettings) : JsonValue :=
  object [("level", string log.level), ("json", bool log.json), ("stderr", bool log.stderr),
    ("file", orNull (log.file.map string))]

/-- The report of settings. -/
def Settings.toJsonValue (s : Settings) : JsonValue :=
  object [("buildpath", s.options.toJsonValue), ("logging", s.log.toJsonValue),
    ("projects", object (s.projects.map fun (name, o) => (name, o.toJsonValue)))]

/-- The report of an event. -/
def Event.toJsonValue : Event → JsonValue
  | delivered _ delta flags =>
    array [string "delta", string delta.toString, strings flags.names]
  | noted value => value

end Buildpath
