import Buildpath.Document.Basic
import Buildpath.Report.JsonValue

/-!
# Reports of documents

The machine-readable report of what a project file holds.
-/

namespace Buildpath

open JsonValue

/-- The report of the foreign content of an entry. -/
def ForeignContent.toJsonValue (f : ForeignContent) : JsonValue :=
  object [("attributes", array (f.attributes.map fun (name, value) => strings [name, value])),
    ("children", strings f.children)]

/-- The members of the report of a document. -/
def Document.reportMembers (d : Document) : List (String × JsonValue) :=
  let foreignOf (e : Entry) := d.foreign.entries.find? e.path
  [("entries", array (d.entries.map Entry.toJsonValue)),
    ("unknown", array (d.entries.map fun e =>
      ((foreignOf e).map ForeignContent.toJsonValue).getD null)),
    ("unknown_empty", bool d.foreign.isEmpty),
    ("top_level", strings (d.foreign.topLevel.map Prod.snd))]

end Buildpath
