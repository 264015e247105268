import Buildpath.Text.Blank
import Buildpath.Toml.Parse

/-!
# Settings

The options of a workspace with what single projects override, read from a settings file. Unknown
members and values of the wrong kind are refused; a list in place of a table gives its members in
their order.
-/

namespace Buildpath

/-- How serious a problem is. -/
inductive Severity where
  | error
  | warning
deriving DecidableEq, Repr, Inhabited

/-- The word for a severity. -/
protected def Severity.toString : Severity → String
  | error => "error"
  | warning => "warning"

instance : ToString Severity := ⟨Severity.toString⟩

/-- The options of resolution and problem reporting. -/
structure Options where
  /-- The severity of a cycle of projects. -/
  circular : Severity := .error
  /-- The severity of an entry that cannot be resolved. -/
  incomplete : Severity := .error
  /-- The extensions of library archives, without the dot. -/
  archiveExtensions : List String := ["zip"]
  /-- Whether the libraries that variables and containers contribute chain further ones. -/
  chainsContainers : Bool := true
deriving DecidableEq, Repr, Inhabited

/-- The options that a project sets for itself. -/
structure Overrides where
  circular : Option Severity := none
  incomplete : Option Severity := none
  archiveExtensions : Option (List String) := none
  chainsContainers : Option Bool := none
deriving DecidableEq, Repr, Inhabited

/-- The settings of the log. -/
structure LogSettings where
  level : String := "warn"
  json : Bool := false
  stderr : Bool := true
  file : Option String := none
deriving DecidableEq, Repr, Inhabited

/-- The settings of a workspace; the projects are in the order of the file. -/
structure Settings where
  options : Options := {}
  log : LogSettings := {}
  projects : List (String × Overrides) := []
deriving Inhabited

/-- Whether an extension is that of an archive, in any case of its ASCII letters. -/
def Options.isArchive (o : Options) (extension : String) : Bool :=
  o.archiveExtensions.any fun e =>
    e.toList.map Char.toLower = extension.toList.map Char.toLower

/-- An extension without blanks around it and dots before it, in lower case. -/
def normalizeExtension (extension : String) : String :=
  String.ofList (((Text.trimChars extension.toList).dropWhile (· = '.')).map Char.toLower)

/-- The normal forms of extensions, each once and without the empty one. -/
def normalizeExtensions (extensions : List String) : List String :=
  ((extensions.map normalizeExtension).filter (· ≠ "")).eraseDups

/-- The options of a project: what it sets for itself, else those of the workspace. -/
def Settings.optionsOf (s : Settings) (project : String) : Options :=
  match s.projects.lookup project with
  | none => s.options
  | some o =>
    { circular := o.circular.getD s.options.circular
      incomplete := o.incomplete.getD s.options.incomplete
      archiveExtensions :=
        (o.archiveExtensions.map normalizeExtensions).getD s.options.archiveExtensions
      chainsContainers := o.chainsContainers.getD s.options.chainsContainers }

namespace Settings

open Toml

/-- Whether an item is an empty table or list. -/
def isEmptyItem : Item → Bool
  | .table _ [] | .array [] => true
  | _ => false

/-- The severity of a word. -/
def severityOfWord? (word : String) : Option Severity :=
  [("error", .error), ("warning", .warning), ("warn", .warning)].lookup word

/-- The severity of an item: a word, or a table that holds nothing under the word. -/
def severity? : Item → Option Severity
  | .string word => severityOfWord? word
  | .table _ [(word, item)] => if isEmptyItem item then severityOfWord? word else none
  | _ => none

/-- The flag of an item. -/
def bool? : Item → Option Bool
  | .bool b => some b
  | _ => none

/-- The string of an item. -/
def string? : Item → Option String
  | .string s => some s
  | _ => none

/-- The strings of an item. -/
def strings? : Item → Option (List String)
  | .array items => items.mapM string?
  | _ => none

/-- The members of a table, or the items of a list under the names in their order. Further items of
a list count for nothing. -/
def record? (names : List String) : Item → Option Members
  | .table _ members => if members.all fun m => m.1 ∈ names then some members else none
  | .array items => some (names.zip items)
  | .tables before => some (names.zip (before.reverse.map (Item.table .headed)))
  | _ => none

/-- The value of a member, if it is there; none if it has the wrong kind. -/
def member? {α : Type} (members : Members) (name : String) (read : Item → Option α) :
    Option (Option α) :=
  match members.lookup name with
  | none => some none
  | some item => (read item).map some

/-- The names of the options in their order. -/
def optionNames : List String :=
  ["circular_buildpath", "incomplete_buildpath", "archive_extensions",
    "resolve_referenced_libraries_for_containers"]

/-- The options that an item sets. -/
def overrides? (item : Item) : Option Overrides := do
  let members ← record? optionNames item
  pure {
    circular := ← member? members "circular_buildpath" severity?
    incomplete := ← member? members "incomplete_buildpath" severity?
    archiveExtensions := ← member? members "archive_extensions" strings?
    chainsContainers := ← member? members "resolve_referenced_libraries_for_containers" bool? }

/-- The options of a workspace: those that an item sets, else the usual ones. -/
def options? (item : Item) : Option Options := do
  let o ← overrides? item
  let usual : Options := {}
  pure {
    circular := o.circular.getD usual.circular
    incomplete := o.incomplete.getD usual.incomplete
    archiveExtensions := normalizeExtensions (o.archiveExtensions.getD usual.archiveExtensions)
    chainsContainers := o.chainsContainers.getD usual.chainsContainers }

/-- The settings of the log that an item holds. -/
def log? (item : Item) : Option LogSettings := do
  let members ← record? ["level", "json", "stderr", "file"] item
  let usual : LogSettings := {}
  pure {
    level := (← member? members "level" string?).getD usual.level
    json := (← member? members "json" bool?).getD usual.json
    stderr := (← member? members "stderr" bool?).getD usual.stderr
    file := ← member? members "file" string? }

/-- What the projects of an item set. -/
def projects? : Item → Option (List (String × Overrides))
  | .table _ members => members.mapM fun (name, item) => (overrides? item).map fun o => (name, o)
  | _ => none

/-- The settings of a root table. -/
def ofMembers? (members : Members) : Option Settings := do
  let members ← record? ["buildpath", "logging", "projects"] (.table .headed members)
  pure {
    options := (← member? members "buildpath" options?).getD {}
    log := (← member? members "logging" log?).getD {}
    projects := (← member? members "projects" projects?).getD [] }

/-- The settings of a text. -/
def parse? (text : String) : Option Settings :=
  match Toml.parse text with
  | .ok members => ofMembers? members
  | .error _ => none

end Settings

end Buildpath
