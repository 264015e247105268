import Buildpath.Text.Split

/-!
# Command line arguments

What the tool can be asked to do, and how the words of a command line ask for it. The workspace and the
settings file may be given before the command or after it; what follows the command counts. No option
may be given twice in one place.
-/

namespace Buildpath

/-- What the tool does. -/
inductive Command where
  /-- Prints the resolved buildpath of a project. -/
  | resolve (project : String) (expanded : Bool)
  /-- Prints the fragments of a project, or all those that it sees. -/
  | fragments (project : String) (all : Bool)
  /-- Lists the projects that lead into a cycle. -/
  | cycles
  /-- Reports the problems of every script project. -/
  | check
  /-- Brings project files into their canonical form, or only tells which are in another one. -/
  | format (projects : List String) (checkOnly : Bool)
deriving DecidableEq, Repr, Inhabited

/-- A command with the options around it. -/
structure Invocation where
  command : Command
  /-- The directory of the workspace. -/
  workspace : String
  /-- The settings file. -/
  settings : Option String
  /-- Whether the answer is a machine-readable report. -/
  json : Bool
deriving DecidableEq, Repr, Inhabited

/-- What the words after a command's name may be. -/
structure Grammar where
  name : String
  flags : List String
  /-- The least number of operands. -/
  least : Nat
  /-- The greatest number of operands. -/
  most : Option Nat
deriving DecidableEq, Repr, Inhabited

/-- The commands. -/
def grammars : List Grammar :=
  [⟨"resolve", ["--expanded", "--json"], 1, some 1⟩, ⟨"fragments", ["--all", "--json"], 1, some 1⟩,
    ⟨"cycles", ["--json"], 0, some 0⟩, ⟨"check", ["--json"], 0, some 0⟩,
    ⟨"format", ["--check", "--json"], 0, none⟩]

/-- The options that stand before a command or after it. -/
def valueOptions : List String := ["--workspace", "--config"]

/-- The options that ask for the version; they stand before a command. -/
def versionFlags : List String := ["--version", "-V"]

/-- The words read so far in one place: before the command, or after it. -/
structure ReadWords where
  values : List (String × String) := []
  flags : List String := []
  operands : List String := []
deriving DecidableEq, Repr, Inhabited

namespace ReadWords

/-- Reads the value of an option that was not given yet. -/
def addValue? (r : ReadWords) (name value : String) : Option ReadWords :=
  if (r.values.lookup name).isSome || value.isEmpty then none
  else some { r with values := (name, value) :: r.values }

/-- Reads a flag of a command that was not given yet. -/
def addFlag? (r : ReadWords) (g : Grammar) (name : String) : Option ReadWords :=
  if name ∈ g.flags && name ∉ r.flags then some { r with flags := name :: r.flags } else none

/-- Reads an operand, unless there are enough. -/
def addOperand? (r : ReadWords) (g : Grammar) (word : String) : Option ReadWords :=
  if g.most.any (· ≤ r.operands.length) then none
  else some { r with operands := r.operands ++ [word] }

end ReadWords

/-- Whether a word is an option. A dash alone is none. -/
def isOption (word : String) : Bool := word.toList.head? = some '-' && word ≠ "-"

/-- The name of an option and the value after an equals sign. -/
def splitOption (word : String) : String × Option String :=
  match word.toList.span (· ≠ '=') with
  | (name, _ :: value) => (String.ofList name, some (String.ofList value))
  | (_, []) => (word, none)

/-- Reads the words after a command's name. -/
def readWords? (g : Grammar) (r : ReadWords) : List String → Option ReadWords
  | [] => some r
  | word :: rest =>
    if word = "--" then rest.foldlM (·.addOperand? g) r
    else if isOption word then
      match splitOption word with
      | (name, some value) =>
        if name ∈ valueOptions then (r.addValue? name value).bind (readWords? g · rest) else none
      | (name, none) =>
        if name ∈ valueOptions then
          match rest with
          | [] => none
          | value :: rest =>
            if isOption value then none
            else (r.addValue? name value).bind (readWords? g · rest)
        else (r.addFlag? g name).bind (readWords? g · rest)
    else (r.addOperand? g word).bind (readWords? g · rest)

/-- The command that was read. -/
def ReadWords.command? (r : ReadWords) (g : Grammar) : Option Command :=
  if r.operands.length < g.least then none
  else
    match g.name, r.operands with
    | "resolve", project :: _ => some (.resolve project ("--expanded" ∈ r.flags))
    | "fragments", project :: _ => some (.fragments project ("--all" ∈ r.flags))
    | "cycles", _ => some .cycles
    | "check", _ => some .check
    | "format", projects => some (.format projects ("--check" ∈ r.flags))
    | _, _ => none

/-- What a command line asks for. -/
inductive Request where
  /-- Prints the version of the tool. -/
  | version
  | invoke (invocation : Invocation)
deriving DecidableEq, Repr, Inhabited

/-- The invocation of a command, by the words before its name and those after it. -/
def invocation? (g : Grammar) (before after : ReadWords) : Option Invocation := do
  let command ← after.command? g
  let option (name : String) := (after.values.lookup name).or (before.values.lookup name)
  pure
    { command
      workspace := (option "--workspace").getD "."
      settings := option "--config"
      json := "--json" ∈ after.flags }

/-- Reads the words of a command line, given what was read of the options before the command. -/
def readRequest? (before : ReadWords) : List String → Option Request
  | [] => none
  | word :: rest =>
    if word ∈ versionFlags then some .version
    else if isOption word then
      match splitOption word with
      | (name, some value) =>
        if name ∈ valueOptions then (before.addValue? name value).bind (readRequest? · rest) else none
      | (name, none) =>
        match rest with
        | [] => none
        | value :: rest =>
          if name ∉ valueOptions || isOption value then none
          else (before.addValue? name value).bind (readRequest? · rest)
    else do
      let g ← grammars.find? (·.name = word)
      let after ← readWords? g {} rest
      (invocation? g before after).map .invoke

/-- What the words of a command line ask for. -/
def Request.parse? (words : List String) : Option Request := readRequest? {} words

end Buildpath
