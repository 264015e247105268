import Buildpath.Settings

/-!
# Log filters

Which messages the log takes: a level for all of them or for those of a target. The configured level
comes first and that of the environment last; a later directive replaces an earlier one of the same
target.
-/

namespace Buildpath

/-- How much the log takes. -/
inductive LogLevel where
  | off
  | error
  | warn
  | info
  | debug
  | trace
deriving DecidableEq, Repr, Inhabited

namespace LogLevel

/-- Every level, from the fewest messages to the most. -/
def all : List LogLevel := [off, error, warn, info, debug, trace]

/-- The word for a level. -/
protected def toString : LogLevel → String
  | off => "off"
  | error => "error"
  | warn => "warn"
  | info => "info"
  | debug => "debug"
  | trace => "trace"

/-- The level of a word in any case, or of its place among the levels. -/
def parse? (text : List Char) : Option LogLevel :=
  let digits := if text.head? = some '+' then text.tail else text
  if !digits.isEmpty && digits.all Char.isDigit then
    (Xml.number? 10 digits).bind fun n => all[n]?
  else all.find? fun level => level.toString.toList = text.map Char.toLower

end LogLevel

/-- One rule of a filter: a level for one target or for all. -/
structure Directive where
  target : Option (List Char)
  level : LogLevel
deriving DecidableEq, Repr, Inhabited

namespace Directive

/-- The text of a directive. -/
protected def toString (d : Directive) : String :=
  match d.target with
  | none => d.level.toString
  | some target => String.ofList target ++ "=" ++ d.level.toString

/-- Whether a target may start with a character; every character outside ASCII counts as a letter. -/
def isTargetStart (c : Char) : Bool :=
  c.isAlphanum || c = '-' || c = ':' || c = '_' || c.toNat ≥ 0x80

/-- The directive of a text without a comma: a level, a target or both. Places are counted from the
first character that is not blank but taken in the whole text. Directives for spans are not read. -/
def parse? (text : List Char) : Option Directive :=
  let trimmed := Text.trimChars text
  if !trimmed.head?.any isTargetStart || trimmed.any (· = '[') then none
  else
    match trimmed.findIdx? (· = '=') with
    | some place =>
      let level := text.drop (place + 1)
      (if level.isEmpty then some .trace else LogLevel.parse? level).map
        fun level => ⟨some (text.take place), level⟩
    | none =>
      match LogLevel.parse? text with
      | some level => some ⟨none, level⟩
      | none => some ⟨some text, .trace⟩

/-- Whether `a` comes before `b`: longer targets first, then the later one in the order of texts. -/
def precedes (a b : Directive) : Bool :=
  let size := fun (d : Directive) => d.target.map fun t => (String.ofList t).utf8ByteSize
  let order := (compare (size a) (size b)).then
    (compare (a.target.map String.ofList) (b.target.map String.ofList))
  order = .gt

/-- Puts a directive in its place, instead of one of the same target. -/
def insert (d : Directive) : List Directive → List Directive
  | [] => [d]
  | e :: es =>
    if e.target = d.target then d :: es
    else if d.precedes e then d :: e :: es
    else e :: insert d es

end Directive

namespace LogFilter

/-- The directives of a text, in their order of precedence. A text without any takes errors. -/
def parse? (text : String) : Option (List Directive) := do
  let parts := (Text.splitOn ',' text.toList).filter (· ≠ [])
  let directives ← parts.mapM Directive.parse?
  if directives.isEmpty then pure [⟨none, .error⟩]
  else pure (directives.foldl (fun all d => d.insert all) [])

/-- The text of some directives. -/
def render (directives : List Directive) : String :=
  String.intercalate "," (directives.map Directive.toString)

/-- The directives of a configured level: a plain word in any case, or directives as they are. -/
def levelDirectives (level : String) : String :=
  let trimmed := Text.trim level
  let word := String.ofList (trimmed.toList.map Char.toLower)
  if trimmed = "" then "warn"
  else if word = "warning" then "warn"
  else if word ∈ ["trace", "debug", "info", "warn", "error"] then word
  else trimmed

/-- The filter of a configured level by itself; one that cannot be read takes warnings. -/
def ofLevel (level : String) : List Directive :=
  (parse? (levelDirectives level)).getD [⟨none, .warn⟩]

/-- The filter of a configured level with the directives of the environment on top. -/
def effective (level : String) (environment : Option String) : List Directive :=
  match (environment.map Text.trim).filter (· ≠ "") with
  | none => ofLevel level
  | some directives =>
    match parse? (levelDirectives level ++ "," ++ directives) with
    | some filter => filter
    | none => (parse? directives).getD (ofLevel level)

end LogFilter

end Buildpath
