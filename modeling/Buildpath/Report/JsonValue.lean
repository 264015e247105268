import Buildpath.Fragment
import Buildpath.Text.Escaped

/-!
# Reports as JSON

The values of machine-readable reports, with members in a fixed order, and their indented text.
-/

namespace Buildpath

/-- A value of a report. -/
inductive JsonValue where
  | null
  | bool (b : Bool)
  | number (n : Nat)
  | string (s : String)
  | array (items : List JsonValue)
  | object (members : List (String × JsonValue))
deriving Inhabited

namespace JsonValue

/-- The written form of one character of a string: quotes, backslashes and control characters are
escaped. -/
def escapeChar (c : Char) : List Char :=
  if c = '"' then ['\\', '"']
  else if c = '\\' then ['\\', '\\']
  else if c = '\n' then ['\\', 'n']
  else if c = '\r' then ['\\', 'r']
  else if c = '\t' then ['\\', 't']
  else if c = '\x08' then ['\\', 'b']
  else if c = '\x0c' then ['\\', 'f']
  else if c.toNat < 0x20 then
    let digits := Text.hexDigits c.toNat
    ['\\', 'u'] ++ List.replicate (4 - digits.length) '0' ++ digits
  else [c]

/-- The written form of a string. -/
def quote (s : String) : String := String.ofList ('"' :: s.toList.flatMap escapeChar ++ ['"'])

/-- Items in brackets, one a line, or the brackets alone if there are none. -/
def bracket (opening closing indent : String) (items : List String) : String :=
  if items.isEmpty then opening ++ closing
  else
    opening ++ "\n" ++ indent ++ "  " ++ String.intercalate (",\n" ++ indent ++ "  ") items ++
      "\n" ++ indent ++ closing

mutual

/-- The text of a value whose line is indented by `indent`. -/
def render (indent : String) : JsonValue → String
  | null => "null"
  | bool b => if b then "true" else "false"
  | number n => toString n
  | string s => quote s
  | array items => bracket "[" "]" indent (renderItems (indent ++ "  ") items)
  | object members => bracket "\x7b" "\x7d" indent (renderMembers (indent ++ "  ") members)

/-- The texts of the items of an array. -/
def renderItems (indent : String) : List JsonValue → List String
  | [] => []
  | item :: items => item.render indent :: renderItems indent items

/-- The texts of the members of an object. -/
def renderMembers (indent : String) : List (String × JsonValue) → List String
  | [] => []
  | (name, value) :: members =>
    (quote name ++ ": " ++ value.render indent) :: renderMembers indent members

end

/-- The text of a report. -/
def pretty (j : JsonValue) : String := j.render ""

/-- An array of strings. -/
def strings (items : List String) : JsonValue := array (items.map string)

/-- A member that is left out if there is nothing to say. -/
def optional (name : String) (value : Option JsonValue) : List (String × JsonValue) :=
  value.toList.map fun v => (name, v)

/-- A flag that is left out if it is not set. -/
def flag (name : String) (isSet : Bool) : List (String × JsonValue) :=
  if isSet then [(name, bool true)] else []

/-- A list that is left out if it is empty. -/
def listed (name : String) (items : List JsonValue) : List (String × JsonValue) :=
  if items.isEmpty then [] else [(name, array items)]

end JsonValue

/-- The report of an attribute. -/
def Attribute.toJsonValue (a : Attribute) : JsonValue :=
  .object [("name", .string a.name), ("value", .string a.value)]

/-- The report of an entry: what is at its default is left out. -/
def Entry.toJsonValue (e : Entry) : JsonValue :=
  .object ([("kind", .string e.kind.reportWord), ("path", .string e.path.toString)] ++
    JsonValue.flag "exported" e.exported ++ JsonValue.flag "external" e.external ++
    JsonValue.listed "inclusion_patterns" (e.inclusions.map .string) ++
    JsonValue.listed "exclusion_patterns" (e.exclusions.map .string) ++
    JsonValue.listed "extra_attributes" (e.attributes.map Attribute.toJsonValue) ++
    JsonValue.optional "source_attachment_path" (e.attachmentPath.map fun p => .string p.toString) ++
    JsonValue.optional "source_attachment_root" (e.attachmentRoot.map fun p => .string p.toString))

/-- The report of a fragment. -/
def Fragment.toJsonValue (f : Fragment) : JsonValue :=
  .object [("project", .string f.project), ("path", .string f.path.toString),
    ("kind", .string f.kind.reportWord)]

end Buildpath
