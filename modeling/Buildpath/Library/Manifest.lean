import Buildpath.Text.Blank
import Buildpath.Text.Split

/-!
# Manifests

The headers of the main section of a library's manifest. A header is a name, a colon and a value;
lines that start with a space continue the value. The section ends at the first empty line.
-/

namespace Buildpath.Manifest

/-- A header that is being read: its name and the value so far. -/
structure Header where
  name : List Char
  value : List Char
deriving DecidableEq, Repr, Inhabited

/-- The lines of a text, without the carriage returns at their ends. -/
def linesOf (text : List Char) : List (List Char) :=
  (Text.splitOn '\n' text).map fun line => (line.reverse.dropWhile (· = '\r')).reverse

/-- The text before the first colon and the text after it. -/
def splitHeader? (line : List Char) : Option Header :=
  match line.span (· ≠ ':') with
  | (name, _ :: value) => some ⟨name, Text.trimLeft value⟩
  | (_, []) => none

/-- The value of a header that has the name, without regard to the case of ASCII letters. -/
def Header.valueFor? (h : Header) (name : List Char) : Option (List Char) :=
  if (Text.trimChars h.name).map Char.toLower = name.map Char.toLower then
    some (Text.trimChars h.value)
  else none

/-- The value of the first header of a name, where `open?` is the header that the lines may
continue. -/
def valueFrom? (name : List Char) (open? : Option Header) : List (List Char) → Option (List Char)
  | [] => open?.bind (·.valueFor? name)
  | [] :: _ => open?.bind (·.valueFor? name)
  | (' ' :: more) :: lines =>
    valueFrom? name (open?.map fun h => { h with value := h.value ++ more }) lines
  | line :: lines =>
    match open?.bind (·.valueFor? name) with
    | some value => some value
    | none => valueFrom? name (splitHeader? line) lines

/-- The value of a header of the main section. -/
def mainAttribute? (text name : String) : Option String :=
  (valueFrom? name.toList none (linesOf text.toList)).map String.ofList

/-- Where a library keeps its manifest. -/
def memberName : String := "META-INF/MANIFEST.MF"

/-- The header that names further libraries. -/
def referencesHeader : String := "Class-Path"

end Buildpath.Manifest
