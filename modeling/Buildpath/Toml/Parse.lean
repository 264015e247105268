import Buildpath.Text.Split
import Buildpath.Toml.Item
import Buildpath.Xml.Value

/-!
# Reading settings files

The grammar of TOML without numbers and dates: keys, strings of the four kinds, arrays, inline tables,
headers and comments, and the root table that a text stands for.
-/

namespace Buildpath.Toml

/-- What a reader yields: a value and the text after it. -/
abbrev Reader (α : Type) := List Char → Except TomlError (α × List Char)

/-- The blanks within a line. -/
def isGap (c : Char) : Bool := c = ' ' || c = '\t'

/-- Whether a character may stand in a comment or between quotes: no control character but the tab. -/
def isPlain (c : Char) : Bool := c = '\t' || (0x20 ≤ c.toNat && c.toNat ≠ 0x7F)

/-- Whether a key may hold a character without quotes. -/
def isBare (c : Char) : Bool := c.isAlphanum || c = '_' || c = '-'

/-- Drops the blanks within a line. -/
def skipGap (cs : List Char) : List Char := cs.dropWhile isGap

/-- Drops one line end. -/
def dropLineEnd? : List Char → Option (List Char)
  | '\n' :: cs => some cs
  | '\r' :: '\n' :: cs => some cs
  | _ => none

/-- Reads the end of a line: blanks, perhaps a comment, and a line end or the end of the text. -/
def endLine (cs : List Char) : Except TomlError (List Char) :=
  let cs := skipGap cs
  let cs := if cs.head? = some '#' then cs.dropWhile isPlain else cs
  match dropLineEnd? cs with
  | some rest => .ok rest
  | none => if cs.isEmpty then .ok [] else .error .malformed

/-- Drops blanks, line ends and comments. -/
def skipFiller (inComment : Bool) : List Char → Except TomlError (List Char)
  | [] => .ok []
  | c :: cs =>
    if c = '\n' then skipFiller false cs
    else if c = '\r' then
      if cs.head? = some '\n' then skipFiller false cs else .error .malformed
    else if inComment then if isPlain c then skipFiller true cs else .error .malformed
    else if isGap c then skipFiller false cs
    else if c = '#' then skipFiller true cs
    else .ok (c :: cs)

/-- The character of a numbered escape. -/
def scalar? (digits : List Char) : Option Char :=
  (Xml.number? 16 digits).bind fun n => if h : n.isValidChar then some (Char.ofNatAux n h) else none

/-- The character of an escape without a number. -/
def escape? (c : Char) : Option Char :=
  [('b', '\x08'), ('t', '\t'), ('n', '\n'), ('f', '\x0c'), ('r', '\r'), ('"', '"'),
    ('\\', '\\')].lookup c

/-- Puts a character before what was read. -/
def before (c : Char) (r : Except TomlError (List Char × List Char)) :
    Except TomlError (List Char × List Char) := do
  let (cs, rest) ← r
  pure (c :: cs, rest)

/-- Puts the character of an escape before what was read. -/
def beforeEscape (c : Option Char) (r : Except TomlError (List Char × List Char)) :
    Except TomlError (List Char × List Char) :=
  match c with
  | some c => before c r
  | none => .error .malformed

/-- Reads a string after its opening quote. -/
def readBasic : Reader (List Char)
  | [] => .error .malformed
  | '"' :: cs => .ok ([], cs)
  | '\\' :: 'u' :: a :: b :: c :: d :: cs => beforeEscape (scalar? [a, b, c, d]) (readBasic cs)
  | '\\' :: 'U' :: a :: b :: c :: d :: e :: f :: g :: h :: cs =>
    beforeEscape (scalar? [a, b, c, d, e, f, g, h]) (readBasic cs)
  | '\\' :: c :: cs => beforeEscape (escape? c) (readBasic cs)
  | c :: cs => if isPlain c then before c (readBasic cs) else .error .malformed

/-- Reads a string of several lines after its opening quotes. While `trimming`, blanks and line ends
are dropped; a backslash at the end of a line starts that. -/
def readLongBasic (trimming : Bool) : Reader (List Char)
  | [] => .error .malformed
  | '"' :: '"' :: '"' :: '"' :: '"' :: cs => .ok (['"', '"'], cs)
  | '"' :: '"' :: '"' :: '"' :: cs => .ok (['"'], cs)
  | '"' :: '"' :: '"' :: cs => .ok ([], cs)
  | '\\' :: 'u' :: a :: b :: c :: d :: cs =>
    beforeEscape (scalar? [a, b, c, d]) (readLongBasic false cs)
  | '\\' :: 'U' :: a :: b :: c :: d :: e :: f :: g :: h :: cs =>
    beforeEscape (scalar? [a, b, c, d, e, f, g, h]) (readLongBasic false cs)
  | '\\' :: c :: cs =>
    if (dropLineEnd? (skipGap (c :: cs))).isSome then readLongBasic true (c :: cs)
    else beforeEscape (escape? c) (readLongBasic false cs)
  | '\r' :: '\n' :: cs => if trimming then readLongBasic true cs else before '\n' (readLongBasic false cs)
  | c :: cs =>
    if trimming && (isGap c || c = '\n') then readLongBasic true cs
    else if isPlain c || c = '\n' then before c (readLongBasic false cs)
    else .error .malformed

/-- Reads a string without escapes after its opening quote. -/
def readLiteral : Reader (List Char)
  | [] => .error .malformed
  | '\'' :: cs => .ok ([], cs)
  | c :: cs => if isPlain c then before c (readLiteral cs) else .error .malformed

/-- Reads a string of several lines without escapes after its opening quotes. -/
def readLongLiteral : Reader (List Char)
  | [] => .error .malformed
  | '\'' :: '\'' :: '\'' :: '\'' :: '\'' :: cs => .ok (['\'', '\''], cs)
  | '\'' :: '\'' :: '\'' :: '\'' :: cs => .ok (['\''], cs)
  | '\'' :: '\'' :: '\'' :: cs => .ok ([], cs)
  | '\r' :: '\n' :: cs => before '\n' (readLongLiteral cs)
  | c :: cs =>
    if isPlain c || c = '\n' then before c (readLongLiteral cs) else .error .malformed

/-- Drops the line end that may follow the opening quotes of a string of several lines. -/
def skipFirstLine (cs : List Char) : List Char := (dropLineEnd? cs).getD cs

/-- Reads a string of any kind. -/
def readString : Reader (List Char)
  | '"' :: '"' :: '"' :: cs => readLongBasic false (skipFirstLine cs)
  | '"' :: cs => readBasic cs
  | '\'' :: '\'' :: '\'' :: cs => readLongLiteral (skipFirstLine cs)
  | '\'' :: cs => readLiteral cs
  | _ => .error .malformed

/-- Reads one part of a key. -/
def readKeyPart : Reader String
  | '"' :: cs => do
    let (key, rest) ← readBasic cs
    pure (String.ofList key, rest)
  | '\'' :: cs => do
    let (key, rest) ← readLiteral cs
    pure (String.ofList key, rest)
  | cs =>
    if (cs.takeWhile isBare).isEmpty then .error .malformed
    else .ok (String.ofList (cs.takeWhile isBare), cs.dropWhile isBare)

/-- Reads a key with dots between its parts; the number bounds the parts. -/
def readKey : Nat → Reader (List String)
  | 0, _ => .error .malformed
  | fuel + 1, cs => do
    let (part, cs) ← readKeyPart (skipGap cs)
    match skipGap cs with
    | '.' :: cs => do
      let (parts, rest) ← readKey fuel cs
      pure (part :: parts, rest)
    | rest => pure ([part], rest)

/-- The parts of a key before the last one, and the last one. -/
def splitKey (parts : List String) : List String × String := (parts.dropLast, parts.getLastD "")

mutual

/-- Reads a value; the number bounds the nesting and the length. -/
def readValue : Nat → Reader Item
  | 0, _ => .error .malformed
  | fuel + 1, cs =>
    match cs with
    | '[' :: cs => do
      let (items, rest) ← readItems fuel (← skipFiller false cs)
      pure (.array items, rest)
    | '\x7b' :: cs => do
      match skipGap cs with
      | '\x7d' :: rest => pure (.table .inline [], rest)
      | cs =>
        let (t, rest) ← readPairs fuel ⟨.headed, []⟩ cs
        pure (.table .inline t.members, rest)
    | '"' :: _ | '\'' :: _ => do
      let (s, rest) ← readString cs
      pure (.string (String.ofList s), rest)
    | 't' :: 'r' :: 'u' :: 'e' :: rest => pure (.bool true, rest)
    | 'f' :: 'a' :: 'l' :: 's' :: 'e' :: rest => pure (.bool false, rest)
    | _ => throw .malformed

/-- Reads the items of an array to its closing bracket. -/
def readItems : Nat → Reader (List Item)
  | 0, _ => .error .malformed
  | fuel + 1, cs =>
    match cs with
    | ']' :: rest => pure ([], rest)
    | cs => do
      let (item, cs) ← readValue fuel cs
      match ← skipFiller false cs with
      | ',' :: cs => do
        let (items, rest) ← readItems fuel (← skipFiller false cs)
        pure (item :: items, rest)
      | ']' :: rest => pure ([item], rest)
      | _ => throw .malformed

/-- Reads the pairs of an inline table to its closing brace. -/
def readPairs : Nat → Table → Reader Table
  | 0, _, _ => .error .malformed
  | fuel + 1, t, cs => do
    let (parts, cs) ← readKey (cs.length + 1) cs
    match cs with
    | '=' :: cs => do
      let (item, cs) ← readValue fuel (skipGap cs)
      let (path, key) := splitKey parts
      let t ← t.addKey path key item
      match skipGap cs with
      | ',' :: cs => readPairs fuel t cs
      | '\x7d' :: rest => pure (t, rest)
      | _ => throw .malformed
    | _ => throw .malformed

end

/-- What was read so far: the root table and the path of the header that the next pairs belong to. -/
structure Draft where
  root : Table := ⟨.headed, []⟩
  place : List String := []
deriving Inhabited

/-- Takes in a header, whose closing bracket is single or double. -/
def Draft.takeHeader (d : Draft) (isRepeated : Bool) (cs : List Char) :
    Except TomlError (Draft × List Char) := do
  let (parts, cs) ← readKey (cs.length + 1) cs
  let (path, key) := splitKey parts
  match isRepeated, cs with
  | false, ']' :: cs => do
    let root ← d.root.openHeader path key
    pure ({ root, place := parts }, ← endLine cs)
  | true, ']' :: ']' :: cs => do
    let root ← d.root.openRepeated path key
    pure ({ root, place := parts }, ← endLine cs)
  | _, _ => throw .malformed

/-- Takes in a pair. -/
def Draft.takePair (d : Draft) (cs : List Char) : Except TomlError (Draft × List Char) := do
  let (parts, cs) ← readKey (cs.length + 1) cs
  match cs with
  | '=' :: cs => do
    let cs := skipGap cs
    let (item, cs) ← readValue (cs.length + 1) cs
    let (path, key) := splitKey parts
    let root ← d.root.descend .implied (fun t => t.addKey path key item) d.place
    pure ({ d with root }, ← endLine cs)
  | _ => throw .malformed

/-- Takes in the lines of a text; the number bounds them. -/
def Draft.takeLines : Nat → Draft → List Char → Except TomlError Draft
  | 0, d, cs => if cs.isEmpty then .ok d else .error .malformed
  | fuel + 1, d, cs =>
    match skipGap cs with
    | [] => .ok d
    | '[' :: '[' :: cs => do
      let (d, rest) ← d.takeHeader true cs
      takeLines fuel d rest
    | '[' :: cs => do
      let (d, rest) ← d.takeHeader false cs
      takeLines fuel d rest
    | cs@(c :: _) =>
      if c = '#' || c = '\n' || c = '\r' then do
        takeLines fuel d (← endLine cs)
      else do
        let (d, rest) ← d.takePair cs
        takeLines fuel d rest

/-- The root table of a text, which may start with a byte order mark. -/
def parse (text : String) : Except TomlError Members := do
  let cs :=
    match text.toList with
    | '\ufeff' :: cs => cs
    | cs => cs
  let d ← Draft.takeLines (cs.length + 1) {} cs
  pure d.root.members

end Buildpath.Toml
