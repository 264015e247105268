import Buildpath.Text.Split
import Buildpath.Xml.Chars

/-!
# Tokens of XML documents

The pieces of a document: tags, comments, instructions and the text between them, each with the source
text it was read from. A document type declaration is not a token; documents that have one are
refused.
-/

namespace Buildpath.Xml

/-- Why a text is not a document. -/
inductive XmlError where
  | forbiddenChar
  | misplacedDeclaration
  | malformedName
  | malformedTag
  | malformedComment
  | malformedInstruction
  | malformedText
  | malformedReference
  | unknownPrefix
  | reservedPrefix
  | duplicateAttribute
  | mismatchedTag
  | unclosedElement
  | misplacedContent
  | noRoot
deriving DecidableEq, Repr, Inhabited

/-- The message of an error. -/
def XmlError.message : XmlError → String
  | forbiddenChar => "a character is not allowed"
  | misplacedDeclaration => "a declaration is not at the start"
  | malformedName => "a name is malformed"
  | malformedTag => "a tag is malformed"
  | malformedComment => "a comment is malformed"
  | malformedInstruction => "an instruction is malformed"
  | malformedText => "a text is malformed"
  | malformedReference => "a reference is malformed or unknown"
  | unknownPrefix => "a prefix is not declared"
  | reservedPrefix => "a prefix is reserved"
  | duplicateAttribute => "an attribute is repeated"
  | mismatchedTag => "a closing tag does not match"
  | unclosedElement => "an element is not closed"
  | misplacedContent => "there is content outside the root element"
  | noRoot => "there is no root element"

/-- A name, with the prefix before its colon or an empty one. -/
structure QName where
  space : List Char
  name : List Char
deriving DecidableEq, Repr, Inhabited

/-- A piece of a document. -/
inductive Token where
  | comment
  | instruction
  | text (chars : List Char)
  | characterData
  | openTag (name : QName) (attributes : List (QName × List Char)) (isClosed : Bool)
  | closeTag (name : QName)
deriving DecidableEq, Repr, Inhabited

/-- A token and the text it was read from. -/
structure Lexeme where
  token : Token
  source : List Char
deriving DecidableEq, Repr, Inhabited

/-- Reads a name with at most one colon. -/
def lexName (cs : List Char) : Except XmlError (QName × List Char) :=
  let raw := cs.takeWhile isNameChar
  let rest := cs.dropWhile isNameChar
  match Text.splitOn ':' raw with
  | [name] =>
    if name.head?.any isNameStart then .ok (⟨[], name⟩, rest) else .error .malformedName
  | [space, name] =>
    if space.head?.all isNameStart && name.head?.any isNameStart then .ok (⟨space, name⟩, rest)
    else .error .malformedName
  | _ => .error .malformedName

/-- Reads a quoted value, which holds neither its quote nor an opening angle bracket. -/
def lexValue : List Char → Except XmlError (List Char × List Char)
  | [] => .error .malformedTag
  | quote :: cs =>
    if quote = '"' || quote = '\'' then
      match cs.span fun c => c ≠ quote && c ≠ '<' with
      | (value, c :: rest) => if c = quote then .ok (value, rest) else .error .malformedTag
      | (_, []) => .error .malformedTag
    else .error .malformedTag

/-- Reads a name, an equals sign with blanks around it and a value. -/
def lexAttribute (cs : List Char) : Except XmlError ((QName × List Char) × List Char) := do
  let (name, cs) ← lexName cs
  match cs.dropWhile isSpace with
  | '=' :: cs =>
    let (value, rest) ← lexValue (cs.dropWhile isSpace)
    pure ((name, value), rest)
  | _ => throw .malformedTag

/-- Reads the attributes of an opening tag to its end, each after a blank. The flag tells whether the
tag closes its element. The number bounds the attributes. -/
def lexAttributes : Nat → List Char →
    Except XmlError (List (QName × List Char) × Bool × List Char)
  | 0, _ => .error .malformedTag
  | fuel + 1, cs =>
    match cs.dropWhile isSpace with
    | '/' :: '>' :: rest => .ok ([], true, rest)
    | '>' :: rest => .ok ([], false, rest)
    | next =>
      if cs.head?.any isSpace then do
        let (first, rest) ← lexAttribute next
        let (attributes, isClosed, rest) ← lexAttributes fuel rest
        pure (first :: attributes, isClosed, rest)
      else .error .malformedTag

/-- Reads one token and yields what follows it. -/
def lexToken (cs : List Char) : Except XmlError (Token × List Char) :=
  match cs with
  | '<' :: '!' :: '-' :: '-' :: cs =>
    match cutAt? ['-', '-', '>'] cs with
    | some (body, rest) =>
      if occursIn ['-', '-'] body || body.getLast? = some '-' then .error .malformedComment
      else .ok (.comment, rest)
    | none => .error .malformedComment
  | '<' :: '!' :: '[' :: 'C' :: 'D' :: 'A' :: 'T' :: 'A' :: '[' :: cs =>
    match cutAt? [']', ']', '>'] cs with
    | some (_, rest) => .ok (.characterData, rest)
    | none => .error .malformedText
  | '<' :: '?' :: cs =>
    if (stripStart? ['x', 'm', 'l', ' '] cs).isSome then .error .misplacedDeclaration
    else if cs.head?.any isNameStart then
      match cutAt? ['?', '>'] (cs.dropWhile isNameChar) with
      | some (_, rest) => .ok (.instruction, rest)
      | none => .error .malformedInstruction
    else .error .malformedInstruction
  | '<' :: '/' :: cs => do
    let (name, cs) ← lexName cs
    match cs.dropWhile isSpace with
    | '>' :: rest => pure (.closeTag name, rest)
    | _ => throw .malformedTag
  | '<' :: cs => do
    let (name, cs) ← lexName cs
    let (attributes, isClosed, rest) ← lexAttributes (cs.length + 1) cs
    pure (.openTag name attributes isClosed, rest)
  | _ =>
    let chars := cs.takeWhile (· ≠ '<')
    if occursIn [']', ']', '>'] chars then .error .malformedText
    else .ok (.text chars, cs.dropWhile (· ≠ '<'))

/-- Reads the tokens of a text; the number bounds them. -/
def lexAll : Nat → List Char → Except XmlError (List Lexeme)
  | 0, _ => .ok []
  | _, [] => .ok []
  | fuel + 1, cs@(_ :: _) => do
    let (token, rest) ← lexToken cs
    let lexemes ← lexAll fuel rest
    pure (⟨token, cs.take (cs.length - rest.length)⟩ :: lexemes)

/-- Reads the blanks between the parts of a declaration. -/
def lexGap (cs : List Char) : Except XmlError (List Char) :=
  if cs.head?.any isSpace || cs.isEmpty || (stripStart? ['?', '>'] cs).isSome then
    .ok (cs.dropWhile isSpace)
  else .error .misplacedDeclaration

/-- Reads an attribute if the text starts with its name. -/
def lexOptional (name : String) (cs : List Char) : Except XmlError (List Char) :=
  match stripStart? name.toList cs with
  | some _ => do
    let (_, rest) ← lexAttribute cs
    pure rest
  | none => .ok cs

/-- Skips the declaration at the start of a document: a version, then perhaps an encoding, then
perhaps the word on external markup. -/
def skipDeclaration (cs : List Char) : Except XmlError (List Char) :=
  match stripStart? ['<', '?', 'x', 'm', 'l', ' '] cs with
  | none => .ok cs
  | some cs => do
    let cs := cs.dropWhile isSpace
    if (stripStart? "version".toList cs).isNone then throw .misplacedDeclaration
    let (_, cs) ← lexAttribute cs
    let cs ← lexGap cs
    let afterEncoding ← lexOptional "encoding" cs
    let cs ← if afterEncoding.length = cs.length then pure cs else lexGap afterEncoding
    let cs ← lexOptional "standalone" cs
    match stripStart? ['?', '>'] (cs.dropWhile isSpace) with
    | some rest => pure rest
    | none => throw .misplacedDeclaration

/-- The character that some editors put before a document. -/
def byteOrderMark : Char := '\ufeff'

/-- Drops one byte order mark. -/
def dropMark (cs : List Char) : List Char :=
  match cs with
  | c :: rest => if c = byteOrderMark then rest else cs
  | [] => []

/-- The tokens of a document after its declaration. -/
def lexemes (text : List Char) : Except XmlError (List Lexeme) := do
  if !text.all isDocumentChar then throw .forbiddenChar
  let body ← skipDeclaration (dropMark text)
  lexAll (body.length + 1) body

end Buildpath.Xml
