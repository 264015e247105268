import Buildpath.Xml.Token
import Buildpath.Xml.Value

/-!
# XML documents

The tree of a document. Names are known by their local part, prefixes have to be declared, no element
has two attributes of one name, and each node remembers the text it was read from.
-/

namespace Buildpath.Xml

/-- An attribute: the namespace of its prefix, if it has one, its local name and its value. -/
structure NodeAttribute where
  space : Option String
  name : String
  value : String
deriving DecidableEq, Repr, Inhabited

/-- A part of a document. -/
inductive Node where
  | element (name : String) (attributes : List NodeAttribute) (children : List Node)
    (source : List Char)
  | comment (source : List Char)
  | instruction (source : List Char)
  | text (source : List Char)
deriving Inhabited

namespace Node

/-- The text that a node was read from. -/
def source : Node → List Char
  | element _ _ _ source | comment source | instruction source | text source => source

/-- Whether the node is an element. -/
def isElement : Node → Bool
  | element .. => true
  | _ => false

/-- The local name of an element. -/
def name : Node → String
  | element name .. => name
  | _ => ""

/-- The attributes of an element. -/
def attributes : Node → List NodeAttribute
  | element _ attributes .. => attributes
  | _ => []

/-- The children of an element. -/
def children : Node → List Node
  | element _ _ children _ => children
  | _ => []

/-- The value of the attribute without a prefix of a name. -/
def attribute? (n : Node) (name : String) : Option String :=
  (n.attributes.find? fun a => a.space = none && a.name = name).map NodeAttribute.value

end Node

/-- The name of a namespace of the standards body that defines XML. -/
def standardSpace (parts : List String) : String :=
  String.intercalate "/" ("http:" :: "" :: "www.w3.org" :: parts)

/-- The namespace of the prefix `xml`. -/
def xmlSpace : String := standardSpace ["XML", "1998", "namespace"]

/-- The namespace of the prefix that declares prefixes. -/
def declarationSpace : String := standardSpace ["2000", "xmlns", ""]

/-- The declared prefixes with their namespaces, the innermost first. -/
abbrev Scope := List (String × String)

/-- The attributes of a tag with their values decoded. -/
def decodeAttributes (attributes : List (QName × List Char)) :
    Except XmlError (List (QName × String)) :=
  attributes.mapM fun (name, written) =>
    match decodeValue written with
    | some value => .ok (name, String.ofList value)
    | none => .error .malformedReference

/-- The word that declares a namespace. -/
def declarationWord : List Char := ['x', 'm', 'l', 'n', 's']

/-- Whether an attribute declares a namespace. -/
def isDeclaration (name : QName) : Bool := name.space = declarationWord || name.name = declarationWord

/-- The prefixes that the attributes of a tag declare. The two reserved namespaces cannot be bound to
other prefixes, and no prefix is declared twice. -/
def declaredScope : List (QName × String) → Except XmlError Scope
  | [] => .ok []
  | (name, value) :: attributes => do
    let scope ← declaredScope attributes
    if !isDeclaration name then pure scope
    else if value = declarationSpace then throw .reservedPrefix
    else if name.space = declarationWord then
      let word := String.ofList name.name
      if word = "xml" then if value = xmlSpace then pure scope else throw .reservedPrefix
      else if value = xmlSpace then throw .reservedPrefix
      else if (scope.lookup word).isSome then throw .duplicateAttribute
      else pure ((word, value) :: scope)
    else if value = xmlSpace then throw .reservedPrefix
    else pure scope

/-- The namespace of a prefix; an empty prefix has none. -/
def spaceOf (scope : Scope) (space : List Char) : Except XmlError (Option String) :=
  if space.isEmpty then .ok none
  else
    match scope.lookup (String.ofList space) with
    | some uri => .ok (some uri)
    | none => .error .unknownPrefix

/-- The attributes of an element in order, those that declare prefixes left out. -/
def resolveAttributes (scope : Scope) (seen : List NodeAttribute) :
    List (QName × String) → Except XmlError (List NodeAttribute)
  | [] => .ok seen.reverse
  | (name, value) :: attributes => do
    let space ← spaceOf (("xml", xmlSpace) :: scope) name.space
    let next : NodeAttribute := ⟨space, String.ofList name.name, value⟩
    if seen.any fun a => a.space = space && a.name = next.name then throw .duplicateAttribute
    resolveAttributes scope (next :: seen) attributes

/-- An element whose closing tag is still to come; its children are in reverse. -/
structure Frame where
  name : QName
  attributes : List NodeAttribute
  scope : Scope
  source : List Char
  children : List Node := []
deriving Inhabited

/-- The element of a frame that ends with a closing tag. -/
def Frame.close (f : Frame) (closing : List Char) : Node :=
  let children := f.children.reverse
  .element (String.ofList f.name.name) f.attributes children
    (f.source ++ children.flatMap Node.source ++ closing)

/-- The state between two tokens: the open elements, innermost first, and the root if it is
complete. -/
structure Builder where
  frames : List Frame := []
  root : Option Node := none
deriving Inhabited

namespace Builder

/-- Adds a node to the innermost open element, or makes it the root. -/
def add (b : Builder) (n : Node) : Except XmlError Builder :=
  match b.frames with
  | f :: fs => .ok { b with frames := { f with children := n :: f.children } :: fs }
  | [] =>
    match n with
    | .element .. => if b.root.isSome then .error .misplacedContent else .ok { b with root := some n }
    | .text source => if source.all isSpace then .ok b else .error .misplacedContent
    | .comment _ | .instruction _ => .ok b

/-- Opens an element. -/
def openFrame (b : Builder) (name : QName) (attributes : List (QName × List Char))
    (source : List Char) : Except XmlError Frame := do
  if name.space = declarationWord then throw .reservedPrefix
  let decoded ← decodeAttributes attributes
  let declared ← declaredScope decoded
  let scope := declared ++ (b.frames.head?.map Frame.scope).getD []
  let attributes ← resolveAttributes scope [] (decoded.filter fun a => !isDeclaration a.1)
  let _ ← spaceOf scope name.space
  pure { name, attributes, scope, source }

/-- Takes in one token. -/
def step (b : Builder) (l : Lexeme) : Except XmlError Builder :=
  match l.token with
  | .comment => b.add (.comment l.source)
  | .instruction => b.add (.instruction l.source)
  | .characterData =>
    if b.frames.isEmpty then .error .misplacedContent else b.add (.text l.source)
  | .text chars =>
    if (decodeValue chars).isSome then b.add (.text l.source) else .error .malformedReference
  | .openTag name attributes isClosed => do
    let frame ← b.openFrame name attributes l.source
    if isClosed then b.add (frame.close [])
    else if b.frames.isEmpty && b.root.isSome then throw .misplacedContent
    else pure { b with frames := frame :: b.frames }
  | .closeTag name =>
    match b.frames with
    | [] => .error .mismatchedTag
    | frame :: frames =>
      if frame.name = name then { b with frames }.add (frame.close l.source)
      else .error .mismatchedTag

/-- The root of a complete document. -/
def finish (b : Builder) : Except XmlError Node :=
  if !b.frames.isEmpty then .error .unclosedElement
  else
    match b.root with
    | some root => .ok root
    | none => .error .noRoot

end Builder

/-- The root element of a document. -/
def parse (text : List Char) : Except XmlError Node := do
  let lexemes ← lexemes text
  let builder ← lexemes.foldlM Builder.step {}
  builder.finish

end Buildpath.Xml
