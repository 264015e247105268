/-!
# Glob patterns

The tokens of a glob pattern and the byte texts that they match. A question mark, a class and a
backtracking star each work on bytes, and neither `?` nor `*` crosses a slash. Matching keeps the set
of the remainders that a token can leave, so it takes time polynomial in the text.
-/

namespace Buildpath.Glob

/-- One element of a glob pattern. -/
inductive Token where
  /-- A character that stands for itself. -/
  | literal (c : Char)
  /-- Any byte but a slash. -/
  | any
  /-- Any run of bytes without a slash. -/
  | zeroOrMore
  /-- Any leading folders: nothing, a slash, or a text that ends with a slash. -/
  | recursiveStart
  /-- A slash and everything below. -/
  | recursiveEnd
  /-- A slash, or two slashes with any folders between them. -/
  | recursiveMiddle
  /-- One byte in, or outside, a union of closed byte ranges. -/
  | byteClass (negated : Bool) (ranges : List (UInt8 × UInt8))
  /-- One of several patterns. -/
  | alternates (branches : List (List Token))
deriving Inhabited

/-- The byte of a slash. -/
def slash : UInt8 := 47

/-- The suffixes of a text that follow a prefix without a slash, longest first. -/
def withoutSlash : List UInt8 → List (List UInt8)
  | [] => [[]]
  | b :: bs => (b :: bs) :: if b = slash then [] else withoutSlash bs

/-- The suffixes of a text, longest first. -/
def suffixes : List UInt8 → List (List UInt8)
  | [] => [[]]
  | b :: bs => (b :: bs) :: suffixes bs

/-- The suffixes of a text that follow one of its slashes, longest first. -/
def afterSlashes : List UInt8 → List (List UInt8)
  | [] => []
  | b :: bs => if b = slash then bs :: afterSlashes bs else afterSlashes bs

/-- What remains of a text after a given beginning. -/
def stripStart : List UInt8 → List UInt8 → Option (List UInt8)
  | [], text => some text
  | _ :: _, [] => none
  | a :: as, b :: bs => if a = b then stripStart as bs else none

mutual

/-- Whether the token stands for nothing at all: alternatives none of which has a text of its own. -/
def Token.isVoid : Token → Bool
  | .alternates branches => allVoid branches
  | _ => false

/-- Whether every token of a pattern stands for nothing. -/
def isVoid : List Token → Bool
  | [] => true
  | t :: ts => t.isVoid && isVoid ts

/-- Whether every alternative stands for nothing. -/
def allVoid : List (List Token) → Bool
  | [] => true
  | p :: ps => isVoid p && allVoid ps

end

mutual

/-- The remainders that a token can leave of a text. Alternatives without a text of their own are
left out; if all are, the token matches the empty text. -/
def Token.remainders : Token → List UInt8 → List (List UInt8)
  | .literal c, text => (stripStart (String.utf8EncodeChar c) text).toList
  | .any, text =>
    match text with
    | [] => []
    | b :: bs => if b = slash then [] else [bs]
  | .zeroOrMore, text => withoutSlash text
  | .recursiveStart, text => text :: afterSlashes text
  | .recursiveEnd, text =>
    match text with
    | [] => []
    | b :: bs => if b = slash then suffixes bs else []
  | .recursiveMiddle, text =>
    match text with
    | [] => []
    | b :: bs => if b = slash then bs :: afterSlashes bs else []
  | .byteClass negated ranges, text =>
    match text with
    | [] => []
    | b :: bs =>
      if (ranges.any fun (lo, hi) => lo ≤ b && b ≤ hi) = negated then [] else [bs]
  | .alternates branches, text =>
    if allVoid branches then [text] else branchRemainders branches text

/-- The remainders that a pattern can leave of any of several texts. -/
def remainders : List Token → List (List UInt8) → List (List UInt8)
  | [], texts => texts
  | t :: ts, texts => remainders ts (texts.flatMap t.remainders).eraseDups

/-- The remainders that one of several alternatives can leave of a text. -/
def branchRemainders : List (List Token) → List UInt8 → List (List UInt8)
  | [], _ => []
  | p :: ps, text =>
    (if isVoid p then [] else remainders p [text]) ++ branchRemainders ps text

end

/-- Whether a pattern matches a whole text. A pattern that is `**` alone matches every text. -/
def isMatch (pattern : List Token) (text : List UInt8) : Bool :=
  match pattern with
  | [.recursiveStart] => true
  | _ => (remainders pattern [text]).any List.isEmpty

end Buildpath.Glob
