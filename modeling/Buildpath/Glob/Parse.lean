import Buildpath.Glob.Basic

/-!
# Reading glob patterns

The grammar of glob patterns: `?`, `*`, `**` as a whole path component, classes such as `[a-z]` and
`[!x]`, alternatives such as `{a,b}` and a backslash before a character that stands for itself.
Alternatives nest. A pattern with an open class, an open or stray brace, a descending range or a
backslash at its end is not a pattern.
-/

namespace Buildpath.Glob

/-- The reader's state: the character before the current one, the patterns of the open branches with
the innermost first, each in reverse, and for each open brace the number of branches below it. -/
structure Draft where
  previous : Option Char
  branches : List (List Token)
  opened : List Nat

namespace Draft

/-- Adds a token to the innermost branch. -/
def push (d : Draft) (t : Token) : Draft :=
  match d.branches with
  | [] => d
  | b :: bs => { d with branches := (t :: b) :: bs }

/-- Adds a token in place of the last one of the innermost branch. -/
def replaceLast (d : Draft) (f : Token → Token) : Draft :=
  match d.branches with
  | (t :: b) :: bs => { d with branches := (f t :: b) :: bs }
  | _ => d

/-- Whether the innermost branch has no token yet. -/
def isFresh (d : Draft) : Bool :=
  match d.branches with
  | b :: _ => b.isEmpty
  | [] => true

/-- Whether a brace is open. -/
def isNested (d : Draft) : Bool := d.branches.length ≥ 2

end Draft

/-- The closed ranges between two characters, byte by byte: only the last byte of the first and the
first byte of the second one span a range. -/
def byteRanges (lo hi : Char) : List (UInt8 × UInt8) :=
  if lo = hi then (String.utf8EncodeChar lo).map fun b => (b, b)
  else
    let first := String.utf8EncodeChar lo
    let second := String.utf8EncodeChar hi
    let span := (first.getLast?.toList.zip second.head?.toList)
    first.dropLast.map (fun b => (b, b)) ++ span ++ second.tail.map (fun b => (b, b))

/-- Reads the items of a class after its opening bracket; `ranges` holds those read so far in
reverse, `isFirst` tells that none was read, and `inRange` that a dash waits for its second
character. Yields the ranges and what follows the closing bracket. -/
def readClass (isFirst inRange : Bool) (ranges : List (Char × Char)) :
    List Char → Option (List (Char × Char) × List Char)
  | [] => none
  | c :: cs =>
    if c = ']' then
      if isFirst then readClass false inRange ((']', ']') :: ranges) cs
      else some ((if inRange then ('-', '-') :: ranges else ranges).reverse, cs)
    else if c = '-' && !isFirst && !inRange then readClass false true ranges cs
    else if inRange then
      match ranges with
      | [] => none
      | (lo, _) :: rest =>
        if c < lo then none else readClass false false ((lo, c) :: rest) cs
    else readClass false inRange ((c, c) :: ranges) cs

/-- What follows the closing bracket is shorter than what follows the opening one. -/
theorem length_readClass_lt {isFirst inRange : Bool} {ranges out : List (Char × Char)}
    {cs rest : List Char} (h : readClass isFirst inRange ranges cs = some (out, rest)) :
    rest.length < cs.length := by
  induction cs generalizing isFirst inRange ranges with
  | nil => simp [readClass] at h
  | cons c cs ih =>
    simp only [readClass] at h
    split at h
    · split at h
      · exact Nat.lt_succ_of_lt (ih h)
      · simp only [Option.some.injEq, Prod.mk.injEq] at h
        simp [← h.2]
    · split at h
      · exact Nat.lt_succ_of_lt (ih h)
      · split at h
        · split at h
          · simp at h
          · split at h
            · simp at h
            · exact Nat.lt_succ_of_lt (ih h)
        · exact Nat.lt_succ_of_lt (ih h)

/-- The token of two stars with `before` them and `after` them, if they are a whole component. The
flag tells whether the slash after them belongs to the token. -/
def readStars (d : Draft) (before : Option Char) (after : List Char) : Draft × List Char :=
  let plain := ((d.push .zeroOrMore).push .zeroOrMore, after)
  let isSlash (c : Option Char) : Bool := c = some '/'
  if d.isFresh then
    match after with
    | [] => (d.push .recursiveStart, after)
    | '/' :: rest => ({ d.push .recursiveStart with previous := some '/' }, rest)
    | _ => plain
  else if !isSlash before && !(d.isNested && (before = some ',' || before = some '\x7b')) then plain
  else
    let absorb (last : Token) : Draft :=
      d.replaceLast fun
        | .recursiveStart => .recursiveStart
        | .recursiveEnd => .recursiveEnd
        | _ => last
    match after with
    | [] => (absorb .recursiveEnd, after)
    | '/' :: rest => ({ absorb .recursiveMiddle with previous := some '/' }, rest)
    | c :: _ => if d.isNested && (c = ',' || c = '\x7d') then (absorb .recursiveEnd, after) else plain

/-- Reading two stars consumes no more than the slash after them. -/
theorem length_readStars_le (d : Draft) (before : Option Char) (after : List Char) :
    (readStars d before after).2.length ≤ after.length := by
  unfold readStars
  dsimp only
  split
  · split <;> simp
  · split
    · simp
    · split
      · simp
      · simp
      · split <;> simp

/-- Closes the innermost brace: its branches become one token of the branch that opened it. -/
def Draft.close (d : Draft) : Option Draft :=
  match d.opened with
  | [] => none
  | count :: opened =>
    let inner := d.branches.take (d.branches.length - count)
    let outer := d.branches.drop (d.branches.length - count)
    some ({ d with branches := outer, opened }.push
      (.alternates (inner.reverse.map List.reverse)))

/-- Reads a pattern to its end. -/
def readTokens (d : Draft) : List Char → Option Draft
  | [] => some d
  | '?' :: cs => readTokens { d.push .any with previous := some '?' } cs
  | '*' :: '*' :: cs =>
    match h : readStars { d with previous := some '*' } d.previous cs with
    | (d', rest) =>
      have : rest.length ≤ cs.length := by
        have := length_readStars_le { d with previous := some '*' } d.previous cs
        rw [h] at this
        exact this
      readTokens d' rest
  | '*' :: cs => readTokens { d.push .zeroOrMore with previous := some '*' } cs
  | '[' :: cs =>
    let negated := cs.head? = some '!' || cs.head? = some '^'
    match h : readClass true false [] (if negated then cs.tail else cs) with
    | none => none
    | some (ranges, rest) =>
      have : rest.length < cs.length + 1 := by
        have lt := length_readClass_lt h
        have le : (if negated then cs.tail else cs).length ≤ cs.length := by
          split
          · simp
          · exact Nat.le_refl _
        omega
      readTokens
        { d.push (.byteClass negated (ranges.flatMap fun (lo, hi) => byteRanges lo hi)) with
          previous := some ']' } rest
  | '\x7b' :: cs =>
    readTokens
      { previous := some '\x7b', branches := [] :: d.branches,
        opened := d.branches.length :: d.opened } cs
  | '\x7d' :: cs =>
    match d.close with
    | none => none
    | some d' => readTokens { d' with previous := some '\x7d' } cs
  | ',' :: cs =>
    if d.opened.isEmpty then readTokens { d.push (.literal ',') with previous := some ',' } cs
    else readTokens { d with previous := some ',', branches := [] :: d.branches } cs
  | '\\' :: [] => none
  | '\\' :: c :: cs => readTokens { d.push (.literal c) with previous := some c } cs
  | c :: cs => readTokens { d.push (.literal c) with previous := some c } cs
termination_by cs => cs.length

/-- The pattern of a text, if it is one. -/
def parse? (text : List Char) : Option (List Token) :=
  match readTokens ⟨none, [[]], []⟩ text with
  | some ⟨_, [pattern], []⟩ => some pattern.reverse
  | _ => none

end Buildpath.Glob
