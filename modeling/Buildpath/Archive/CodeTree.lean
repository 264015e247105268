/-!
# Prefix codes

Binary trees of prefix codes and the canonical code of a list of code lengths: shorter codes come
first, and codes of one length follow each other in the order of their symbols.
-/

namespace Buildpath.Archive

/-- Why a compressed stream ends before its end mark. -/
inductive Stop where
  /-- The bits run out. -/
  | truncated
  /-- The bits mean nothing. -/
  | corrupt
deriving DecidableEq, Repr, Inhabited

/-- A prefix code. -/
inductive CodeTree where
  | empty
  | leaf (symbol : Nat)
  | branch (zero one : CodeTree)
deriving Inhabited

namespace CodeTree

/-- Puts a symbol at the end of a code. -/
def insert (symbol : Nat) : List Bool → CodeTree → CodeTree
  | [], _ => leaf symbol
  | b :: bs, branch zero one =>
    if b then branch zero (insert symbol bs one) else branch (insert symbol bs zero) one
  | b :: bs, _ =>
    if b then branch empty (insert symbol bs empty) else branch (insert symbol bs empty) empty

/-- The symbol whose code starts some bits, and the bits after it. -/
def decode : CodeTree → List Bool → Except Stop (Nat × List Bool)
  | leaf symbol, bits => .ok (symbol, bits)
  | empty, _ => .error .corrupt
  | branch _ _, [] => .error .truncated
  | branch zero one, b :: bits => if b then one.decode bits else zero.decode bits

end CodeTree

/-- The `width` low bits of a code, highest first. -/
def codeBits : Nat → Nat → List Bool
  | 0, _ => []
  | width + 1, code => code.testBit width :: codeBits width code

/-- The longest code. -/
def maxCodeLength : Nat := 15

/-- The symbols with a code of some length, in ascending order. -/
def symbolsOfLength (lengths : List Nat) (length : Nat) : List Nat :=
  (List.range lengths.length).filter fun symbol => lengths[symbol]? = some length

/-- The canonical codes from a length on, given the first code of that length. -/
def canonicalCodesFrom (lengths : List Nat) : Nat → Nat → Nat → List (List Bool × Nat)
  | 0, _, _ => []
  | n + 1, length, first =>
    let symbols := symbolsOfLength lengths length
    symbols.mapIdx (fun i symbol => (codeBits length (first + i), symbol)) ++
      canonicalCodesFrom lengths n (length + 1) ((first + symbols.length) * 2)

/-- The canonical codes of symbols with the given code lengths; length zero means no code. -/
def canonicalCodes (lengths : List Nat) : List (List Bool × Nat) :=
  canonicalCodesFrom lengths maxCodeLength 1 0

/-- The share of all codes that codes of the given lengths use up, where `1 <<< maxCodeLength`
means all of them. -/
def codeSpace (lengths : List Nat) : Nat :=
  (lengths.filter (· ≠ 0)).foldl (fun used length => used + (1 <<< (maxCodeLength - length))) 0

/-- The tree of a canonical code. The code has to be complete, unless it has at most one symbol. -/
def codeTree? (lengths : List Nat) : Option CodeTree :=
  if codeSpace lengths ≠ 1 <<< maxCodeLength && (lengths.filter (· ≠ 0)).length > 1 then none
  else
    some ((canonicalCodes lengths).foldl (fun tree (code, symbol) => tree.insert symbol code) .empty)

end Buildpath.Archive
