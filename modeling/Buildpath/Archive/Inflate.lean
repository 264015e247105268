import Buildpath.Archive.CodeTree

/-!
# Decompression

Reading a compressed stream: blocks of stored bytes, or of literals and references back into the
output under prefix codes that are fixed or described in the block.
-/

namespace Buildpath.Archive

/-- A stream that is being read: the bits to come and the bytes written so far. -/
structure Inflater where
  bits : List Bool
  output : Array UInt8 := #[]
deriving Inhabited

/-- Steps of reading, which keep what was written when they stop. -/
abbrev InflateM := ExceptT Stop (StateM Inflater)

namespace Inflate

/-- The next bit. -/
def takeBit : InflateM Bool := do
  match (← get).bits with
  | [] => throw .truncated
  | b :: bits =>
    modify fun s => { s with bits }
    pure b

/-- The number in the next bits, lowest first. -/
def takeNumber : Nat → InflateM Nat
  | 0 => pure 0
  | n + 1 => do
    let low ← takeBit
    let high ← takeNumber n
    pure (low.toNat + 2 * high)

/-- The next symbol of a code. -/
def takeSymbol (tree : CodeTree) : InflateM Nat := do
  let (symbol, bits) ← ofExcept (tree.decode (← get).bits)
  modify fun s => { s with bits }
  pure symbol
where
  /-- A result as a step. -/
  ofExcept {α : Type} : Except Stop α → InflateM α
    | .ok a => pure a
    | .error stop => throw stop

/-- Writes a byte. -/
def emit (b : UInt8) : InflateM Unit := modify fun s => { s with output := s.output.push b }

/-- Writes bytes again that were written `distance` bytes before. -/
def copyBack (distance : Nat) : Nat → InflateM Unit
  | 0 => pure ()
  | n + 1 => do
    let output := (← get).output
    if distance = 0 || distance > output.size then throw .corrupt
    else
      emit (output.getD (output.size - distance) 0)
      copyBack distance n

/-- Copies stored bytes. -/
def copyStored : Nat → InflateM Unit
  | 0 => pure ()
  | n + 1 => do
    emit (UInt8.ofNat (← takeNumber 8))
    copyStored n

/-- The least length, or distance, of each symbol for one, with the number of bits that add to it. -/
abbrev Steps := List (Nat × Nat)

/-- Steps from a first value on: `groups` says how many symbols take how many more bits. -/
def stepsFrom (first : Nat) (groups : List (Nat × Nat)) : Steps :=
  (groups.flatMap fun (count, bits) => List.replicate count bits).foldl
    (fun (steps, base) bits => (steps ++ [(base, bits)], base + (1 <<< bits))) (([] : Steps), first) |>.1

/-- The lengths of the symbols from 257 on; the last one stands for the greatest length alone. -/
def lengthSteps : Steps :=
  stepsFrom 3 [(8, 0), (4, 1), (4, 2), (4, 3), (4, 4), (4, 5)] ++ [(258, 0)]

/-- The distances of the distance symbols. -/
def distanceSteps : Steps :=
  stepsFrom 1 [(4, 0), (2, 1), (2, 2), (2, 3), (2, 4), (2, 5), (2, 6), (2, 7), (2, 8), (2, 9),
    (2, 10), (2, 11), (2, 12), (2, 13)]

/-- The value of a symbol. -/
def takeStep (steps : Steps) (symbol : Nat) : InflateM Nat := do
  match steps[symbol]? with
  | none => throw .corrupt
  | some (base, bits) => pure (base + (← takeNumber bits))

/-- The symbol that ends a block. -/
def endOfBlock : Nat := 256

/-- Reads literals and references to the end of a block. Each takes a bit at least, so `fuel` need
not exceed the number of the bits. -/
def copyCoded (literals distances : CodeTree) : Nat → InflateM Unit
  | 0 => throw .truncated
  | fuel + 1 => do
    let symbol ← takeSymbol literals
    if symbol = endOfBlock then pure ()
    else if symbol < endOfBlock then
      emit (UInt8.ofNat symbol)
      copyCoded literals distances fuel
    else
      let length ← takeStep lengthSteps (symbol - (endOfBlock + 1))
      let distance ← takeStep distanceSteps (← takeSymbol distances)
      copyBack distance length
      copyCoded literals distances fuel

/-- The tree of a code, if the lengths make one. -/
def requireTree (lengths : List Nat) : InflateM CodeTree :=
  match codeTree? lengths with
  | some tree => pure tree
  | none => throw .corrupt

/-- The order in which the lengths of the codes for code lengths are written. -/
def lengthOrder : List Nat :=
  [16, 17, 18, 0, 8, 7, 9, 6, 10, 5, 11, 4, 12, 3, 13, 2, 14, 1, 15]

/-- Reads code lengths: `read`, last one first, grows to `count`. -/
def takeLengths (tree : CodeTree) (count : Nat) : Nat → List Nat → InflateM (List Nat)
  | 0, _ => throw .corrupt
  | fuel + 1, read =>
    if read.length = count then pure read.reverse
    else if read.length > count then throw .corrupt
    else do
      let symbol ← takeSymbol tree
      if symbol < 16 then takeLengths tree count fuel (symbol :: read)
      else if symbol = 16 then
        match read with
        | [] => throw .corrupt
        | last :: _ =>
          let times := 3 + (← takeNumber 2)
          takeLengths tree count fuel (List.replicate times last ++ read)
      else
        let times ← if symbol = 17 then (3 + ·) <$> takeNumber 3 else (11 + ·) <$> takeNumber 7
        takeLengths tree count fuel (List.replicate times 0 ++ read)

/-- Reads the codes that a block describes. -/
def takeTrees : InflateM (CodeTree × CodeTree) := do
  let literalCount := 257 + (← takeNumber 5)
  let distanceCount := 1 + (← takeNumber 5)
  let lengthCount := 4 + (← takeNumber 4)
  let written ← (List.replicate lengthCount 3).mapM takeNumber
  let lengths := (List.range 19).map fun symbol =>
    ((lengthOrder.zip written).lookup symbol).getD 0
  let tree ← requireTree lengths
  let all ← takeLengths tree (literalCount + distanceCount) (literalCount + distanceCount + 1) []
  pure (← requireTree (all.take literalCount), ← requireTree (all.drop literalCount))

/-- The lengths of the fixed code for literals. -/
def fixedLengths : List Nat :=
  List.replicate 144 8 ++ List.replicate 112 9 ++ List.replicate 24 7 ++ List.replicate 8 8

/-- Reads one block and tells whether it is the last one. -/
def takeBlock : InflateM Bool := do
  let isLast ← takeBit
  let fuel := (← get).bits.length + 1
  match ← takeNumber 2 with
  | 0 =>
    modify fun s => { s with bits := s.bits.drop (s.bits.length % 8) }
    let size ← takeNumber 16
    let inverted ← takeNumber 16
    if size + inverted ≠ 0xFFFF then throw .corrupt
    copyStored size
  | 1 =>
    copyCoded (← requireTree fixedLengths) (← requireTree (List.replicate 32 5)) fuel
  | 2 =>
    let (literals, distances) ← takeTrees
    copyCoded literals distances fuel
  | _ => throw .corrupt
  pure isLast

/-- Reads blocks up to the last one. Each takes a bit at least. -/
def takeBlocks : Nat → InflateM Unit
  | 0 => throw .truncated
  | fuel + 1 => do if ← takeBlock then pure () else takeBlocks fuel

end Inflate

/-- The bits of bytes, lowest first. -/
def bitsOf (bytes : List UInt8) : List Bool :=
  bytes.flatMap fun b => (List.range 8).map fun i => b.toNat.testBit i

/-- The bytes of a compressed stream. One that breaks off gives the bytes up to there. -/
def inflate? (bytes : List UInt8) : Option (List UInt8) :=
  let bits := bitsOf bytes
  match (Inflate.takeBlocks (bits.length + 1)).run.run { bits } with
  | (.error .corrupt, _) => none
  | (_, s) => some s.output.toList

end Buildpath.Archive
