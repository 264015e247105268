/-!
# UTF-8 files

Reading the bytes of a file as text. A file that is not UTF-8 is refused with the place of its first
fault: a sequence that breaks off at the end, or one that is wrong after some of its bytes.
-/

namespace Buildpath.Text

/-- The first fault of a byte text: where the sequence starts and, unless the text breaks off in it,
how many of its bytes are wrong. -/
structure Utf8Fault where
  index : Nat
  size : Option Nat
deriving DecidableEq, Repr, Inhabited

/-- The message of a fault. -/
def Utf8Fault.message (f : Utf8Fault) : String :=
  match f.size with
  | some n =>
    "invalid utf-8 sequence of " ++ toString n ++ " bytes from index " ++ toString f.index
  | none => "incomplete utf-8 byte sequence from index " ++ toString f.index

/-- Whether a byte continues a sequence. -/
def isContinuation (b : UInt8) : Bool := 0x80 ≤ b && b ≤ 0xBF

/-- The bytes that may follow the first byte of a sequence of three or four. -/
def secondRange (first : UInt8) : UInt8 × UInt8 :=
  if first = 0xE0 then (0xA0, 0xBF)
  else if first = 0xED then (0x80, 0x9F)
  else if first = 0xF0 then (0x90, 0xBF)
  else if first = 0xF4 then (0x80, 0x8F)
  else (0x80, 0xBF)

/-- Whether a byte may follow the first byte of a sequence of three or four. -/
def isSecond (first b : UInt8) : Bool :=
  let (lo, hi) := secondRange first
  lo ≤ b && b ≤ hi

/-- The first fault of a byte text that starts at an index, or the end of a text without one. -/
def firstFault (i : Nat) : List UInt8 → Utf8Fault
  | [] => ⟨i, none⟩
  | a :: rest =>
    if a < 0x80 then firstFault (i + 1) rest
    else if 0xC2 ≤ a && a ≤ 0xDF then
      match rest with
      | [] => ⟨i, none⟩
      | b :: rest => if isContinuation b then firstFault (i + 2) rest else ⟨i, some 1⟩
    else if 0xE0 ≤ a && a ≤ 0xEF then
      match rest with
      | [] => ⟨i, none⟩
      | [b] => if isSecond a b then ⟨i, none⟩ else ⟨i, some 1⟩
      | b :: c :: rest =>
        if !isSecond a b then ⟨i, some 1⟩
        else if isContinuation c then firstFault (i + 3) rest
        else ⟨i, some 2⟩
    else if 0xF0 ≤ a && a ≤ 0xF4 then
      match rest with
      | [] => ⟨i, none⟩
      | [b] => if isSecond a b then ⟨i, none⟩ else ⟨i, some 1⟩
      | [b, c] =>
        if !isSecond a b then ⟨i, some 1⟩
        else if isContinuation c then ⟨i, none⟩
        else ⟨i, some 2⟩
      | b :: c :: d :: rest =>
        if !isSecond a b then ⟨i, some 1⟩
        else if !isContinuation c then ⟨i, some 2⟩
        else if isContinuation d then firstFault (i + 4) rest
        else ⟨i, some 3⟩
    else ⟨i, some 1⟩

/-- The text of a file. -/
def decodeUtf8 (bytes : ByteArray) : Except Utf8Fault String :=
  match String.fromUTF8? bytes with
  | some text => .ok text
  | none => .error (firstFault 0 bytes.data.toList)

/-- The text of bytes in which a replacement character stands for each fault. The number bounds the
faults. -/
def decodeLossyFrom : Nat → ByteArray → String
  | 0, _ => ""
  | n + 1, bytes =>
    match decodeUtf8 bytes with
    | .ok text => text
    | .error fault =>
      let before := ((String.fromUTF8? (bytes.extract 0 fault.index)).getD "") ++ "\ufffd"
      match fault.size with
      | none => before
      | some size => before ++ decodeLossyFrom n (bytes.extract (fault.index + size) bytes.size)

/-- The text of bytes with replacement characters. -/
def decodeUtf8Lossy (bytes : ByteArray) : String := decodeLossyFrom (bytes.size + 1) bytes

end Buildpath.Text
