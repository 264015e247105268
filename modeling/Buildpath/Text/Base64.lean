/-!
# Base 64

Bytes as text: three bytes are written as four digits of six bits, and a shorter rest is filled up
with `=`. Reading skips what is no digit.
-/

namespace Buildpath.Text

/-- The digits in the order of their values. -/
def base64Digits : List Char :=
  "ABCDEFGHIJKLMNOPQRSTUVWXYZabcdefghijklmnopqrstuvwxyz0123456789+/".toList

/-- The digit of a value. -/
def base64Digit (value : Nat) : Char := (base64Digits[value]?).getD '='

/-- The digits of some bytes. -/
def encodeBase64From : List UInt8 → List Char
  | [] => []
  | [a] => [base64Digit (a.toNat / 4), base64Digit (a.toNat % 4 * 16), '=', '=']
  | [a, b] =>
    [base64Digit (a.toNat / 4), base64Digit (a.toNat % 4 * 16 + b.toNat / 16),
      base64Digit (b.toNat % 16 * 4), '=']
  | a :: b :: c :: rest =>
    [base64Digit (a.toNat / 4), base64Digit (a.toNat % 4 * 16 + b.toNat / 16),
      base64Digit (b.toNat % 16 * 4 + c.toNat / 64), base64Digit (c.toNat % 64)] ++
      encodeBase64From rest

/-- The text of some bytes. -/
def encodeBase64 (bytes : ByteArray) : String := String.ofList (encodeBase64From bytes.toList)

/-- The bytes of some values of digits. -/
def decodeBase64From : List Nat → List UInt8
  | a :: b :: c :: d :: rest =>
    UInt8.ofNat (a * 4 + b / 16) :: UInt8.ofNat (b % 16 * 16 + c / 4) ::
      UInt8.ofNat (c % 4 * 64 + d) :: decodeBase64From rest
  | [a, b, c] => [UInt8.ofNat (a * 4 + b / 16), UInt8.ofNat (b % 16 * 16 + c / 4)]
  | [a, b] => [UInt8.ofNat (a * 4 + b / 16)]
  | _ => []

/-- The bytes of a text. -/
def decodeBase64 (text : String) : ByteArray :=
  (decodeBase64From (text.toList.filterMap fun c => base64Digits.idxOf? c)).toByteArray

end Buildpath.Text
