import Buildpath.Archive.Crc32
import Buildpath.Archive.Inflate
import Buildpath.Text.Utf8

/-!
# Archives

Reading the directory of a zip archive and the members that it lists. Members are stored or deflated;
one with another method, or with a wrong checksum, cannot be read.
-/

namespace Buildpath.Archive

/-- The number in `width` bytes from a place on, lowest first. -/
def numberAt (bytes : ByteArray) (place : Nat) : Nat → Nat
  | 0 => 0
  | width + 1 => (bytes.data.getD place 0).toNat + 256 * numberAt bytes (place + 1) width

/-- The bytes from a place on. -/
def slice (bytes : ByteArray) (place size : Nat) : ByteArray := bytes.extract place (place + size)

/-- The marks at the start of the records of an archive, as numbers of four bytes. -/
def memberMark : Nat := 0x04034b50

/-- The mark of a record of the directory. -/
def directoryMark : Nat := 0x02014b50

/-- The mark of the record after the directory. -/
def endMark : Nat := 0x06054b50

/-- The characters for the bytes from 128 on in a name that is not marked as UTF-8. -/
def upperCharacters : String :=
  "ÇüéâäàåçêëèïîìÄÅÉæÆôöòûùÿÖÜ¢£¥₧ƒáíóúñÑªº¿⌐¬½¼¡«»░▒▓│┤╡╢╖╕╣║╗╝╜╛┐" ++
  "└┴┬├─┼╞╟╚╔╩╦╠═╬╧╨╤╥╙╘╒╓╫╪┘┌█▄▌▐▀αßΓπΣσµτΦΘΩδ∞φε∩≡±≥≤⌠⌡÷≈°∙·√ⁿ²■\u00a0"

/-- The text of a name. -/
def decodeName (isUtf8 : Bool) (bytes : ByteArray) : String :=
  if isUtf8 then Text.decodeUtf8Lossy bytes
  else
    String.ofList (bytes.toList.map fun b =>
      if b < 128 then Char.ofNat b.toNat
      else (upperCharacters.toList[b.toNat - 128]?).getD '?')

/-- A member as the directory lists it. -/
structure Member where
  name : String
  /-- Whether a password protects the member. -/
  isEncrypted : Bool
  /-- How the member is compressed: 0 for not at all, 8 for deflated. -/
  method : Nat
  checksum : Nat
  /-- The number of the compressed bytes. -/
  size : Nat
  /-- The place of the record in front of the compressed bytes. -/
  place : Nat
deriving DecidableEq, Repr, Inhabited

/-- The members listed from a place on: as many as there should be, unless a record is no record of
a directory. Places in the archive count from `base`. -/
def membersFrom? (bytes : ByteArray) (base : Nat) : Nat → Nat → Option (List Member)
  | 0, _ => some []
  | n + 1, place =>
    if bytes.size < place + 46 || numberAt bytes place 4 ≠ directoryMark then none
    else
      let flags := numberAt bytes (place + 8) 2
      let nameSize := numberAt bytes (place + 28) 2
      let restSize := numberAt bytes (place + 30) 2 + numberAt bytes (place + 32) 2
      let member : Member :=
        { name := decodeName (flags.testBit 11) (slice bytes (place + 46) nameSize)
          isEncrypted := flags.testBit 0
          method := numberAt bytes (place + 10) 2
          checksum := numberAt bytes (place + 16) 4
          size := numberAt bytes (place + 20) 4
          place := base + numberAt bytes (place + 42) 4 }
      if bytes.size < place + 46 + nameSize + restSize then none
      else (membersFrom? bytes base n (place + 46 + nameSize + restSize)).map (member :: ·)

/-- The members that the directory lists whose end record is at a place. -/
def membersBefore? (bytes : ByteArray) (ending : Nat) : Option (List Member) :=
  let count := numberAt bytes (ending + 10) 2
  let start := numberAt bytes (ending + 16) 4
  if numberAt bytes ending 4 ≠ endMark || bytes.size < ending + 22 ||
      bytes.size < ending + 22 + numberAt bytes (ending + 20) 2 ||
      numberAt bytes (ending + 4) 2 ≠ numberAt bytes (ending + 6) 2 then none
  else if count = 0 then some []
  else
    match (List.range (ending - start)).find? fun base =>
        numberAt bytes (start + base) 4 = directoryMark with
    | none => none
    | some base => membersFrom? bytes base count (start + base)

/-- The members of an archive: those of the last directory in it that can be read. -/
def members? (bytes : ByteArray) : Option (List Member) :=
  (List.range bytes.size).reverse.findSome? (membersBefore? bytes)

/-- The contents of a member. -/
def Member.contents? (m : Member) (bytes : ByteArray) : Option ByteArray :=
  if m.isEncrypted || bytes.size < m.place + 30 || numberAt bytes m.place 4 ≠ memberMark then none
  else
    let start := m.place + 30 + numberAt bytes (m.place + 26) 2 + numberAt bytes (m.place + 28) 2
    let packed := (slice bytes start m.size).toList
    let unpacked :=
      match m.method with
      | 0 => some packed
      | 8 => inflate? packed
      | _ => none
    match unpacked with
    | some plain => if (crc32 plain).toNat = m.checksum then some plain.toByteArray else none
    | none => none

/-- The contents of the member of a name; of several the last one counts. -/
def read? (bytes : ByteArray) (name : String) : Option ByteArray :=
  match members? bytes with
  | none => none
  | some members => (members.reverse.find? (·.name = name)).bind (·.contents? bytes)

end Buildpath.Archive
