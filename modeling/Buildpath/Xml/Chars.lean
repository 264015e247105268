/-!
# Characters of XML documents

The character classes of XML: what may stand in a document, in a name and at its start, and the four
blanks. Also the search for a closing mark, which most constructs end with.
-/

namespace Buildpath.Xml

/-- Whether a code point lies in one of some closed ranges. -/
def inRanges (ranges : List (Nat × Nat)) (c : Char) : Bool :=
  ranges.any fun (lo, hi) => lo ≤ c.toNat && c.toNat ≤ hi

/-- The blanks of XML. -/
def isSpace (c : Char) : Bool := c = ' ' || c = '\t' || c = '\n' || c = '\r'

/-- Whether a character may stand in a document: no control character other than a blank, and not
one of the two non-characters at the end of the basic plane. -/
def isDocumentChar (c : Char) : Bool :=
  if c.toNat < 0x20 then isSpace c else c.toNat ≠ 0xFFFE && c.toNat ≠ 0xFFFF

/-- Whether a name may start with a character. The colon is among them; it separates a prefix. -/
def isNameStart : Char → Bool :=
  inRanges
    [(0x3A, 0x3A), (0x41, 0x5A), (0x5F, 0x5F), (0x61, 0x7A), (0xC0, 0xD6), (0xD8, 0xF6),
      (0xF8, 0x2FF), (0x370, 0x37D), (0x37F, 0x1FFF), (0x200C, 0x200D), (0x2070, 0x218F),
      (0x2C00, 0x2FEF), (0x3001, 0xD7FF), (0xF900, 0xFDCF), (0xFDF0, 0xFFFD), (0x10000, 0xEFFFF)]

/-- Whether a name may hold a character. -/
def isNameChar (c : Char) : Bool :=
  isNameStart c ||
    inRanges [(0x2D, 0x2E), (0x30, 0x39), (0xB7, 0xB7), (0x300, 0x36F), (0x203F, 0x2040)] c

/-- What remains of a text after a given beginning. -/
def stripStart? : List Char → List Char → Option (List Char)
  | [], text => some text
  | _ :: _, [] => none
  | a :: as, b :: bs => if a = b then stripStart? as bs else none

/-- The text before the first occurrence of a mark and the text after it. -/
def cutAt? (mark : List Char) : List Char → Option (List Char × List Char)
  | [] => if mark.isEmpty then some ([], []) else none
  | c :: cs =>
    match stripStart? mark (c :: cs) with
    | some rest => some ([], rest)
    | none => (cutAt? mark cs).map fun (before, after) => (c :: before, after)

/-- Whether a mark occurs in a text. -/
def occursIn (mark text : List Char) : Bool := (cutAt? mark text).isSome

/-- A text that is cut consists of the part before, the mark and the part after. -/
theorem eq_of_stripStart? {mark text rest : List Char} (h : stripStart? mark text = some rest) :
    text = mark ++ rest := by
  induction mark generalizing text with
  | nil => simpa [stripStart?] using h
  | cons a as ih =>
    cases text with
    | nil => simp [stripStart?] at h
    | cons b bs =>
      simp only [stripStart?] at h
      split at h
      · rename_i hab
        simp [hab, ih h]
      · simp at h

end Buildpath.Xml
