import Buildpath.Xml.Chars

/-!
# Attribute values

Reading the value between two quotes: references stand for characters, line ends and tabs for one
blank each. Writing a value escapes what reading would change, so a written value reads back.
-/

namespace Buildpath.Xml

/-- The digit that a character stands for in a base up to 16. -/
def digit? (base : Nat) (c : Char) : Option Nat :=
  let n :=
    if '0' ≤ c && c ≤ '9' then c.toNat - '0'.toNat
    else if 'a' ≤ c && c ≤ 'f' then c.toNat - 'a'.toNat + 10
    else if 'A' ≤ c && c ≤ 'F' then c.toNat - 'A'.toNat + 10
    else 16
  if n < base then some n else none

/-- The number of a run of digits that is not empty. -/
def number? (base : Nat) (digits : List Char) : Option Nat :=
  if digits.isEmpty then none
  else digits.foldlM (fun n c => (digit? base c).map (n * base + ·)) 0

/-- The character of a number in a reference. A number of 32 bits that is no character stands for the
replacement character; a larger one is malformed. -/
def numberedChar? (n : Nat) : Option Char :=
  if n < UInt32.size then
    let c := if h : n.isValidChar then Char.ofNatAux n h else '\ufffd'
    if isDocumentChar c then some c else none
  else none

/-- The character of a reference, given what stands between the ampersand and the semicolon. -/
def reference? (body : List Char) : Option Char :=
  match body with
  | '#' :: 'x' :: digits => (number? 16 digits).bind numberedChar?
  | '#' :: digits => (number? 10 digits).bind numberedChar?
  | ['q', 'u', 'o', 't'] => some '"'
  | ['a', 'm', 'p'] => some '&'
  | ['a', 'p', 'o', 's'] => some '\''
  | ['l', 't'] => some '<'
  | ['g', 't'] => some '>'
  | _ => none

/-- The text that a written value stands for, where `body` holds the characters of an unfinished
reference in reverse. None if a reference is malformed or unknown. -/
def decodeFrom (body : Option (List Char)) : List Char → Option (List Char)
  | [] => if body.isSome then none else some []
  | c :: cs =>
    match body with
    | some body =>
      if c = ';' then
        match reference? body.reverse with
        | some d => (decodeFrom none cs).map (d :: ·)
        | none => none
      else decodeFrom (some (c :: body)) cs
    | none =>
      if c = '&' then decodeFrom (some []) cs
      else if c = '\r' && cs.head? = some '\n' then decodeFrom none cs
      else (decodeFrom none cs).map ((if isSpace c then ' ' else c) :: ·)

/-- The text that a written value stands for. -/
def decodeValue (written : List Char) : Option (List Char) := decodeFrom none written

/-- The written form of one character of a value. -/
def encodeChar (c : Char) : List Char :=
  if c = '&' then ['&', 'a', 'm', 'p', ';']
  else if c = '<' then ['&', 'l', 't', ';']
  else if c = '>' then ['&', 'g', 't', ';']
  else if c = '"' then ['&', 'q', 'u', 'o', 't', ';']
  else if c = '\n' then ['&', '#', '1', '0', ';']
  else if c = '\r' then ['&', '#', '1', '3', ';']
  else if c = '\t' then ['&', '#', '9', ';']
  else [c]

/-- The written form of a value. -/
def encodeValue (value : List Char) : List Char := value.flatMap encodeChar

/-- A reference is read up to its semicolon. -/
theorem decodeFrom_body (read body cs : List Char) (h : ';' ∉ body) :
    decodeFrom (some read) (body ++ ';' :: cs) =
      (reference? (read.reverse ++ body)).bind fun d => (decodeFrom none cs).map (d :: ·) := by
  induction body generalizing read with
  | nil =>
    rw [List.nil_append, decodeFrom, if_pos rfl, List.append_nil]
    cases reference? read.reverse <;> rfl
  | cons c body ih =>
    have hc : c ≠ ';' := fun hc => h (by simp [hc])
    have hbody : ';' ∉ body := fun hb => h (List.mem_cons_of_mem _ hb)
    rw [List.cons_append, decodeFrom, if_neg hc, ih _ hbody, List.reverse_cons, List.append_assoc]
    rfl

/-- A known reference reads as its character. -/
theorem decodeFrom_reference (body : List Char) {d : Char} (h : ';' ∉ body)
    (hd : reference? body = some d) (cs : List Char) :
    decodeFrom none ('&' :: (body ++ ';' :: cs)) = (decodeFrom none cs).map (d :: ·) := by
  rw [decodeFrom, if_pos rfl, decodeFrom_body [] body cs h]
  simp [hd]

/-- Reading the written form of a character gives the character. -/
theorem decodeFrom_encodeChar (c : Char) (cs : List Char) :
    decodeFrom none (encodeChar c ++ cs) = (decodeFrom none cs).map (c :: ·) := by
  unfold encodeChar
  split
  · subst c
    exact decodeFrom_reference ['a', 'm', 'p'] (by decide) (by decide) cs
  split
  · subst c
    exact decodeFrom_reference ['l', 't'] (by decide) (by decide) cs
  split
  · subst c
    exact decodeFrom_reference ['g', 't'] (by decide) (by decide) cs
  split
  · subst c
    exact decodeFrom_reference ['q', 'u', 'o', 't'] (by decide) (by decide) cs
  split
  · subst c
    exact decodeFrom_reference ['#', '1', '0'] (by decide) (by decide) cs
  split
  · subst c
    exact decodeFrom_reference ['#', '1', '3'] (by decide) (by decide) cs
  split
  · subst c
    exact decodeFrom_reference ['#', '9'] (by decide) (by decide) cs
  · by_cases h : c = ' ' <;> simp_all [decodeFrom, isSpace]

/-- A written value reads back. -/
theorem decodeValue_encodeValue (value : List Char) :
    decodeValue (encodeValue value) = some value := by
  induction value with
  | nil => rfl
  | cons c cs ih =>
    simp only [decodeValue, encodeValue, List.flatMap_cons] at ih ⊢
    rw [decodeFrom_encodeChar, ih]
    rfl

end Buildpath.Xml
