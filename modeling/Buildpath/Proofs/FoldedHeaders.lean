import Buildpath.Library.Manifest
import Mathlib.Data.List.DropRight
import Mathlib.Data.List.TakeDrop

/-!
# Folded headers

The value of a header may be folded: it is cut anywhere, and each piece but the first stands on a line of
its own, after one space. Lines end with a line feed, with or without a carriage return before it. However
the headers of a section are folded and whatever their lines end with, reading the section gives the value
of the first header of a name (`mainAttribute?_folded`). The pieces are put together before anything is
trimmed but the start of the first one, and blanks there would be trimmed in the end.
-/

namespace Buildpath

/-- Blanks at the start of a text may be dropped before more is put behind it. -/
theorem Text.trimChars_trimLeft_append (start more : List Char) :
    trimChars (trimLeft start ++ more) = trimChars (start ++ more) := by
  have hleft : trimLeft (trimLeft start ++ more) = trimLeft (start ++ more) := by
    unfold trimLeft
    rw [List.dropWhile_append, List.dropWhile_idempotent, List.dropWhile_append]
  rw [trimChars, trimChars, hleft]

namespace Manifest

/-- What a line ends with. -/
inductive LineEnd where
  | lineFeed
  /-- A carriage return and a line feed. -/
  | both

/-- The characters at the end of a line. -/
def LineEnd.chars : LineEnd → List Char
  | lineFeed => ['\n']
  | both => ['\r', '\n']

/-- Whether a text begins with some lines as its first section, each with an end of its own: the text
stops with the last of them or after its end, or an empty line follows, and then anything. -/
inductive Written : List (List Char) → List Char → Prop where
  | stop : Written [] []
  | last (line : List Char) : Written [line] line
  | empty (lineEnd : LineEnd) (rest : List Char) : Written [] (lineEnd.chars ++ rest)
  | line {lines : List (List Char)} {text : List Char} (line : List Char) (lineEnd : LineEnd)
    (more : Written lines text) : Written (line :: lines) (line ++ (lineEnd.chars ++ text))

/-- Whether lines are those of some headers, however their values are folded. -/
inductive Folded : List Header → List (List Char) → Prop where
  | nil : Folded [] []
  | cons {h : Header} {headers : List Header} {lines : List (List Char)} (first : List Char)
    (pieces : List (List Char)) (value : first ++ pieces.flatten = h.value)
    (more : Folded headers lines) :
    Folded (h :: headers) ((h.name ++ ':' :: ' ' :: first) :: (pieces.map (' ' :: ·) ++ lines))

/-- Whether characters fit on one line. -/
def OnLine (cs : List Char) : Prop := '\r' ∉ cs ∧ '\n' ∉ cs

instance : DecidablePred OnLine := fun cs ↦ inferInstanceAs (Decidable ('\r' ∉ cs ∧ '\n' ∉ cs))

/-- Whether a header can be written: its name is told apart from its value and from the lines before it, and
neither needs a line end. -/
structure Header.Plain (h : Header) : Prop where
  isNamed : h.name ≠ []
  start : h.name.head? ≠ some ' '
  colon : ':' ∉ h.name
  name : OnLine h.name
  value : OnLine h.value

/-- Whether a header has a name, without regard to blanks around it and to the case of ASCII letters. -/
def Header.isFor (h : Header) (name : List Char) : Bool :=
  (Text.trimChars h.name).map Char.toLower = name.map Char.toLower

/-- Whether the first section is over. -/
def Over (lines : List (List Char)) : Prop := ∀ line ∈ lines.head?, line = []

variable {name : List Char} {open? : Option Header} {headers : List Header} {h : Header}
  {line first text : List Char} {lines rest pieces : List (List Char)}

/-! ### Lines of a text -/

/-- Nothing is dropped at the end of a line without carriage returns. -/
private theorem dropReturns (h : '\r' ∉ line) : (line.reverse.dropWhile (· = '\r')).reverse = line := by
  cases hrev : line.reverse with
  | nil => rw [List.reverse_eq_nil_iff.mp hrev]; rfl
  | cons c cs =>
    have hc : c ≠ '\r' := by
      rintro rfl
      exact h (List.mem_reverse.mp (hrev ▸ List.mem_cons_self))
    rw [List.dropWhile_cons_of_neg (by simpa using hc), ← hrev, List.reverse_reverse]

/-- A line that ends is the first line of the text. -/
theorem linesOf_append (h : OnLine line) (lineEnd : LineEnd) (text : List Char) :
    linesOf (line ++ (lineEnd.chars ++ text)) = line :: linesOf text := by
  obtain ⟨hreturn, hfeed⟩ := h
  unfold linesOf
  cases lineEnd with
  | lineFeed =>
    rw [LineEnd.chars, List.singleton_append, Text.splitOn_cons_of_not_mem hfeed, List.map_cons,
      dropReturns hreturn]
  | both =>
    have hfeed' : '\n' ∉ line ++ ['\r'] := by simpa using hfeed
    have htext : line ++ (LineEnd.both.chars ++ text) = (line ++ ['\r']) ++ '\n' :: text := by
      simp [LineEnd.chars]
    have hline : (((line ++ ['\r']).reverse).dropWhile (· = '\r')).reverse = line := by
      rw [List.reverse_append, List.reverse_singleton, List.singleton_append,
        List.dropWhile_cons_of_pos (by simp), dropReturns hreturn]
    rw [htext, Text.splitOn_cons_of_not_mem hfeed', List.map_cons, hline]

/-- The lines of a written text are those that were written, and then the first section is over. -/
theorem Written.linesOf_eq (h : Written lines text) (hlines : ∀ line ∈ lines, OnLine line) :
    ∃ rest, linesOf text = lines ++ rest ∧ Over rest := by
  induction h with
  | stop => exact ⟨[[]], rfl, by simp [Over]⟩
  | last line =>
    obtain ⟨hreturn, hfeed⟩ := hlines line List.mem_cons_self
    refine ⟨[], ?_, nofun⟩
    rw [linesOf, Text.splitOn_of_not_mem hfeed, List.map_singleton, dropReturns hreturn]
    rfl
  | empty lineEnd rest =>
    have hempty : OnLine [] := ⟨List.not_mem_nil, List.not_mem_nil⟩
    exact ⟨[] :: linesOf rest, linesOf_append hempty lineEnd rest, by simp [Over]⟩
  | line line lineEnd more ih =>
    obtain ⟨hline, hmore⟩ := List.forall_mem_cons.mp hlines
    obtain ⟨rest, heq, hover⟩ := ih hmore
    exact ⟨rest, by rw [linesOf_append hline, heq, List.cons_append], hover⟩

private theorem onLine_append {cs cs' : List Char} : OnLine (cs ++ cs') ↔ OnLine cs ∧ OnLine cs' := by
  simp only [OnLine, List.mem_append, not_or, and_and_and_comm]

/-- Headers are folded to lines. -/
theorem Folded.onLine (hfolded : Folded headers lines) (hplain : ∀ h ∈ headers, h.Plain) :
    ∀ line ∈ lines, OnLine line := by
  induction hfolded with
  | nil => exact List.forall_mem_nil _
  | @cons h headers lines first pieces hvalue more ih =>
    obtain ⟨hh, hheaders⟩ := List.forall_mem_cons.mp hplain
    obtain ⟨hfirst, hreturn, hfeed⟩ := onLine_append.mp (hvalue ▸ hh.value)
    have hcolon : OnLine [':', ' '] := by decide
    refine List.forall_mem_cons.mpr ⟨?_, List.forall_mem_append.mpr ⟨?_, ih hheaders⟩⟩
    · exact onLine_append.mpr ⟨hh.name, onLine_append.mpr ⟨hcolon, hfirst⟩⟩
    · intro line hline
      obtain ⟨piece, hpiece, rfl⟩ := List.mem_map.mp hline
      have hspace : OnLine [' '] := by decide
      exact onLine_append.mpr ⟨hspace, fun hc ↦ hreturn (List.mem_flatten_of_mem hpiece hc),
        fun hc ↦ hfeed (List.mem_flatten_of_mem hpiece hc)⟩

/-! ### Headers of lines -/

theorem Header.valueFor?_eq (h : Header) (name : List Char) :
    h.valueFor? name = if h.isFor name then some (Text.trimChars h.value) else none := by
  simp [valueFor?, isFor]

/-- The name of a header stands before its first colon. -/
theorem splitHeader?_append (h : ':' ∉ name) (value : List Char) :
    splitHeader? (name ++ ':' :: value) = some ⟨name, Text.trimLeft value⟩ := by
  have hname : ∀ c ∈ name, decide (c ≠ ':') := fun c hc ↦ decide_eq_true fun heq ↦ h (heq ▸ hc)
  rw [splitHeader?, List.span_eq_takeWhile_dropWhile, List.takeWhile_append_of_pos hname,
    List.dropWhile_append_of_pos hname]
  simp

/-- Where the section is over, the header that was read last is the last one. -/
theorem valueFrom?_over (h : Over rest) :
    valueFrom? name open? rest = open?.bind (·.valueFor? name) := by
  cases rest with
  | nil => rw [valueFrom?]
  | cons line rest =>
    obtain rfl := h line rfl
    rw [valueFrom?]

/-- The pieces of a folded value are put together. -/
theorem valueFrom?_pieces (h : Header) (pieces lines : List (List Char)) :
    valueFrom? name (some h) (pieces.map (' ' :: ·) ++ lines) =
      valueFrom? name (some { h with value := h.value ++ pieces.flatten }) lines := by
  induction pieces generalizing h with
  | nil => simp
  | cons piece pieces ih =>
    rw [List.map_cons, List.cons_append, valueFrom?, Option.map_some, ih, List.flatten_cons,
      List.append_assoc]

/-- A line with a name begins a header, unless the value was found before. -/
theorem valueFrom?_named (hplain : h.Plain) (first : List Char) (lines : List (List Char)) :
    valueFrom? name open? ((h.name ++ ':' :: ' ' :: first) :: lines) =
      (open?.bind (·.valueFor? name)).or
        (valueFrom? name (some ⟨h.name, Text.trimLeft (' ' :: first)⟩) lines) := by
  have hheader := splitHeader?_append hplain.colon (' ' :: first)
  obtain ⟨c, cs, hname⟩ := List.exists_cons_of_ne_nil hplain.isNamed
  have hc : c ≠ ' ' := by
    have hstart := hplain.start
    rw [hname] at hstart
    simpa using hstart
  rw [hname, List.cons_append] at hheader ⊢
  rw [valueFrom?]
  · rw [hheader]
    cases open?.bind (·.valueFor? name) <;> rfl
  · exact nofun
  · exact fun more heq ↦ hc (List.cons.inj heq).1

/-- The value of a name in a section is that of the header before it, or of the first of its headers that
has the name. -/
theorem Folded.valueFrom?_eq (hfolded : Folded headers lines) (hplain : ∀ h ∈ headers, h.Plain)
    (hover : Over rest) : valueFrom? name open? (lines ++ rest) =
      (open?.bind (·.valueFor? name)).or (headers.findSome? (·.valueFor? name)) := by
  induction hfolded generalizing open? with
  | nil => rw [List.nil_append, valueFrom?_over hover, List.findSome?_nil, Option.or_none]
  | @cons h headers lines first pieces hvalue more ih =>
    obtain ⟨hh, hheaders⟩ := List.forall_mem_cons.mp hplain
    have hjoined : Header.valueFor? ⟨h.name, Text.trimLeft (' ' :: first) ++ pieces.flatten⟩ name =
        h.valueFor? name := by
      have hblank : Text.trimLeft (' ' :: first) = Text.trimLeft first :=
        List.dropWhile_cons_of_pos (by decide)
      unfold Header.valueFor?
      rw [hblank, Text.trimChars_trimLeft_append, hvalue]
    rw [List.cons_append, List.append_assoc, valueFrom?_named hh, valueFrom?_pieces, ih hheaders,
      Option.bind_some, hjoined, List.findSome?_cons]
    cases h.valueFor? name <;> rfl

private theorem findSome?_valueFor? (headers : List Header) (name : List Char) :
    headers.findSome? (·.valueFor? name) =
      (headers.find? (·.isFor name)).map fun h ↦ Text.trimChars h.value := by
  induction headers with
  | nil => rfl
  | cons h headers ih =>
    rw [List.findSome?_cons, List.find?_cons, Header.valueFor?_eq, ih]
    cases h.isFor name <;> rfl

/-- However the values of headers are folded, whatever their lines end with and whatever follows the first
empty line, the attribute of a name is the trimmed value of the first header that has the name. -/
theorem mainAttribute?_folded {text name : String} (hplain : ∀ h ∈ headers, h.Plain)
    (hfolded : Folded headers lines) (hwritten : Written lines text.toList) :
    mainAttribute? text name = (headers.find? (·.isFor name.toList)).map fun h ↦
      String.ofList (Text.trimChars h.value) := by
  obtain ⟨rest, hlines, hover⟩ := hwritten.linesOf_eq (hfolded.onLine hplain)
  rw [mainAttribute?, hlines, hfolded.valueFrom?_eq hplain hover, Option.bind_none, Option.none_or,
    findSome?_valueFor?, Option.map_map]
  rfl

/-- Two headers. -/
def versionAndPath : List Header :=
  [⟨"Manifest-Version".toList, "1.0".toList⟩, ⟨"Class-Path".toList, "a.zip b.zip".toList⟩]

/-- Lines of the two headers: the value of the second one is cut before its start and within a word. -/
def foldedLines : List (List Char) :=
  ["Manifest-Version: 1.0".toList, "Class-Path: ".toList, " a.zip b".toList, " .zip".toList]

/-- A text of these lines with both kinds of line ends, and with a section that does not count. -/
def foldedText : String :=
  "Manifest-Version: 1.0\r\nClass-Path: \n a.zip b\r\n .zip\n\r\nClass-Path: ignored.zip"

theorem mainAttribute?_foldedText : (∀ h ∈ versionAndPath, h.Plain) ∧ Folded versionAndPath foldedLines ∧
    Written foldedLines foldedText.toList ∧
    mainAttribute? foldedText "class-path" = some "a.zip b.zip" := by
  have hplain : ∀ h ∈ versionAndPath, h.Plain :=
    List.forall_mem_cons.mpr ⟨⟨by decide, by decide, by decide, by decide, by decide⟩,
      List.forall_mem_singleton.mpr ⟨by decide, by decide, by decide, by decide, by decide⟩⟩
  have hfolded : Folded versionAndPath foldedLines :=
    .cons "1.0".toList [] rfl (.cons [] ["a.zip b".toList, ".zip".toList] rfl .nil)
  have hwritten : Written foldedLines foldedText.toList :=
    .line _ .both <| .line _ .lineFeed <| .line _ .both <| .line _ .lineFeed <|
      .empty .both "Class-Path: ignored.zip".toList
  exact ⟨hplain, hfolded, hwritten,
    (mainAttribute?_folded hplain hfolded hwritten).trans (by decide +kernel)⟩

end Manifest

end Buildpath
