import Buildpath.Proofs.Path

/-!
# Paths that read back

The text of a path that was read is not always read as the same path: blanks are dropped at its ends,
and a colon in its first name makes a device of what stands before. Where neither happens the path is
`Legible`, and exactly then its text reads back as the path (`Path.parse_toString_iff`). That no other
path reads back follows from lengths: the text of a path is no longer than the trimmed text that it
was read from, so that nothing can have been trimmed.
-/

namespace Buildpath

/-! ### Trimming -/

namespace Text

variable {cs : List Char}

private theorem dropWhile_blank_eq_self : cs.dropWhile isBlank = cs ↔ ∀ c ∈ cs.head?, ¬ isBlank c := by
  cases cs with
  | nil => simp
  | cons c cs =>
    rw [List.dropWhile_cons, List.head?_cons]
    by_cases hc : isBlank c
    · have hlonger : cs.dropWhile isBlank ≠ c :: cs := by
        intro h
        have hlength := (List.dropWhile_suffix isBlank (l := cs)).length_le
        rw [h, List.length_cons] at hlength
        omega
      simp [hc, hlonger]
    · simp [hc]

private theorem trimRight_sublist (cs : List Char) : (trimRight cs).Sublist cs := by
  rw [trimRight, ← List.reverse_sublist, List.reverse_reverse]
  exact List.dropWhile_sublist isBlank

/-- Trimming drops characters. -/
theorem trimChars_sublist (cs : List Char) : (trimChars cs).Sublist cs :=
  (trimRight_sublist _).trans (List.dropWhile_sublist isBlank)

/-- No blank begins a trimmed text. -/
theorem not_isBlank_of_mem_head?_trimChars {c : Char} (h : c ∈ (trimChars cs).head?) : ¬ isBlank c := by
  have hprefix : trimChars cs <+: trimLeft cs := by
    rw [trimChars, trimRight, ← List.reverse_suffix, List.reverse_reverse]
    exact List.dropWhile_suffix isBlank
  obtain ⟨rest, hrest⟩ := hprefix
  have hleft := List.head?_dropWhile_not isBlank cs
  rw [← trimLeft, ← hrest, List.head?_append, Option.mem_def.mp h] at hleft
  simpa using hleft

/-- Exactly the texts that no blank begins or ends stay as they are. -/
theorem trimChars_eq_self_iff : trimChars cs = cs ↔
    (∀ c ∈ cs.head?, ¬ isBlank c) ∧ ∀ c ∈ cs.getLast?, ¬ isBlank c := by
  have hright : trimRight cs = cs ↔ ∀ c ∈ cs.getLast?, ¬ isBlank c := by
    rw [trimRight, ← List.head?_reverse, ← dropWhile_blank_eq_self, List.reverse_eq_iff]
  constructor
  · intro h
    -- the text is no longer than what was trimmed on the left, and that no longer than the text
    have hlength : cs.length ≤ (trimLeft cs).length := by
      have hle := (trimRight_sublist (trimLeft cs)).length_le
      rwa [← trimChars, h] at hle
    have hleft : trimLeft cs = cs := (List.dropWhile_sublist isBlank).eq_of_length_le hlength
    exact ⟨dropWhile_blank_eq_self.mp hleft, hright.mp (by rwa [trimChars, hleft] at h)⟩
  · rintro ⟨hhead, hlast⟩
    rw [trimChars, trimLeft, dropWhile_blank_eq_self.mpr hhead, hright.mpr hlast]

/-- A joined text with a separator at its end has a separator after each of its fields. -/
theorem joinWith_terminated {sep : Char} {fields : List (List Char)} (h : fields ≠ []) :
    joinWith sep fields ++ [sep] = fields.flatMap fun field ↦ field ++ [sep] := by
  induction fields with
  | nil => exact absurd rfl h
  | cons first fields ih =>
    cases fields with
    | nil => simp [joinWith]
    | cons second fields =>
      rw [List.flatMap_cons, ← ih (List.cons_ne_nil second fields), joinWith]
      · simp
      · exact List.cons_ne_nil second fields

theorem head?_joinWith {sep : Char} {first : List Char} (h : first ≠ []) (fields : List (List Char)) :
    (joinWith sep (first :: fields)).head? = first.head? := by
  cases fields with
  | nil => rfl
  | cons second fields =>
    obtain ⟨c, first, rfl⟩ := List.exists_cons_of_ne_nil h
    rfl

theorem getLast?_joinWith {sep : Char} {fields : List (List Char)} (h : ∀ field ∈ fields, field ≠ []) :
    (joinWith sep fields).getLast? = fields.getLast?.bind List.getLast? := by
  induction fields with
  | nil => rfl
  | cons first fields ih =>
    cases fields with
    | nil => rfl
    | cons second fields =>
      have hrest := ih fun field hf ↦ h field (List.mem_cons_of_mem first hf)
      have hne : joinWith sep (second :: fields) ≠ [] := by
        intro hnil
        have hhead : (joinWith sep (second :: fields)).head? = second.head? :=
          head?_joinWith (h second (by simp)) fields
        rw [hnil] at hhead
        exact h second (by simp) (List.head?_eq_none_iff.mp hhead.symm)
      obtain ⟨c, rest, hcons⟩ := List.exists_cons_of_ne_nil hne
      rw [joinWith, hcons, List.getLast?_append, List.getLast?_cons_cons, ← hcons, hrest,
        List.getLast?_cons_cons]
      · cases hlast : (second :: fields).getLast? with
        | none => simp at hlast
        | some last =>
          obtain ⟨c, last', hlast'⟩ := List.exists_cons_of_ne_nil
            (h last (List.mem_cons_of_mem first (List.mem_of_getLast? hlast)))
          simp [hlast', List.getLast?_cons]
      · exact List.cons_ne_nil second fields

end Text

namespace Path

variable {p : Path} {absolute : Bool} {parts : List String}

/-! ### The length of a path that was read -/

/-- The length of segments with a slash after each. -/
private def width (segments : List String) : Nat :=
  (segments.flatMap fun segment ↦ segment.toList ++ ['/']).length

private theorem width_cons (segment : String) (segments : List String) :
    width (segment :: segments) = segment.toList.length + 1 + width segments := by
  rw [width, List.flatMap_cons, List.length_append, List.length_append]
  rfl

private theorem width_reverse (segments : List String) : width segments.reverse = width segments := by
  have happend : ∀ above below, width (above ++ below) = width above + width below := by
    intro above below
    rw [width, List.flatMap_append, List.length_append]
    rfl
  induction segments with
  | nil => rfl
  | cons segment segments ih =>
    rw [List.reverse_cons, happend, ih, width_cons, width_cons]
    exact Nat.add_comm _ _

private theorem width_pushSegment (absolute : Bool) (stack : List String) (part : String) :
    width (pushSegment absolute stack part) ≤ width (part :: stack) := by
  unfold pushSegment
  split
  · rw [width_cons]; omega
  split
  · next hparent =>
    rw [hparent]
    split
    · split
      · exact Nat.zero_le _
      · exact Nat.le_refl _
    · next last rest =>
      split
      · rw [width_cons, width_cons]; omega
      split
      · rw [width_cons parentSegment]; omega
      · exact Nat.le_refl _
  · exact Nat.le_refl _

private theorem width_canonicalSegments (absolute : Bool) (parts : List String) :
    width (canonicalSegments absolute parts) ≤ width parts := by
  have pushed : ∀ parts stack : List String,
      width (parts.foldl (pushSegment absolute) stack) ≤ width stack + width parts := by
    intro parts
    induction parts with
    | nil => exact fun stack ↦ Nat.le_refl _
    | cons part parts ih =>
      intro stack
      have hstep := width_pushSegment absolute stack part
      have hrest := ih (pushSegment absolute stack part)
      rw [width_cons] at hstep ⊢
      rw [List.foldl_cons]
      omega
  have hwidth := pushed parts []
  rw [canonicalSegments, width_reverse]
  exact Nat.le_trans hwidth (Nat.le_of_eq (Nat.zero_add _))

private theorem length_joinWith_toList {segments : List String} (h : segments ≠ []) :
    (Text.joinWith '/' (segments.map String.toList)).length + 1 = width segments := by
  have hjoined : (Text.joinWith '/' (segments.map String.toList) ++ ['/']).length = _ :=
    congrArg List.length (Text.joinWith_terminated (by simpa using h))
  rwa [List.length_append, List.flatMap_map] at hjoined

private theorem width_splitOn (text : List Char) :
    width ((Text.splitOn '/' text).map String.ofList) = text.length + 1 := by
  have hne : (Text.splitOn '/' text).map String.ofList ≠ [] := by simp [Text.splitOn_ne_nil]
  rw [← length_joinWith_toList hne, List.map_map]
  simp [Function.comp_def, Text.joinWith_splitOn]

/-- A slash at the start begins with an empty part, which is dropped. -/
private theorem canonicalSegments_slash (absolute : Bool) (text : List Char) :
    canonicalSegments absolute ((Text.splitOn '/' ('/' :: text)).map String.ofList) =
      canonicalSegments absolute ((Text.splitOn '/' text).map String.ofList) := by
  rw [Text.splitOn, if_pos rfl]
  rfl

/-- The slash and the segments of a path, as they stand after its device. -/
private def body (p : Path) : List Char :=
  (if p.absolute then ['/'] else []) ++ Text.joinWith '/' (p.segments.map String.toList)

private theorem toChars_eq_body (p : Path) : p.toChars = (p.device.getD "").toList ++ p.body :=
  List.append_assoc _ _ _

/-- What is read after a device is no shorter than what stands there in the text of the path. -/
private theorem length_body_le (device : Option String) (text : List Char) :
    (body ⟨device, text.head? = some '/', canonicalSegments (text.head? = some '/')
      ((Text.splitOn '/' text).map String.ofList)⟩).length ≤ text.length := by
  have bound : ∀ (absolute : Bool) (rest : List Char),
      (Text.joinWith '/' ((canonicalSegments absolute
        ((Text.splitOn '/' rest).map String.ofList)).map String.toList)).length ≤ rest.length := by
    intro absolute rest
    by_cases hnil : canonicalSegments absolute ((Text.splitOn '/' rest).map String.ofList) = []
    · rw [hnil]
      exact Nat.zero_le _
    · have hwidth := width_canonicalSegments absolute ((Text.splitOn '/' rest).map String.ofList)
      rw [width_splitOn, ← length_joinWith_toList hnil] at hwidth
      exact Nat.le_of_succ_le_succ hwidth
  unfold body
  cases text with
  | nil => exact bound false []
  | cons c rest =>
    by_cases hc : c = '/'
    · subst hc
      rw [canonicalSegments_slash]
      exact Nat.succ_le_succ (bound true rest)
    · simpa [hc] using bound false (c :: rest)

/-! ### The device of a text -/

/-- What a device consists of: a name without colons and slashes that no blank begins, and a colon. -/
structure IsDevice (device : String) (name : List Char) : Prop where
  eq : device.toList = name ++ [':']
  nonempty : name ≠ []
  plain : ∀ c ∈ name, c ≠ ':' ∧ c ≠ '/' ∧ c ≠ '\\'
  start : ∀ c ∈ name.head?, ¬ Text.isBlank c

/-- What stands before the first colon is a device with it if it is a name. -/
private theorem splitDevice_append {name : List Char} (h : ':' ∉ name) (rest : List Char) :
    splitDevice (name ++ ':' :: rest) =
      if name ≠ [] ∧ '/' ∉ name then (some (String.ofList (name ++ [':'])), rest)
      else (none, name ++ ':' :: rest) := by
  have hspan : (name ++ ':' :: rest).span (· ≠ ':') = (name, ':' :: rest) := by
    have hpos : ∀ c ∈ name, (decide (c ≠ ':')) = true := fun c hc ↦
      decide_eq_true fun he ↦ h (he ▸ hc)
    rw [List.span_eq_takeWhile_dropWhile, List.takeWhile_append_of_pos hpos,
      List.dropWhile_append_of_pos hpos]
    simp
  rw [splitDevice, hspan]

private theorem splitDevice_of_not_mem {text : List Char} (h : ':' ∉ text) :
    splitDevice text = (none, text) := by
  have hspan : text.span (· ≠ ':') = (text, []) := by
    have hpos : ∀ c ∈ text, (decide (c ≠ ':')) = true := fun c hc ↦
      decide_eq_true fun he ↦ h (he ▸ hc)
    rw [← List.append_nil text, List.span_eq_takeWhile_dropWhile, List.takeWhile_append_of_pos hpos,
      List.dropWhile_append_of_pos hpos]
    simp
  rw [splitDevice, hspan]

private theorem splitDevice_slash {start : List Char} (h : ':' ∉ start) (rest : List Char) :
    splitDevice (start ++ '/' :: rest) = (none, start ++ '/' :: rest) := by
  by_cases hc : ':' ∈ rest
  · obtain ⟨before, after, rfl, hbefore⟩ := List.eq_append_cons_of_mem hc
    have hname : ':' ∉ start ++ '/' :: before := by simp [h, hbefore]
    have htext : start ++ '/' :: (before ++ ':' :: after) =
        (start ++ '/' :: before) ++ ':' :: after := by simp
    rw [htext, splitDevice_append hname, if_neg]
    exact fun hno ↦ hno.2 (by simp)
  · exact splitDevice_of_not_mem (by simp [h, hc])

/-- A text is its device and the rest. -/
private theorem splitDevice_cases (text : List Char) :
    (∃ name, (name ≠ [] ∧ ∀ c ∈ name, c ≠ ':' ∧ c ≠ '/') ∧ ∃ rest, text = name ++ ':' :: rest ∧
      splitDevice text = (some (String.ofList (name ++ [':'])), rest)) ∨
    splitDevice text = (none, text) := by
  by_cases hc : ':' ∈ text
  · obtain ⟨name, rest, rfl, hname⟩ := List.eq_append_cons_of_mem hc
    rw [splitDevice_append hname]
    split
    · next hplain =>
      exact .inl ⟨name, ⟨hplain.1, fun c hc ↦ ⟨fun he ↦ hname (he ▸ hc), fun he ↦
        hplain.2 (he ▸ hc)⟩⟩, rest, rfl, rfl⟩
    · exact .inr rfl
  · exact .inr (splitDevice_of_not_mem hc)

/-! ### What was read -/

/-- What holds of a path that was read: its segments are in normal form, and its device is a name with
a colon. -/
structure IsRead (p : Path) : Prop where
  canonical : p.Canonical
  device : ∀ device ∈ p.device, ∃ name, IsDevice device name

/-- The characters of a text that is read: without blanks at its ends, and with slashes only. -/
private def slashed (text : List Char) : List Char :=
  (Text.trimChars text).map fun c ↦ if c = '\\' then '/' else c

private theorem parseChars_eq (text : List Char) : parseChars text =
    ⟨(splitDevice (slashed text)).1, (splitDevice (slashed text)).2.head? = some '/',
      canonicalSegments ((splitDevice (slashed text)).2.head? = some '/')
        ((Text.splitOn '/' (splitDevice (slashed text)).2).map String.ofList)⟩ := rfl

private theorem ne_backslash_of_mem_slashed {text : List Char} {c : Char} (h : c ∈ slashed text) :
    c ≠ '\\' := by
  obtain ⟨d, -, rfl⟩ := List.mem_map.mp h
  split
  · decide
  · assumption

private theorem not_isBlank_of_mem_head?_slashed {text : List Char} {c : Char}
    (h : c ∈ (slashed text).head?) : ¬ Text.isBlank c := by
  rw [slashed, List.head?_map] at h
  obtain ⟨d, hd, rfl⟩ := Option.map_eq_some_iff.mp h
  split
  · decide
  · exact Text.not_isBlank_of_mem_head?_trimChars hd

/-- Every path that is read from a text has the shape of those that are read. -/
theorem isRead_parse (text : String) : (parse text).IsRead := by
  refine ⟨canonical_parse text, fun device hdevice ↦ ?_⟩
  rw [parse, parseChars_eq] at hdevice
  rcases splitDevice_cases (slashed text.toList) with ⟨name, ⟨hname, hplain⟩, rest, htext, hsplit⟩ | hsplit
  · rw [hsplit] at hdevice
    obtain rfl := Option.some.inj hdevice
    refine ⟨name, String.toList_ofList, hname, fun c hc ↦ ⟨(hplain c hc).1, (hplain c hc).2, ?_⟩,
      fun c hc ↦ not_isBlank_of_mem_head?_slashed (?_ : c ∈ (slashed text.toList).head?)⟩
    · exact ne_backslash_of_mem_slashed (htext ▸ List.mem_append_left _ hc)
    · rw [htext, List.head?_append, Option.mem_def.mp hc]
      rfl
  · rw [hsplit] at hdevice
    cases hdevice

/-- A path that was read is no longer than the trimmed text that it was read from. -/
private theorem length_toChars_parseChars (text : List Char) :
    (parseChars text).toChars.length ≤ (Text.trimChars text).length := by
  have hlength : (slashed text).length = (Text.trimChars text).length := List.length_map _
  rw [← hlength, toChars_eq_body, List.length_append, parseChars_eq]
  have hbody := length_body_le (splitDevice (slashed text)).1 (splitDevice (slashed text)).2
  rcases splitDevice_cases (slashed text) with ⟨name, -, rest, htext, hsplit⟩ | hsplit
  · rw [hsplit] at hbody ⊢
    rw [htext, Option.getD_some, String.toList_ofList]
    simp only [List.length_append, List.length_cons, List.length_nil] at hbody ⊢
    omega
  · rw [hsplit] at hbody ⊢
    simpa using hbody

/-! ### Reading the text of a path -/

theorem ne_empty_of_mem (hp : p.Canonical) : ∀ s ∈ p.segments, s ≠ "" := by
  obtain ⟨ups, names, hsegments, -, hnames⟩ := hp
  intro s hs
  rcases List.mem_append.mp (hsegments ▸ hs) with hs | hs
  · obtain rfl := (List.mem_replicate.mp hs).2
    decide
  · exact (hnames s hs).1

private theorem toList_ne_nil_of_mem (hp : p.Canonical) :
    ∀ field ∈ p.segments.map String.toList, field ≠ [] := by
  intro field hf
  obtain ⟨s, hs, rfl⟩ := List.mem_map.mp hf
  exact fun h ↦ ne_empty_of_mem hp s hs (String.toList_eq_nil_iff.mp h)

private theorem head?_body (hp : p.Canonical) : p.body.head? = some '/' ↔ p.absolute := by
  unfold body
  cases p.absolute with
  | true => simp
  | false =>
    cases hsegments : p.segments with
    | nil => simp [Text.joinWith]
    | cons s rest =>
      have hmem : s ∈ p.segments := hsegments ▸ List.mem_cons_self
      have hne : s.toList ≠ [] := toList_ne_nil_of_mem hp _ (List.mem_map_of_mem hmem)
      rw [if_neg Bool.false_ne_true, List.nil_append, List.map_cons, Text.head?_joinWith hne]
      have hslash : s.toList.head? ≠ some '/' := fun h ↦
        (isPart_of_mem hp hmem).1 (List.mem_of_mem_head? h)
      simp [hslash]

private theorem canonicalSegments_body (hp : p.Canonical) :
    canonicalSegments p.absolute ((Text.splitOn '/' p.body).map String.ofList) = p.segments := by
  have hjoined : canonicalSegments p.absolute ((Text.splitOn '/'
      (Text.joinWith '/' (p.segments.map String.toList))).map String.ofList) = p.segments := by
    by_cases hnil : p.segments = []
    · rw [hnil]
      rfl
    · rw [Text.splitOn_joinWith (by simpa using hnil), List.map_map]
      · have hread : (String.ofList ∘ String.toList) = id := funext fun s ↦ String.ofList_toList
        rw [hread, List.map_id, canonicalSegments_of_canonical hp]
      · intro field hf
        obtain ⟨s, hs, rfl⟩ := List.mem_map.mp hf
        exact (isPart_of_mem hp hs).1
  unfold body
  split
  · rw [List.singleton_append, canonicalSegments_slash, hjoined]
  · rw [List.nil_append, hjoined]

private theorem toChars_device {device : String} {name : List Char} (h : p.device = some device)
    (hdevice : IsDevice device name) : p.toChars = name ++ ':' :: p.body := by
  rw [toChars_eq_body, h, Option.getD_some, hdevice.eq, List.append_assoc]
  rfl

private theorem toChars_no_device (h : p.device = none) : p.toChars = p.body := by
  rw [toChars_eq_body, h]
  rfl

private theorem ne_backslash_of_mem_toChars (hp : p.IsRead) {c : Char} (h : c ∈ p.toChars) :
    c ≠ '\\' := by
  have hbody : ∀ c ∈ p.body, c ≠ '\\' := by
    intro c hc
    rcases List.mem_append.mp hc with hc | hc
    · split at hc
      · obtain rfl := List.mem_singleton.mp hc
        decide
      · cases hc
    · rcases Text.mem_joinWith hc with rfl | ⟨field, hf, hc⟩
      · decide
      · obtain ⟨s, hs, rfl⟩ := List.mem_map.mp hf
        exact fun he ↦ (isPart_of_mem hp.canonical hs).2 (he ▸ hc)
  cases hdevice : p.device with
  | none => exact hbody c (toChars_no_device hdevice ▸ h)
  | some device =>
    obtain ⟨name, hname⟩ := hp.device device hdevice
    rw [toChars_device hdevice hname] at h
    rcases List.mem_append.mp h with h | h
    · exact (hname.plain c h).2.2
    · rcases List.mem_cons.mp h with rfl | h
      · decide
      · exact hbody c h

/-- A device is found where it stands. -/
private theorem splitDevice_device {device : String} {name : List Char} (h : IsDevice device name)
    (rest : List Char) : splitDevice (name ++ ':' :: rest) = (some device, rest) := by
  have hcolon : ':' ∉ name := fun hc ↦ (h.plain _ hc).1 rfl
  have hslash : '/' ∉ name := fun hc ↦ (h.plain _ hc).2.1 rfl
  rw [splitDevice_append hcolon, if_pos ⟨h.nonempty, hslash⟩, ← h.eq, String.ofList_toList]

/-- Behind its device the text of a path goes on with the slash and the segments. -/
private theorem splitDevice_toChars (hp : p.IsRead) (h : (splitDevice p.toChars).1 = p.device) :
    splitDevice p.toChars = (p.device, p.body) := by
  cases hdevice : p.device with
  | none =>
    rw [hdevice] at h
    rcases splitDevice_cases p.toChars with ⟨name, -, rest, -, hsplit⟩ | hsplit
    · rw [hsplit] at h
      cases h
    · rw [hsplit, toChars_no_device hdevice]
  | some device =>
    obtain ⟨name, hname⟩ := hp.device device hdevice
    rw [toChars_device hdevice hname, splitDevice_device hname]

/-- The text of a path is read as the path exactly if it is not trimmed and no other device is found. -/
private theorem parseChars_toChars_iff (hp : p.IsRead) : parseChars p.toChars = p ↔
    Text.trimChars p.toChars = p.toChars ∧ (splitDevice p.toChars).1 = p.device := by
  have hslashed (h : Text.trimChars p.toChars = p.toChars) : slashed p.toChars = p.toChars := by
    rw [slashed, h]
    exact (List.map_congr_left fun c hc ↦ if_neg (ne_backslash_of_mem_toChars hp hc)).trans
      (List.map_id _)
  constructor
  · intro h
    have hlength := length_toChars_parseChars p.toChars
    rw [h] at hlength
    have htrim := (Text.trimChars_sublist p.toChars).eq_of_length_le hlength
    refine ⟨htrim, ?_⟩
    have hdevice := congrArg Path.device h
    rwa [parseChars_eq, hslashed htrim] at hdevice
  · rintro ⟨htrim, hdevice⟩
    have habsolute : decide (p.body.head? = some '/') = p.absolute :=
      Bool.eq_iff_iff.mpr (decide_eq_true_iff.trans (head?_body hp.canonical))
    rw [parseChars_eq, hslashed htrim, splitDevice_toChars hp hdevice, habsolute,
      canonicalSegments_body hp.canonical]

/-! ### Legible paths -/

/-- A path whose text neither begins nor ends with a blank and shows no device that the path has not. -/
structure Legible (p : Path) : Prop where
  /-- The last segment ends with no blank. -/
  last : ∀ s ∈ p.lastSegment?, ∀ c ∈ s.toList.getLast?, ¬ Text.isBlank c
  /-- A first segment that begins the text begins with no blank, and holds no colon but at its start. -/
  first : p.device = none → p.absolute = false → ∀ s ∈ p.firstSegment?,
    (∀ c ∈ s.toList.head?, ¬ Text.isBlank c) ∧ (':' ∈ s.toList → s.toList.head? = some ':')

private theorem isBlank_slash : ¬ Text.isBlank '/' := by decide

private theorem isBlank_colon : ¬ Text.isBlank ':' := by decide

/-- The text of a path ends with a blank exactly if its last segment does. -/
private theorem getLast?_toChars_iff (hp : p.IsRead) :
    (∀ c ∈ p.toChars.getLast?, ¬ Text.isBlank c) ↔
      ∀ s ∈ p.lastSegment?, ∀ c ∈ s.toList.getLast?, ¬ Text.isBlank c := by
  have hjoined : (Text.joinWith '/' (p.segments.map String.toList)).getLast? = _ :=
    Text.getLast?_joinWith (toList_ne_nil_of_mem hp.canonical)
  rw [List.getLast?_map] at hjoined
  rw [toChars, List.getLast?_append, hjoined, lastSegment?]
  cases hlast : p.segments.getLast? with
  | some last =>
    have hne := toList_ne_nil_of_mem hp.canonical _
      (List.mem_map_of_mem (List.mem_of_getLast? hlast))
    simp [List.getLast?_eq_some_getLast hne]
  | none =>
    -- without segments the text ends with the slash or with the colon of the device
    refine ⟨fun _ s hs ↦ absurd hs (Option.not_mem_none s), fun _ c hc ↦ ?_⟩
    rw [Option.map_none, Option.bind_none, Option.none_or, List.getLast?_append] at hc
    cases habsolute : p.absolute with
    | true =>
      obtain rfl : '/' = c := by simpa [habsolute] using hc
      exact isBlank_slash
    | false =>
      cases hdevice : p.device with
      | none => simp [habsolute, hdevice] at hc
      | some device =>
        obtain ⟨name, hname⟩ := hp.device device hdevice
        obtain rfl : ':' = c := by simpa [habsolute, hdevice, hname.eq] using hc
        exact isBlank_colon

/-- A text that begins with a device or with a slash begins with no blank. -/
private theorem head?_toChars_iff (hp : p.IsRead) :
    (∀ c ∈ p.toChars.head?, ¬ Text.isBlank c) ↔
      (p.device = none → p.absolute = false →
        ∀ s ∈ p.firstSegment?, ∀ c ∈ s.toList.head?, ¬ Text.isBlank c) := by
  cases hdevice : p.device with
  | some device =>
    obtain ⟨name, hname⟩ := hp.device device hdevice
    have hhead : (name ++ ':' :: p.body).head? = name.head? := by
      cases name with
      | nil => exact absurd rfl hname.nonempty
      | cons c name => rfl
    rw [toChars_device hdevice hname, hhead]
    exact ⟨fun _ hnone ↦ absurd hnone (Option.some_ne_none device), fun _ ↦ hname.start⟩
  | none =>
    rw [toChars_no_device hdevice, body]
    cases p.absolute with
    | true =>
      refine ⟨fun _ _ hrelative ↦ absurd hrelative.symm Bool.false_ne_true, fun _ c hc ↦ ?_⟩
      obtain rfl : '/' = c := by simpa using hc
      exact isBlank_slash
    | false =>
      rw [if_neg Bool.false_ne_true, List.nil_append, firstSegment?]
      cases hsegments : p.segments with
      | nil => simp [Text.joinWith]
      | cons s rest =>
        have hne : s.toList ≠ [] := toList_ne_nil_of_mem hp.canonical _
          (List.mem_map_of_mem (hsegments ▸ List.mem_cons_self))
        rw [List.map_cons, Text.head?_joinWith hne]
        simp

/-- Where a name begins a text, the first colon behind its first character makes it a device. -/
private theorem splitDevice_joinWith {s : String} (hs : '/' ∉ s.toList) (rest : List String) :
    (splitDevice (Text.joinWith '/' ((s :: rest).map String.toList))).1 = none ↔
      (':' ∈ s.toList → s.toList.head? = some ':') := by
  obtain ⟨tail, htail, hslash⟩ : ∃ tail, Text.joinWith '/' ((s :: rest).map String.toList) =
      s.toList ++ tail ∧ (tail = [] ∨ ∃ more, tail = '/' :: more) := by
    cases rest with
    | nil => exact ⟨[], (List.append_nil _).symm, .inl rfl⟩
    | cons _ _ => exact ⟨_, rfl, .inr ⟨_, rfl⟩⟩
  rw [htail]
  by_cases hc : ':' ∈ s.toList
  · obtain ⟨name, after, hname, hbefore⟩ := List.eq_append_cons_of_mem hc
    have hplain : '/' ∉ name := fun h ↦ hs (hname ▸ List.mem_append_left _ h)
    rw [hname, List.append_assoc, List.cons_append, splitDevice_append hbefore]
    cases name with
    | nil => simp
    | cons c name =>
      have hfirst : c ≠ ':' := fun he ↦ hbefore (he ▸ List.mem_cons_self)
      simp [hplain, hfirst]
  · have hnone : (splitDevice (s.toList ++ tail)).1 = none := by
      rcases hslash with rfl | ⟨more, rfl⟩
      · rw [List.append_nil, splitDevice_of_not_mem hc]
      · rw [splitDevice_slash hc]
    exact ⟨fun _ h ↦ absurd h hc, fun _ ↦ hnone⟩

/-- Only a first segment at the start of a text can show a device that the path has not. -/
private theorem splitDevice_toChars_iff (hp : p.IsRead) :
    (splitDevice p.toChars).1 = p.device ↔
      (p.device = none → p.absolute = false →
        ∀ s ∈ p.firstSegment?, ':' ∈ s.toList → s.toList.head? = some ':') := by
  cases hdevice : p.device with
  | some device =>
    refine ⟨fun _ hnone ↦ absurd hnone (Option.some_ne_none device), fun _ ↦ ?_⟩
    obtain ⟨name, hname⟩ := hp.device device hdevice
    rw [toChars_device hdevice hname, splitDevice_device hname]
  | none =>
    rw [toChars_no_device hdevice, body]
    cases p.absolute with
    | true =>
      exact ⟨fun _ _ hrelative ↦ absurd hrelative.symm Bool.false_ne_true,
        fun _ ↦ congrArg Prod.fst (splitDevice_slash List.not_mem_nil _)⟩
    | false =>
      rw [if_neg Bool.false_ne_true, List.nil_append, firstSegment?]
      cases hsegments : p.segments with
      | nil => exact ⟨fun _ _ _ s hs ↦ absurd hs (Option.not_mem_none s), fun _ ↦ rfl⟩
      | cons s rest =>
        have hslash := (isPart_of_mem hp.canonical (hsegments ▸ List.mem_cons_self)).1
        rw [splitDevice_joinWith hslash]
        simp

/-- The text of a path that was read is read as the same path exactly if the path is legible. -/
theorem parse_toString_iff (text : String) :
    parse (parse text).toString = parse text ↔ (parse text).Legible := by
  have hp := isRead_parse text
  rw [parse, Path.toString, String.toList_ofList, parseChars_toChars_iff hp, Text.trimChars_eq_self_iff,
    head?_toChars_iff hp, getLast?_toChars_iff hp, splitDevice_toChars_iff hp]
  constructor
  · rintro ⟨⟨hhead, hlast⟩, hcolon⟩
    exact ⟨hlast, fun hdevice habsolute s hs ↦
      ⟨hhead hdevice habsolute s hs, hcolon hdevice habsolute s hs⟩⟩
  · intro h
    exact ⟨⟨fun hdevice habsolute s hs ↦ (h.first hdevice habsolute s hs).1, h.last⟩,
      fun hdevice habsolute s hs ↦ (h.first hdevice habsolute s hs).2⟩

/-- A name with a colon is read as a device where nothing stands before it any more. -/
theorem parse_toString_colon : ∃ text : String, parse (parse text).toString ≠ parse text :=
  ⟨"./a:b", by decide⟩

end Path

end Buildpath
