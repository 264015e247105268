import Buildpath.Document.Encode
import Buildpath.Proofs.Document.Nodes

/-!
# The texts of entries

Patterns and paths as they stand in attributes: what is read from an attribute consists of its
characters, and patterns read back from their joined form.
-/

namespace Buildpath

open Xml

namespace Text

/-- The characters of a field are characters of the joined text. -/
theorem mem_joinWith_of_mem {sep c : Char} {fields : List (List Char)} {field : List Char}
    (hf : field ∈ fields) (hc : c ∈ field) : c ∈ joinWith sep fields := by
  induction fields with
  | nil => cases hf
  | cons first fields ih =>
    cases fields with
    | nil =>
      obtain rfl := List.mem_singleton.mp hf
      exact hc
    | cons second fields =>
      rw [joinWith]
      · rcases List.mem_cons.mp hf with rfl | hf
        · exact List.mem_append_left _ hc
        · exact List.mem_append_right _ (List.mem_cons_of_mem _ (ih hf))
      · exact List.cons_ne_nil second fields

/-- The characters of a field are characters of the text. -/
theorem mem_of_mem_splitOn {sep c : Char} {cs field : List Char} (hf : field ∈ splitOn sep cs)
    (hc : c ∈ field) : c ∈ cs := by
  have hjoined : c ∈ joinWith sep (splitOn sep cs) := mem_joinWith_of_mem hf hc
  rwa [joinWith_splitOn] at hjoined

/-- A joined text consists of the characters of its fields and the separator. -/
theorem mem_joinWith {sep c : Char} {fields : List (List Char)}
    (h : c ∈ joinWith sep fields) : c = sep ∨ ∃ field ∈ fields, c ∈ field := by
  induction fields with
  | nil => cases h
  | cons first fields ih =>
    cases fields with
    | nil => exact .inr ⟨first, List.mem_cons_self, h⟩
    | cons second fields =>
      rw [joinWith] at h
      · rcases List.mem_append.mp h with h | h
        · exact .inr ⟨first, List.mem_cons_self, h⟩
        rcases List.mem_cons.mp h with h | h
        · exact .inl h
        obtain hsep | ⟨field, hf, hc⟩ := ih h
        · exact .inl hsep
        · exact .inr ⟨field, List.mem_cons_of_mem first hf, hc⟩
      · exact List.cons_ne_nil second fields

/-- Fields without the separator read back from their joined form. -/
theorem splitOn_joinWith {sep : Char} {fields : List (List Char)} (hne : fields ≠ [])
    (h : ∀ field ∈ fields, sep ∉ field) : splitOn sep (joinWith sep fields) = fields := by
  induction fields with
  | nil => exact absurd rfl hne
  | cons first fields ih =>
    have hfirst := h first List.mem_cons_self
    cases fields with
    | nil => exact splitOn_of_not_mem hfirst
    | cons second fields =>
      rw [joinWith, splitOn_cons_of_not_mem hfirst,
        ih (List.cons_ne_nil second fields) fun field hf ↦ h field (List.mem_cons_of_mem first hf)]
      exact List.cons_ne_nil second fields

end Text

/-- A text that consists of characters of documents. -/
def Storable (s : String) : Prop := ∀ c ∈ s.toList, isDocumentChar c

instance (s : String) : Decidable (Storable s) :=
  decidable_of_iff (s.toList.all isDocumentChar) List.all_eq_true

/-- An entry whose patterns can be joined, and whose texts beside its path can stand in a document. -/
structure Entry.Plain (e : Entry) : Prop where
  patterns : ∀ p ∈ e.inclusions ++ e.exclusions, p ≠ "" ∧ patternSeparator ∉ p.toList ∧ Storable p
  attributes : ∀ a ∈ e.attributes, Storable a.name ∧ Storable a.value
  attachments : ∀ p ∈ e.attachmentPath.toList ++ e.attachmentRoot.toList, Storable p.toString

/-- Patterns that can be joined read back. -/
theorem splitPatterns_joinWith {patterns : List String} (hne : patterns ≠ [])
    (h : ∀ p ∈ patterns, p ≠ "" ∧ patternSeparator ∉ p.toList) :
    splitPatterns (some (String.ofList
      (Text.joinWith patternSeparator (patterns.map String.toList)))) = patterns := by
  have hfields : ∀ field ∈ patterns.map String.toList, patternSeparator ∉ field := by
    intro field hf
    obtain ⟨p, hp, rfl⟩ := List.mem_map.mp hf
    exact (h p hp).2
  rw [splitPatterns, Option.getD_some, String.toList_ofList,
    Text.splitOn_joinWith (by simpa using hne) hfields, List.filter_eq_self.mpr]
  · simp
  · intro field hf
    obtain ⟨p, hp, rfl⟩ := List.mem_map.mp hf
    exact decide_eq_true fun he ↦ (h p hp).1 (String.toList_eq_nil_iff.mp he)

/-- Patterns that were split can be joined, and consist of the characters of the attribute. -/
theorem mem_splitPatterns {value : Option String} {p : String} (h : p ∈ splitPatterns value) :
    p ≠ "" ∧ patternSeparator ∉ p.toList ∧ ∀ c ∈ p.toList, c ∈ (value.getD "").toList := by
  obtain ⟨field, hf, rfl⟩ := List.mem_map.mp h
  obtain ⟨hf, hne⟩ := List.mem_filter.mp hf
  rw [String.toList_ofList]
  refine ⟨?_, Text.not_mem_of_mem_splitOn hf, fun c hc ↦ Text.mem_of_mem_splitOn hf hc⟩
  intro he
  rw [← String.toList_eq_nil_iff, String.toList_ofList] at he
  exact absurd he (of_decide_eq_true hne)

/-! ### Paths -/

namespace Path

private theorem mem_pushSegment {absolute : Bool} {stack : List String} {part segment : String}
    (h : segment ∈ pushSegment absolute stack part) :
    segment ∈ stack ∨ segment = part ∨ segment = parentSegment := by
  unfold pushSegment at h
  split at h
  · exact .inl h
  split at h
  · split at h
    · split at h
      · cases h
      · exact .inr (.inr (List.mem_singleton.mp h))
    · next last rest =>
      split at h
      · exact .inl (List.mem_cons_of_mem last h)
      split at h
      · exact .inl h
      · rcases List.mem_cons.mp h with h | h
        · exact .inr (.inr h)
        · exact .inl h
  · rcases List.mem_cons.mp h with h | h
    · exact .inr (.inl h)
    · exact .inl h

/-- Canonical segments are among the parts, or lead to the parent folder. -/
theorem mem_canonicalSegments {absolute : Bool} {parts : List String} {segment : String}
    (h : segment ∈ canonicalSegments absolute parts) :
    segment ∈ parts ∨ segment = parentSegment := by
  have pushed : ∀ (parts stack : List String), segment ∈ parts.foldl (pushSegment absolute) stack →
      segment ∈ stack ∨ segment ∈ parts ∨ segment = parentSegment := by
    intro parts
    induction parts with
    | nil => exact fun stack h ↦ .inl h
    | cons part parts ih =>
      intro stack h
      rcases ih _ h with h | h | h
      · rcases mem_pushSegment h with h | h | h
        · exact .inl h
        · exact .inr (.inl (h ▸ List.mem_cons_self))
        · exact .inr (.inr h)
      · exact .inr (.inl (List.mem_cons_of_mem part h))
      · exact .inr (.inr h)
  rcases pushed parts [] (List.mem_reverse.mp h) with h | h
  · cases h
  · exact h

/-- A device and what follows it consist of the characters of the text, and of a colon. -/
theorem mem_splitDevice {text : List Char} {device : Option String} {rest : List Char}
    (h : splitDevice text = (device, rest)) :
    (∀ c ∈ (device.getD "").toList, c = ':' ∨ c ∈ text) ∧ ∀ c ∈ rest, c ∈ text := by
  rw [splitDevice, List.span_eq_takeWhile_dropWhile] at h
  split at h
  · next name c rest' hspan =>
    obtain ⟨hname, hrest⟩ := Prod.mk.inj hspan
    split at h
    · obtain ⟨rfl, rfl⟩ := Prod.mk.inj h
      constructor
      · intro d hd
        rw [Option.getD_some, String.toList_ofList] at hd
        rcases List.mem_append.mp hd with hd | hd
        · exact .inr ((List.takeWhile_prefix _).subset (hname ▸ hd))
        · exact .inl (List.mem_singleton.mp hd)
      · intro d hd
        exact (List.dropWhile_suffix _).subset (hrest ▸ List.mem_cons_of_mem c hd)
    · obtain ⟨rfl, rfl⟩ := Prod.mk.inj h
      exact ⟨nofun, fun c hc ↦ hc⟩
  · obtain ⟨rfl, rfl⟩ := Prod.mk.inj h
    exact ⟨nofun, fun c hc ↦ hc⟩

private theorem mem_trimChars {text : List Char} {c : Char} (h : c ∈ Text.trimChars text) :
    c ∈ text := by
  have hleft := List.mem_reverse.mp ((List.dropWhile_suffix _).subset (List.mem_reverse.mp h))
  exact (List.dropWhile_suffix _).subset hleft

/-- The text of a path that was read consists of the characters it was read from, and of slashes, dots
and colons. -/
theorem mem_toString_parse {text : String} {c : Char} (h : c ∈ (parse text).toString.toList) :
    c ∈ text.toList ∨ c = '/' ∨ c = '.' ∨ c = ':' := by
  have slashed : ∀ c ∈ (Text.trimChars text.toList).map (fun c ↦ if c = '\\' then '/' else c),
      c ∈ text.toList ∨ c = '/' := by
    intro c hc
    obtain ⟨d, hd, rfl⟩ := List.mem_map.mp hc
    split
    · exact .inr rfl
    · exact .inl (mem_trimChars hd)
  cases hsplit : splitDevice
      ((Text.trimChars text.toList).map fun c ↦ if c = '\\' then '/' else c) with
  | mk device rest =>
    obtain ⟨hdevice, hrest⟩ := mem_splitDevice hsplit
    have hp : parse text = ⟨device, rest.head? = some '/', canonicalSegments
        (rest.head? = some '/') ((Text.splitOn '/' rest).map String.ofList)⟩ := by
      rw [parse, parseChars, hsplit]
    rw [hp, Path.toString, String.toList_ofList, toChars] at h
    rcases List.mem_append.mp h with h | h
    · rcases List.mem_append.mp h with h | h
      · rcases hdevice c h with h | h
        · exact .inr (.inr (.inr h))
        · exact (slashed c h).imp_right .inl
      · split at h
        · exact .inr (.inl (List.mem_singleton.mp h))
        · cases h
    · rcases Text.mem_joinWith h with h | ⟨field, hf, hc⟩
      · exact .inr (.inl h)
      obtain ⟨segment, hs, rfl⟩ := List.mem_map.mp hf
      rcases mem_canonicalSegments hs with hs | rfl
      · obtain ⟨part, hpart, rfl⟩ := List.mem_map.mp hs
        rw [String.toList_ofList] at hc
        exact (slashed c (hrest c (Text.mem_of_mem_splitOn hpart hc))).imp_right .inl
      · have hdot : c ∈ ['.', '.'] := hc
        exact .inr (.inr (.inl (by simpa using hdot)))

end Path

theorem storable_toString_parse {text : String} (h : Storable text) :
    Storable (Path.parse text).toString := by
  intro c hc
  rcases Path.mem_toString_parse hc with hc | rfl | rfl | rfl
  · exact h c hc
  all_goals decide

/-! ### Entries that were read -/

theorem storable_attribute {n : Node} (hn : Faithful n) {name value : String}
    (h : n.attribute? name = some value) : Storable value := by
  obtain ⟨a, ha, rfl⟩ := Option.map_eq_some_iff.mp h
  exact (hn.attribute (List.mem_of_find?_eq_some ha)).2.2

private theorem plain_splitPatterns {n : Node} (hn : Faithful n) {name p : String}
    (h : p ∈ splitPatterns (n.attribute? name)) :
    p ≠ "" ∧ patternSeparator ∉ p.toList ∧ Storable p := by
  obtain ⟨hne, hsep, hchars⟩ := mem_splitPatterns h
  refine ⟨hne, hsep, fun c hc ↦ ?_⟩
  cases ha : n.attribute? name with
  | none => exact absurd (hchars c hc) (by rw [ha]; exact nofun)
  | some value => exact storable_attribute hn ha c (by simpa [ha] using hchars c hc)

/-- The entry of a faithful element is plain. -/
theorem plain_decodeElement {project : Path} {n : Node} {e : Entry} (hn : Faithful n)
    (h : decodeElement project n = .ok e) : e.Plain := by
  unfold decodeElement at h
  dsimp only at h
  split at h
  · cases h
  · cases h
  · obtain rfl := Except.ok.inj h
    refine ⟨fun p hp ↦ ?_, fun a ha ↦ ?_, fun p hp ↦ ?_⟩
    · rcases List.mem_append.mp hp with hp | hp
      · exact plain_splitPatterns hn hp
      · exact plain_splitPatterns hn hp
    · obtain ⟨group, hg, ha⟩ := List.mem_flatMap.mp ha
      obtain ⟨item, hi, ha⟩ := List.mem_filterMap.mp ha
      have hitem := (hn.child (List.mem_filter.mp hg).1).child hi
      split at ha
      · split at ha
        · next name value hname hvalue =>
          obtain rfl := Option.some.inj ha
          exact ⟨storable_attribute hitem hname, storable_attribute hitem hvalue⟩
        · cases ha
      · cases ha
    · have attached : ∀ name, p ∈ ((n.attribute? name).map Path.parse).toList →
          Storable p.toString := by
        intro name hp
        obtain ⟨value, hv, rfl⟩ := Option.map_eq_some_iff.mp (Option.mem_toList.mp hp)
        exact storable_toString_parse (storable_attribute hn hv)
      rcases List.mem_append.mp hp with hp | hp
      · exact attached _ hp
      · exact attached _ hp

/-- The entries of a document that was read are plain. -/
theorem plain_of_decode {project : Path} {text : String} {d : Document}
    (h : Document.decode project text = .ok d) : ∀ e ∈ d.entries, e.Plain := by
  obtain ⟨root, hroot, h⟩ := exists_root_of_decode h
  refine foldlM_keeps (I := fun d : Document ↦ ∀ e ∈ d.entries, e.Plain)
    (fun n hn d d' hd hs ↦ ?_) (fun e he ↦ absurd he List.not_mem_nil) h
  cases takes_of_decodeChild hs with
  | text ht => exact hd
  | kept ht hname => exact hd
  | entry hname he =>
    intro e' he'
    rcases List.mem_append.mp he' with he' | he'
    · exact hd e' he'
    · obtain rfl := List.mem_singleton.mp he'
      exact plain_decodeElement (hroot.child hn) he

end Buildpath
