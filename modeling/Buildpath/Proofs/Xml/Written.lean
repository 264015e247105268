import Buildpath.Proofs.Xml.Pieces

/-!
# Written tags

Tags as they are written: names without prefixes, values escaped between double quotes. A written tag
reads back, and it opens an element exactly if its attributes have different names.
-/

namespace Buildpath.Xml

/-! ### Characters of values -/

private theorem isDocumentChar_reference {body : List Char} {d : Char}
    (h : reference? body = some d) : isDocumentChar d := by
  have numbered : ∀ {base : Nat} {digits : List Char},
      (number? base digits).bind numberedChar? = some d → isDocumentChar d := by
    intro base digits h
    obtain ⟨n, -, h⟩ := Option.bind_eq_some_iff.mp h
    obtain ⟨-, h⟩ := Option.ite_none_right_eq_some.mp h
    obtain ⟨hc, hd⟩ := Option.ite_none_right_eq_some.mp h
    exact Option.some.inj hd ▸ hc
  rw [reference?.eq_def] at h
  split at h
  · exact numbered h
  · exact numbered h
  all_goals
    first
    | exact Option.some.inj h ▸ (by decide)
    | cases h

/-- The characters of a decoded value may stand in a document if those of the written one may. -/
theorem isDocumentChar_decodeFrom {body : Option (List Char)} {written value : List Char}
    (hw : ∀ c ∈ written, isDocumentChar c) (h : decodeFrom body written = some value) :
    ∀ c ∈ value, isDocumentChar c := by
  induction written generalizing body value with
  | nil =>
    rw [decodeFrom] at h
    split at h
    · cases h
    · obtain rfl := Option.some.inj h
      exact fun c hc ↦ absurd hc List.not_mem_nil
  | cons c written ih =>
    have ih' := fun {body value} ↦ @ih body value
      fun d hd ↦ hw d (List.mem_cons_of_mem c hd)
    cases body with
    | some body =>
      rw [decodeFrom] at h
      split at h
      · split at h
        · next d hd =>
          obtain ⟨value', hv, rfl⟩ := Option.map_eq_some_iff.mp h
          intro x hx
          rcases List.mem_cons.mp hx with rfl | hx
          · exact isDocumentChar_reference hd
          · exact ih' hv x hx
        · cases h
      · exact ih' h
    | none =>
      rw [decodeFrom] at h
      split at h
      · exact ih' h
      · split at h
        · exact ih' h
        · obtain ⟨value', hv, rfl⟩ := Option.map_eq_some_iff.mp h
          intro x hx
          rcases List.mem_cons.mp hx with rfl | hx
          · split
            · decide
            · exact hw c List.mem_cons_self
          · exact ih' hv x hx

/-- The attributes of a faithful node have local names, none declares prefixes, and their values hold
characters of documents. -/
theorem Faithful.attribute {n : Node} (h : Faithful n) {a : NodeAttribute}
    (ha : a ∈ n.attributes) :
    LocalName a.name.toList ∧ a.name.toList ≠ declarationWord ∧
      ∀ c ∈ a.value.toList, isDocumentChar c := by
  obtain ⟨own, rest, hs, hlexed, hchars⟩ := h
  -- the opening tag comes first in the run
  have tag : ∀ {l : Lexeme} {ls : List Lexeme} {name : QName} {isClosed : Bool}
      {written : List (QName × List Char)}, Lexed (l :: ls) rest →
      l.token = .openTag name written isClosed → AttributesOf n.attributes written →
      (∀ c ∈ l.source, isDocumentChar c) →
      LocalName a.name.toList ∧ a.name.toList ≠ declarationWord ∧
        ∀ c ∈ a.value.toList, isDocumentChar c := by
    intro l ls name isClosed written hl ht hof hsource
    obtain ⟨w, hw, hname, hvalue, hdecl⟩ := hof.mem a ha
    obtain ⟨hlocal, hmem⟩ := hl.1.attributes name written isClosed ht w hw
    rw [hname, String.toList_ofList]
    refine ⟨hlocal, fun he ↦ ?_, ?_⟩
    · rw [isDeclaration, he] at hdecl
      simp at hdecl
    · exact isDocumentChar_decodeFrom (fun c hc ↦ hsource c (hmem c hc)) hvalue
  cases hs with
  | comment h => cases ha
  | instruction h => cases ha
  | characterData h => cases ha
  | text h hd => cases ha
  | closed h hof => exact tag hlexed h hof hchars
  | element h hof hc hp =>
    refine tag hlexed h hof fun c hc ↦ hchars c ?_
    exact List.mem_append_left _ (List.mem_append_left _ hc)

/-! ### The text of tags -/

/-- The text of an attribute, with the blank before it. -/
def writtenAttribute (a : String × String) : List Char :=
  ' ' :: (a.1.toList ++ '=' :: '"' :: (encodeValue a.2.toList ++ ['"']))

/-- The end of an opening tag. -/
def tagEnd (isClosed : Bool) : List Char := if isClosed then ['/', '>'] else ['>']

/-- The text of an opening tag. -/
def openTagText (name : List Char) (as : List (String × String)) (isClosed : Bool) : List Char :=
  '<' :: (name ++ (as.flatMap writtenAttribute ++ tagEnd isClosed))

/-- The text of a closing tag. -/
def closeTagText (name : List Char) : List Char := '<' :: '/' :: (name ++ ['>'])

/-- What the lexer makes of written attributes. -/
def tagAttributes (as : List (String × String)) : List (QName × List Char) :=
  as.map fun a ↦ (⟨[], a.1.toList⟩, encodeValue a.2.toList)

variable {name rest : List Char} {as : List (String × String)}

/-- A written value holds neither a quote nor an opening angle bracket. -/
private theorem encodeValue_plain {value : List Char} {c : Char} (h : c ∈ encodeValue value) :
    c ≠ '"' ∧ c ≠ '<' := by
  obtain ⟨d, -, hc⟩ := List.mem_flatMap.mp h
  have plain : (encodeChar d).all fun c ↦ decide (c ≠ '"' ∧ c ≠ '<') := by
    unfold encodeChar
    iterate 7
      split
      · decide
    next hlt _ hq _ _ _ =>
    simpa using ⟨hq, hlt⟩
  exact of_decide_eq_true (List.all_eq_true.mp plain c hc)

private theorem lexAttribute_written {a : String × String} (ha : LocalName a.1.toList)
    (rest : List Char) :
    lexAttribute (a.1.toList ++ '=' :: '"' :: (encodeValue a.2.toList ++ '"' :: rest)) =
      .ok ((⟨[], a.1.toList⟩, encodeValue a.2.toList), rest) := by
  have hvalue : ∀ c ∈ encodeValue a.2.toList, (decide (c ≠ '"') && decide (c ≠ '<')) := by
    intro c hc
    simpa using encodeValue_plain hc
  have hquote : Ends (fun c ↦ decide (c ≠ '"') && decide (c ≠ '<')) ('"' :: rest) :=
    ends_cons.mpr (by decide)
  rw [lexAttribute, lexName_of_localName ha (ends_cons.mpr (by decide)), bind_ok]
  change (lexValue ('"' :: (encodeValue a.2.toList ++ '"' :: rest)) >>= _) = _
  rw [lexValue, if_pos (by decide), List.span_eq_takeWhile_dropWhile,
    takeWhile_of_ends hvalue hquote, dropWhile_of_ends hvalue hquote]
  rfl

/-- Written attributes read back, up to the end of their tag. -/
theorem lexAttributes_written (has : ∀ a ∈ as, LocalName a.1.toList) (isClosed : Bool) {fuel : Nat}
    (hf : as.length < fuel) (rest : List Char) :
    lexAttributes fuel (as.flatMap writtenAttribute ++ (tagEnd isClosed ++ rest)) =
      .ok (tagAttributes as, isClosed, rest) := by
  induction as generalizing fuel with
  | nil =>
    obtain ⟨fuel, rfl⟩ := Nat.exists_eq_add_one.mpr hf
    cases isClosed with
    | true => exact (lexAttributes_end (w := []) nofun fuel rest).1
    | false => exact (lexAttributes_end (w := []) nofun fuel rest).2
  | cons a as ih =>
    obtain ⟨fuel, rfl⟩ := Nat.exists_eq_add_one.mpr (Nat.lt_of_le_of_lt (Nat.zero_le _) hf)
    have ha := has a List.mem_cons_self
    have hrest := ih (fun b hb ↦ has b (List.mem_cons_of_mem a hb)) (Nat.lt_of_succ_lt_succ hf)
    have hsplit : (a :: as).flatMap writtenAttribute ++ (tagEnd isClosed ++ rest) =
        ' ' :: [] ++ (a.1.toList ++ '=' :: '"' :: (encodeValue a.2.toList ++ '"' ::
          (as.flatMap writtenAttribute ++ (tagEnd isClosed ++ rest)))) := by
      simp [writtenAttribute]
    rw [hsplit, lexAttributes_next (w := []) (by decide) nofun (any_head?_append ha.start _),
      lexAttribute_written ha, bind_ok]
    change lexAttributes fuel _ >>= _ = _
    rw [hrest]
    rfl

private theorem length_le_flatMap_writtenAttribute (as : List (String × String)) :
    as.length ≤ (as.flatMap writtenAttribute).length := by
  induction as with
  | nil => exact Nat.le_refl _
  | cons a as ih =>
    rw [List.flatMap_cons, List.length_append, List.length_cons, writtenAttribute, List.length_cons]
    omega

/-- A written opening tag reads back. -/
theorem reads_openTag (hn : LocalName name) (has : ∀ a ∈ as, LocalName a.1.toList)
    (isClosed : Bool) :
    Lexeme.Reads ⟨.openTag ⟨[], name⟩ (tagAttributes as) isClosed, openTagText name as isClosed⟩ := by
  refine ⟨by simp [openTagText], fun _ ↦ rfl, ?_, fun rest _ ↦ ?_⟩
  · intro name' written isClosed' he a ha
    obtain ⟨rfl, rfl, rfl⟩ := by simpa using he
    obtain ⟨b, hb, rfl⟩ := List.mem_map.mp ha
    refine ⟨has b hb, fun c hc ↦ ?_⟩
    simp only [openTagText, List.mem_cons, List.mem_append, List.mem_flatMap]
    refine .inr (.inr (.inl ⟨b, hb, ?_⟩))
    simp only [writtenAttribute, List.mem_cons, List.mem_append]
    exact .inr (.inr (.inr (.inr (.inl hc))))
  · have hstop : Ends isNameChar (as.flatMap writtenAttribute ++ (tagEnd isClosed ++ rest)) := by
      cases as with
      | nil => cases isClosed <;> exact ends_cons.mpr (by decide)
      | cons a as => exact ends_cons.mpr (by decide)
    have hfuel : as.length <
        (as.flatMap writtenAttribute ++ (tagEnd isClosed ++ rest)).length + 1 := by
      have := length_le_flatMap_writtenAttribute as
      rw [List.length_append]
      omega
    change lexToken ('<' :: (name ++ (as.flatMap writtenAttribute ++ tagEnd isClosed) ++ rest)) = _
    rw [List.append_assoc, List.append_assoc, lexToken_openTag (any_head?_append hn.start _),
      lexName_of_localName hn hstop, bind_ok]
    change lexAttributes _ _ >>= _ = _
    rw [lexAttributes_written has isClosed hfuel]
    rfl

/-- A written closing tag reads back. -/
theorem reads_closeTag (hn : LocalName name) :
    Lexeme.Reads ⟨.closeTag ⟨[], name⟩, closeTagText name⟩ := by
  refine ⟨by simp [closeTagText], fun _ ↦ rfl, nofun, fun rest _ ↦ ?_⟩
  have hsplit : closeTagText name ++ rest = '<' :: '/' :: (name ++ '>' :: rest) := by
    simp [closeTagText]
  rw [hsplit, lexToken, lexName_of_localName hn (ends_cons.mpr (by decide))]
  rfl

/-! ### The characters of tags -/

/-- The characters of names may stand in documents. -/
theorem isDocumentChar_of_isNameChar {c : Char} (h : isNameChar c) : isDocumentChar c := by
  have hrange : 0x20 ≤ c.toNat ∧ c.toNat ≠ 0xFFFE ∧ c.toNat ≠ 0xFFFF := by
    simp only [isNameChar, isNameStart, inRanges, List.any_cons, List.any_nil, Bool.or_false,
      Bool.or_eq_true, Bool.and_eq_true, decide_eq_true_eq] at h
    omega
  rw [isDocumentChar, if_neg (Nat.not_lt.mpr hrange.1)]
  simp [hrange.2]

theorem LocalName.isDocumentChar (h : LocalName name) : ∀ c ∈ name, isDocumentChar c :=
  fun c hc ↦ isDocumentChar_of_isNameChar (h.chars c hc)

/-- A written value may stand in a document exactly if the value may. -/
theorem isDocumentChar_encodeValue {value : List Char} :
    (∀ c ∈ encodeValue value, isDocumentChar c) ↔ ∀ c ∈ value, isDocumentChar c := by
  have single : ∀ c, (∀ d ∈ encodeChar c, isDocumentChar d) ↔ isDocumentChar c := by
    intro c
    rw [← List.all_eq_true]
    unfold encodeChar
    repeat' split
    case isFalse => simp
    all_goals
      subst c
      decide
  rw [encodeValue]
  constructor
  · intro h c hc
    exact (single c).mp fun d hd ↦ h d (List.mem_flatMap.mpr ⟨c, hc, hd⟩)
  · intro h d hd
    obtain ⟨c, hc, hd⟩ := List.mem_flatMap.mp hd
    exact (single c).mpr (h c hc) d hd

/-- A written tag may stand in a document exactly if the values of its attributes may. -/
theorem isDocumentChar_openTagText (hn : LocalName name) (has : ∀ a ∈ as, LocalName a.1.toList)
    (isClosed : Bool) : (∀ c ∈ openTagText name as isClosed, isDocumentChar c) ↔
      ∀ a ∈ as, ∀ c ∈ a.2.toList, isDocumentChar c := by
  have htag : ∀ c ∈ tagEnd isClosed, isDocumentChar c := by
    cases isClosed <;> exact List.all_eq_true.mp (by decide)
  have single : ∀ a ∈ as, ((∀ c ∈ writtenAttribute a, isDocumentChar c) ↔
      ∀ c ∈ a.2.toList, isDocumentChar c) := by
    intro a ha
    have hmarks : isDocumentChar ' ' ∧ isDocumentChar '=' ∧ isDocumentChar '"' := by decide
    rw [writtenAttribute, List.forall_mem_cons, List.forall_mem_append, List.forall_mem_cons,
      List.forall_mem_cons, List.forall_mem_append, List.forall_mem_singleton,
      isDocumentChar_encodeValue]
    exact ⟨fun h ↦ h.2.2.2.2.1,
      fun h ↦ ⟨hmarks.1, (has a ha).isDocumentChar, hmarks.2.1, hmarks.2.2, h, hmarks.2.2⟩⟩
  have hopen : isDocumentChar '<' := by decide
  rw [openTagText, List.forall_mem_cons, List.forall_mem_append, List.forall_mem_append]
  constructor
  · rintro ⟨-, -, h, -⟩ a ha
    exact (single a ha).mp fun c hc ↦ h c (List.mem_flatMap.mpr ⟨a, ha, hc⟩)
  · intro h
    refine ⟨hopen, hn.isDocumentChar, fun c hc ↦ ?_, htag⟩
    obtain ⟨a, ha, hc⟩ := List.mem_flatMap.mp hc
    exact (single a ha).mpr (h a ha) c hc

theorem isDocumentChar_closeTagText (hn : LocalName name) :
    ∀ c ∈ closeTagText name, isDocumentChar c := by
  have hmarks : isDocumentChar '<' ∧ isDocumentChar '/' ∧ isDocumentChar '>' := by decide
  rw [closeTagText, List.forall_mem_cons, List.forall_mem_cons, List.forall_mem_append,
    List.forall_mem_singleton]
  exact ⟨hmarks.1, hmarks.2.1, hn.isDocumentChar, hmarks.2.2⟩

/-! ### The elements of written tags -/

/-- The attribute of a node for a written one. -/
def nodeAttribute (a : String × String) : NodeAttribute := ⟨none, a.1, a.2⟩

/-- Written attributes after decoding. -/
private def decodedAttributes (as : List (String × String)) : List (QName × String) :=
  as.map fun a ↦ (⟨[], a.1.toList⟩, a.2)

private theorem decodeAttributes_written (as : List (String × String)) :
    decodeAttributes (tagAttributes as) = .ok (decodedAttributes as) := by
  induction as with
  | nil => rfl
  | cons a as ih =>
    rw [decodeAttributes, tagAttributes, List.map_cons, List.mapM_cons]
    dsimp only
    rw [decodeValue_encodeValue]
    change decodeAttributes (tagAttributes as) >>= _ = _
    rw [ih, bind_ok, String.ofList_toList]
    rfl

private theorem plain_decodedAttributes (has : ∀ a ∈ as, a.1.toList ≠ declarationWord) :
    ∀ d ∈ decodedAttributes as, d.1.Plain := by
  intro d hd
  obtain ⟨a, ha, rfl⟩ := List.mem_map.mp hd
  exact ⟨rfl, has a ha⟩

/-- Written attributes are those of an element unless a name is repeated. -/
private theorem resolveAttributes_written (scope : Scope) (as : List (String × String))
    {seen : List NodeAttribute} (hs : ∀ a ∈ seen, a.space = none)
    (hn : (seen.map NodeAttribute.name).Nodup) :
    Yields (resolveAttributes scope seen (decodedAttributes as))
      (if (seen.map NodeAttribute.name ++ as.map Prod.fst).Nodup then
        some (seen.reverse ++ as.map nodeAttribute) else none) := by
  induction as generalizing seen with
  | nil =>
    rw [List.map_nil, List.append_nil, if_pos hn, List.map_nil, List.append_nil]
    rfl
  | cons a as ih =>
    rw [decodedAttributes, List.map_cons, resolveAttributes_cons]
    change Yields (if seen.any fun s ↦ s.space = none && s.name = String.ofList a.1.toList then _
      else _) _
    rw [String.ofList_toList]
    have hmiddle : (seen.map NodeAttribute.name ++ (a :: as).map Prod.fst).Nodup ↔
        ((nodeAttribute a :: seen).map NodeAttribute.name ++ as.map Prod.fst).Nodup :=
      List.perm_middle.nodup_iff
    split
    · next hany =>
      obtain ⟨s, hsm, hname⟩ := List.any_eq_true.mp hany
      simp only [Bool.and_eq_true, decide_eq_true_eq] at hname
      rw [if_neg]
      · exact ⟨_, rfl⟩
      · intro hnodup
        have hnot := (List.nodup_append.mp hnodup).2.2
        exact hnot s.name (List.mem_map_of_mem hsm) a.1 (by simp) hname.2
    · next hany =>
      have hnew : a.1 ∉ seen.map NodeAttribute.name := by
        intro hm
        obtain ⟨s, hsm, hname⟩ := List.mem_map.mp hm
        exact hany (List.any_eq_true.mpr ⟨s, hsm, by simp [hs s hsm, hname]⟩)
      have hrest := @ih (nodeAttribute a :: seen)
        (fun s hm ↦ (List.mem_cons.mp hm).elim (fun he ↦ he ▸ rfl) (hs s))
        (List.nodup_cons.mpr ⟨hnew, hn⟩)
      rw [List.reverse_cons, List.append_assoc] at hrest
      simp only [hmiddle]
      exact hrest

/-- A written tag opens an element with its attributes, unless a name is repeated. -/
theorem frameIn_written (scope : Scope) (name : List Char) (source : List Char)
    (has : ∀ a ∈ as, a.1.toList ≠ declarationWord) :
    Yields (frameIn scope ⟨[], name⟩ (tagAttributes as) source)
      (if (as.map Prod.fst).Nodup then
        some ⟨⟨[], name⟩, as.map nodeAttribute, scope, source, []⟩ else none) := by
  have hopen : frameIn scope ⟨[], name⟩ (tagAttributes as) source =
      resolveAttributes scope [] (decodedAttributes as) >>= fun attributes ↦
        .ok ⟨⟨[], name⟩, attributes, scope, source, []⟩ := by
    rw [frameIn, openFrame_eq, if_neg (by decide : ([] : List Char) ≠ declarationWord),
      decodeAttributes_written, bind_ok, declaredScope_plain (plain_decodedAttributes has), bind_ok,
      filter_plain (plain_decodedAttributes has)]
    rfl
  have hattributes := @resolveAttributes_written scope as [] nofun List.nodup_nil
  rw [List.map_nil, List.nil_append, List.reverse_nil, List.nil_append] at hattributes
  rw [hopen]
  split at hattributes
  · next hn =>
    rw [if_pos hn]
    rw [show resolveAttributes scope [] (decodedAttributes as) = .ok _ from hattributes]
    rfl
  · next hn =>
    rw [if_neg hn]
    obtain ⟨e, he⟩ := hattributes
    exact ⟨e, by rw [he, bind_error]⟩

end Buildpath.Xml
