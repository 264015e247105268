import Buildpath.Proofs.Document.Texts

/-!
# The elements of written entries

The text of an entry is a piece. It adds one element, unless two foreign attributes have one name or a
foreign child cannot stand alone; then it fails.
-/

namespace Buildpath

open Xml

/-! ### Attributes -/

/-- The attributes of an entry that have a meaning. -/
def knownPart (project : Path) (e : Entry) : List (String × String) :=
  [(fileWords.kind, e.kind.fileWord), (fileWords.path, encodePath project e)] ++
    encodeFlag fileWords.exported e.exported ++ encodeFlag fileWords.external e.external ++
    encodePatterns fileWords.including e.inclusions ++
    encodePatterns fileWords.excluding e.exclusions ++
    encodeAttachment fileWords.attachmentPath e.attachmentPath ++
    encodeAttachment fileWords.attachmentRoot e.attachmentRoot

variable {project : Path} {e : Entry} {content : ForeignContent}

/-- The attributes of an entry are those with a meaning and the foreign ones, in some order. -/
theorem encodeAttributes_perm (project : Path) (e : Entry) (hc : content.Kept) :
    (encodeAttributes project e content).Perm (knownPart project e ++ content.attributes) := by
  have hfilter : (content.attributes.filter fun a ↦ a.1 ∉ knownAttributes) = content.attributes := by
    apply List.filter_eq_self.mpr
    intro a ha
    exact decide_eq_true (hc.attributes a ha).2.2.2
  refine (List.mergeSort_perm _ _).trans ?_
  rw [hfilter]
  exact .refl _

/-- The names of the attributes with a meaning are known and different. -/
theorem map_fst_knownPart (project : Path) (e : Entry) :
    ((knownPart project e).map Prod.fst).Sublist knownAttributes := by
  have flag : ∀ name isSet, ((encodeFlag name isSet).map Prod.fst).Sublist [name] := by
    intro name isSet
    cases isSet with
    | true => exact .refl _
    | false => exact List.nil_sublist _
  have patterns : ∀ name ps, ((encodePatterns name ps).map Prod.fst).Sublist [name] := by
    intro name ps
    unfold encodePatterns
    split
    · exact List.nil_sublist _
    · exact .refl _
  have attachment : ∀ name path, ((encodeAttachment name path).map Prod.fst).Sublist [name] := by
    intro name path
    cases path with
    | none => exact List.nil_sublist _
    | some path => exact .refl _
  have hwords : knownAttributes = [fileWords.kind, fileWords.path] ++ [fileWords.exported] ++
      [fileWords.external] ++ [fileWords.including] ++ [fileWords.excluding] ++
      [fileWords.attachmentPath] ++ [fileWords.attachmentRoot] := rfl
  rw [hwords, knownPart]
  simp only [List.map_append]
  exact ((((((List.Sublist.refl _).append (flag _ _)).append (flag _ _)).append
    (patterns _ _)).append (patterns _ _)).append (attachment _ _)).append (attachment _ _)

theorem nodup_knownAttributes : knownAttributes.Nodup := by decide

/-- The attributes of an entry have different names if the foreign ones do. -/
theorem nodup_encodeAttributes (project : Path) (e : Entry) (hc : content.Kept) :
    ((encodeAttributes project e content).map Prod.fst).Nodup ↔
      (content.attributes.map Prod.fst).Nodup := by
  rw [((encodeAttributes_perm project e hc).map Prod.fst).nodup_iff, List.map_append,
    List.nodup_append]
  have hknown := map_fst_knownPart project e
  refine ⟨fun h ↦ h.2.1, fun h ↦ ⟨nodup_knownAttributes.sublist hknown, h, ?_⟩⟩
  rintro name hname _ hforeign rfl
  obtain ⟨a, ha, rfl⟩ := List.mem_map.mp hforeign
  exact (hc.attributes a ha).2.2.2 (hknown.subset hname)

/-- The names of elements and attributes of the file format. -/
def formatNames : List String :=
  knownAttributes ++ [fileWords.root, fileWords.entry, fileWords.attributes, fileWords.attributeItem,
    "name", "value"]

/-- The names of the file format are local names that declare no prefix. -/
theorem localName_formatNames :
    ∀ name ∈ formatNames, LocalName name.toList ∧ name.toList ≠ declarationWord := by
  have checked : ∀ name ∈ formatNames, (name.toList.head?.any isNameStart ∧
      name.toList.all isNameChar ∧ ':' ∉ name.toList) ∧ name.toList ≠ declarationWord := by
    decide
  intro name hname
  obtain ⟨⟨hstart, hchars, hplain⟩, hdecl⟩ := checked name hname
  exact ⟨⟨hstart, List.all_eq_true.mp hchars, hplain⟩, hdecl⟩

/-- The attributes of an entry can be written. -/
theorem writable_encodeAttributes (project : Path) (e : Entry) (hc : content.Kept) :
    Writable (encodeAttributes project e content) := by
  intro a ha
  rcases List.mem_append.mp ((encodeAttributes_perm project e hc).subset ha) with ha | ha
  · exact localName_formatNames a.1 (List.mem_append_left _
      ((map_fst_knownPart project e).subset (List.mem_map_of_mem ha)))
  · exact ⟨(hc.attributes a ha).1, (hc.attributes a ha).2.1⟩

/-! ### Elements -/

theorem gap_ne_nil (depth : Nat) : gap depth ≠ [] := nofun

theorem isSpace_gap (depth : Nat) : ∀ c ∈ gap depth, isSpace c := by
  intro c hc
  rcases List.mem_cons.mp hc with rfl | hc
  · decide
  · obtain rfl := List.eq_of_mem_replicate hc
    decide

/-- The element of an extra attribute. -/
def itemNode (a : Attribute) : Node :=
  closedElement fileWords.attributeItem.toList [("name", a.name), ("value", a.value)]

/-- The extra attributes of an entry as children of its element. -/
def groupNodes (e : Entry) : List Node :=
  if e.attributes.isEmpty then []
  else
    [.text (gap 2), writtenElement fileWords.attributes.toList []
      ((e.attributes.flatMap fun a ↦ [.text (gap 3), itemNode a]) ++ [.text (gap 2)])]

/-- The children of the element of an entry, if its foreign children can stand alone. -/
def innerNodes (e : Entry) (content : ForeignContent) : Option (List Node) :=
  both (both (some (groupNodes e)) (gathered (gap 2) nodesAlone content.children))
    (some [.text (gap 1)])

/-- The element of an entry, if it can be read. -/
def entryNodes (project : Path) (e : Entry) (content : ForeignContent) : Option (List Node) :=
  if ((encodeAttributes project e content).map Prod.fst).Nodup then
    if e.attributes.isEmpty && content.children.isEmpty then
      some [closedElement fileWords.entry.toList (encodeAttributes project e content)]
    else
      (innerNodes e content).map fun ns ↦
        [writtenElement fileWords.entry.toList (encodeAttributes project e content) ns]
  else none

/-- The element of an entry can be read exactly if its foreign attributes have different names and its
foreign children can stand alone. -/
theorem isSome_entryNodes (hc : content.Kept) : (entryNodes project e content).isSome ↔
    (content.attributes.map Prod.fst).Nodup ∧ ∀ c ∈ content.children, Embeds c := by
  have hgathered : (gathered (gap 2) nodesAlone content.children).isSome ↔
      ∀ c ∈ content.children, Embeds c := by
    constructor
    · intro h c hc
      obtain ⟨ns, hns⟩ := Option.isSome_iff_exists.mp h
      exact embeds_iff_isSome.mpr ((gathered_eq_some hns).1 c hc)
    · intro h
      rw [gathered_eq fun c hc ↦ embeds_iff_isSome.mp (h c hc)]
      rfl
  have hinner : (innerNodes e content).isSome ↔ ∀ c ∈ content.children, Embeds c := by
    rw [← hgathered, innerNodes]
    cases gathered (gap 2) nodesAlone content.children with
    | none => exact ⟨nofun, nofun⟩
    | some ns => exact ⟨fun _ ↦ rfl, fun _ ↦ rfl⟩
  rw [entryNodes, ← nodup_encodeAttributes project e hc]
  split
  · next hn =>
    split
    · next hempty =>
      obtain ⟨-, hchildren⟩ := (Bool.and_eq_true _ _).mp hempty
      rw [List.isEmpty_iff.mp hchildren]
      exact ⟨fun _ ↦ ⟨hn, nofun⟩, fun _ ↦ rfl⟩
    · rw [Option.isSome_map, hinner]
      exact ⟨fun h ↦ ⟨hn, h⟩, fun h ↦ h.2⟩
  · next hn => exact ⟨nofun, fun h ↦ absurd h.1 hn⟩

/-- The element of an entry, if it can be read: its attributes, and among its children the extra
attributes and the foreign children. -/
theorem exists_entryNodes (hc : content.Kept) (hn : (content.attributes.map Prod.fst).Nodup)
    (hs : ∀ s ∈ content.children, (nodesAlone s).isSome) :
    ∃ children source, entryNodes project e content = some [.element fileWords.entry
        ((encodeAttributes project e content).map nodeAttribute) children source] ∧
      groupNodes e ⊆ children ∧ ∀ s ∈ content.children, (nodesAlone s).getD [] ⊆ children := by
  rw [entryNodes, if_pos ((nodup_encodeAttributes project e hc).mpr hn)]
  split
  · next hempty =>
    obtain ⟨ha, hchildren⟩ := (Bool.and_eq_true _ _).mp hempty
    rw [groupNodes, if_pos ha, List.isEmpty_iff.mp hchildren]
    exact ⟨[], _, rfl, List.Subset.refl [], nofun⟩
  · rw [innerNodes, gathered_eq hs]
    refine ⟨_, _, rfl, fun n hn ↦ ?_, fun s hmem n hn ↦ ?_⟩
    · exact List.mem_append_left _ (List.mem_append_left _ hn)
    · refine List.mem_append_left _ (List.mem_append_right _ (List.mem_flatMap.mpr ⟨s, hmem, ?_⟩))
      exact List.mem_cons_of_mem _ hn

private theorem piece_item (a : Attribute) : Piece [] (itemText a) (some [itemNode a]) := by
  have hname := (localName_formatNames fileWords.attributeItem (by decide)).1
  have has : Writable [("name", a.name), ("value", a.value)] := by
    intro b hb
    simp only [List.mem_cons, List.not_mem_nil, or_false] at hb
    rcases hb with rfl | rfl
    · exact localName_formatNames "name" (by decide)
    · exact localName_formatNames "value" (by decide)
  have hnodup : ([("name", a.name), ("value", a.value)].map Prod.fst).Nodup :=
    (by decide : ["name", "value"].Nodup)
  have h : Piece [] _ _ := piece_written_closed hname has
  rwa [if_pos hnodup] at h

private theorem piece_group (e : Entry) : Piece [] (groupText e) (some (groupNodes e)) := by
  unfold groupText groupNodes
  split
  · exact piece_nil
  · have hname := (localName_formatNames fileWords.attributes (by decide)).1
    have hitems : Piece [] (e.attributes.flatMap fun a ↦ gap 3 ++ itemText a)
        (some (e.attributes.flatMap fun a ↦ [.text (gap 3), itemNode a])) := by
      have h : Piece [] (e.attributes.flatMap fun a ↦ gap 3 ++ itemText a)
          (gathered (gap 3) (fun a ↦ some [itemNode a]) e.attributes) :=
        piece_gathered (gap_ne_nil 3) (isSpace_gap 3) fun a _ ↦ ⟨piece_item a, rfl⟩
      rwa [gathered_eq fun _ _ ↦ rfl] at h
    have h : Piece [] (openTagText fileWords.attributes.toList [] false ++ _ ++ _) _ :=
      (hitems.trailing (gap_ne_nil 2) (isSpace_gap 2)).written hname nofun
    rw [List.map_nil, if_pos List.nodup_nil] at h
    exact h.gap rfl (gap_ne_nil 2) (isSpace_gap 2)

/-- The text of an entry is a piece that adds its element, if it can be read. -/
theorem piece_entry (project : Path) (e : Entry) (hc : content.Kept) :
    Piece [] (entryText project e content) (entryNodes project e content) := by
  have hname := (localName_formatNames fileWords.entry (by decide)).1
  have has := writable_encodeAttributes project e hc
  unfold entryText entryNodes
  split
  · exact piece_written_closed hname has
  · have hchildren : Piece [] (content.children.flatMap fun c ↦ gap 2 ++ c.toList)
        (gathered (gap 2) nodesAlone content.children) := by
      refine piece_gathered (gap_ne_nil 2) (isSpace_gap 2) fun s hs ↦ ?_
      obtain ⟨n, hn, helement, -, rfl⟩ := hc.children s hs
      have htext := isText_of_isElement helement
      rw [String.toList_ofList]
      exact ⟨(hn.alone htext).1, hn.head_source htext⟩
    exact (((piece_group e).append hchildren).trailing (gap_ne_nil 1) (isSpace_gap 1)).written
      hname has

end Buildpath
