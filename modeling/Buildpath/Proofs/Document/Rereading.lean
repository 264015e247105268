import Buildpath.Proofs.Document.Elements

/-!
# Reading written documents

What the elements of a written document are read as: an entry comes back with its path, and the paths
of its attachments, read again from their texts; the foreign content comes back with its attributes in
the order of their names.
-/

namespace Buildpath

open Xml

/-- An entry with its paths read again from the texts written for them. -/
def Entry.reread (project : Path) (e : Entry) : Entry :=
  { e with
    path := decodePath project e.kind e.external (encodePath project e)
    attachmentPath := e.attachmentPath.map fun p ↦ Path.parse p.toString
    attachmentRoot := e.attachmentRoot.map fun p ↦ Path.parse p.toString }

/-- The foreign content of an entry with the attributes in the order in which they are written. -/
def ForeignContent.reread (project : Path) (e : Entry) (content : ForeignContent) : ForeignContent :=
  { content with
    attributes := (encodeAttributes project e content).filter fun a ↦ a.1 ∉ knownAttributes }

variable {project : Path} {e : Entry} {content : ForeignContent}

/-! ### Look-ups in written attributes -/

/-- The value under a name. -/
private def valueOf (as : List (String × String)) (name : String) : Option String :=
  (as.find? fun a ↦ a.1 = name).map Prod.snd

private theorem attribute?_written (name : String) (as : List (String × String)) (ns : List Node)
    (word : String) (source : List Char) :
    (Node.element name (as.map nodeAttribute) ns source).attribute? word = valueOf as word := by
  rw [Node.attribute?, valueOf, Node.attributes, List.find?_map, Option.map_map]
  rfl

private theorem valueOf_append (as bs : List (String × String)) (name : String) :
    valueOf (as ++ bs) name = (valueOf as name).or (valueOf bs name) := by
  rw [valueOf, List.find?_append, valueOf, valueOf]
  cases as.find? fun a ↦ a.1 = name <;> rfl

private theorem valueOf_eq_none {as : List (String × String)} {name : String}
    (h : name ∉ as.map Prod.fst) : valueOf as name = none := by
  rw [valueOf, Option.map_eq_none_iff, List.find?_eq_none]
  intro a ha he
  exact h (of_decide_eq_true he ▸ List.mem_map_of_mem ha)

/-- With different names, the order does not matter to a look-up. -/
private theorem valueOf_perm {as bs : List (String × String)} (h : as.Perm bs)
    (hn : (as.map Prod.fst).Nodup) (name : String) : valueOf as name = valueOf bs name := by
  induction h with
  | nil => rfl
  | cons a h ih =>
    have hn' := (List.nodup_cons.mp hn).2
    have happend : ∀ cs, valueOf (a :: cs) name = (valueOf [a] name).or (valueOf cs name) :=
      fun cs ↦ valueOf_append [a] cs name
    rw [happend, ih hn', ← happend]
  | swap a b as =>
    have hab : b.1 ≠ a.1 := fun he ↦ (List.nodup_cons.mp hn).1 (by simp [he])
    by_cases ha : a.1 = name
    · have hb : b.1 ≠ name := fun hb ↦ hab (hb.trans ha.symm)
      simp [valueOf, ha, hb]
    · by_cases hb : b.1 = name <;> simp [valueOf, ha, hb]
  | trans h₁ h₂ ih₁ ih₂ => rw [ih₁ hn, ih₂ ((h₁.map Prod.fst).nodup_iff.mp hn)]

private theorem valueOf_flag (name word : String) (isSet : Bool) :
    valueOf (encodeFlag name isSet) word = if isSet ∧ name = word then some "true" else none := by
  cases isSet with
  | true => by_cases h : name = word <;> simp [valueOf, encodeFlag, h]
  | false => rfl

private theorem valueOf_patterns (name word : String) (ps : List String) :
    valueOf (encodePatterns name ps) word =
      if ps ≠ [] ∧ name = word then
        some (String.ofList (Text.joinWith patternSeparator (ps.map String.toList))) else none := by
  cases ps with
  | nil => rfl
  | cons p ps => by_cases h : name = word <;> simp [valueOf, encodePatterns, h]

private theorem valueOf_attachment (name word : String) (path : Option Path) :
    valueOf (encodeAttachment name path) word =
      if name = word then path.map Path.toString else none := by
  cases path with
  | none => by_cases h : name = word <;> simp [valueOf, encodeAttachment, h]
  | some path => by_cases h : name = word <;> simp [valueOf, encodeAttachment, h]

private theorem valueOf_pair (a b : String × String) (word : String) :
    valueOf [a, b] word = if a.1 = word then some a.2 else if b.1 = word then some b.2 else none := by
  by_cases ha : a.1 = word
  · simp [valueOf, ha]
  · by_cases hb : b.1 = word <;> simp [valueOf, ha, hb]

/-- The attributes with a meaning, by name. -/
private theorem valueOf_knownPart (project : Path) (e : Entry) (word : String) :
    valueOf (knownPart project e) word =
      (((((((if fileWords.kind = word then some e.kind.fileWord
        else if fileWords.path = word then some (encodePath project e) else none).or
      (if e.exported ∧ fileWords.exported = word then some "true" else none)).or
      (if e.external ∧ fileWords.external = word then some "true" else none)).or
      (if e.inclusions ≠ [] ∧ fileWords.including = word then
        some (String.ofList (Text.joinWith patternSeparator (e.inclusions.map String.toList)))
        else none)).or
      (if e.exclusions ≠ [] ∧ fileWords.excluding = word then
        some (String.ofList (Text.joinWith patternSeparator (e.exclusions.map String.toList)))
        else none)).or
      (if fileWords.attachmentPath = word then e.attachmentPath.map Path.toString else none)).or
      (if fileWords.attachmentRoot = word then e.attachmentRoot.map Path.toString else none)) := by
  simp only [knownPart, valueOf_append, valueOf_pair, valueOf_flag, valueOf_patterns,
    valueOf_attachment]

/-- A name with a meaning is looked up among the attributes with a meaning. -/
private theorem valueOf_encodeAttributes (hc : content.Kept)
    (hn : (content.attributes.map Prod.fst).Nodup) {word : String} (hw : word ∈ knownAttributes) :
    valueOf (encodeAttributes project e content) word = valueOf (knownPart project e) word := by
  have hforeign : word ∉ content.attributes.map Prod.fst := by
    intro hm
    obtain ⟨a, ha, rfl⟩ := List.mem_map.mp hm
    exact (hc.attributes a ha).2.2.2 hw
  rw [valueOf_perm (encodeAttributes_perm project e hc)
    ((nodup_encodeAttributes project e hc).mpr hn), valueOf_append, valueOf_eq_none hforeign,
    Option.or_none]

/-! ### Entry elements -/

private theorem isTrue_flag {isSet : Bool} :
    decide ((if isSet then some "true" else none) = some "true") = isSet := by
  cases isSet <;> rfl

private theorem splitPatterns_written {ps : List String}
    (h : ∀ p ∈ ps, p ≠ "" ∧ patternSeparator ∉ p.toList) :
    splitPatterns (if ps ≠ [] then
      some (String.ofList (Text.joinWith patternSeparator (ps.map String.toList))) else none) =
      ps := by
  by_cases hps : ps = []
  · rw [hps]
    rfl
  · rw [if_pos hps]
    exact splitPatterns_joinWith hps h

/-- An entry element with written attributes reads as the entry, if its groups hold the extra
attributes. -/
private theorem decodeElement_written (hc : content.Kept) (he : e.Plain)
    (hn : (content.attributes.map Prod.fst).Nodup) (name : String) (cs : List Node)
    (source : List Char)
    (hgroup : (cs.filter isAttributeGroup).flatMap decodeAttributes = e.attributes) :
    decodeElement project
      (.element name ((encodeAttributes project e content).map nodeAttribute) cs source) =
      .ok (e.reread project) := by
  have look : ∀ word value, word ∈ knownAttributes →
      valueOf (knownPart project e) word = value →
      (Node.element name ((encodeAttributes project e content).map nodeAttribute) cs
        source).attribute? word = value := by
    intro word value hw hv
    rw [attribute?_written, valueOf_encodeAttributes hc hn hw, hv]
  have hkind := look fileWords.kind (some e.kind.fileWord) (by decide)
    (by rw [valueOf_knownPart]; simp [fileWords])
  have hpath := look fileWords.path (some (encodePath project e)) (by decide)
    (by rw [valueOf_knownPart]; simp [fileWords])
  have hexported := look fileWords.exported (if e.exported then some "true" else none) (by decide)
    (by rw [valueOf_knownPart]; simp [fileWords])
  have hexternal := look fileWords.external (if e.external then some "true" else none) (by decide)
    (by rw [valueOf_knownPart]; simp [fileWords])
  have hincluding := look fileWords.including (if e.inclusions ≠ [] then
      some (String.ofList (Text.joinWith patternSeparator (e.inclusions.map String.toList)))
      else none) (by decide) (by rw [valueOf_knownPart]; simp [fileWords])
  have hexcluding := look fileWords.excluding (if e.exclusions ≠ [] then
      some (String.ofList (Text.joinWith patternSeparator (e.exclusions.map String.toList)))
      else none) (by decide) (by rw [valueOf_knownPart]; simp [fileWords])
  have hattachmentPath := look fileWords.attachmentPath (e.attachmentPath.map Path.toString)
    (by decide) (by rw [valueOf_knownPart]; simp [fileWords])
  have hattachmentRoot := look fileWords.attachmentRoot (e.attachmentRoot.map Path.toString)
    (by decide) (by rw [valueOf_knownPart]; simp [fileWords])
  have hpatterns : ∀ p ∈ e.inclusions ++ e.exclusions, p ≠ "" ∧ patternSeparator ∉ p.toList :=
    fun p hp ↦ ⟨(he.patterns p hp).1, (he.patterns p hp).2.1⟩
  have hinclusions := splitPatterns_written fun p hp ↦ hpatterns p (List.mem_append_left _ hp)
  have hexclusions := splitPatterns_written fun p hp ↦ hpatterns p (List.mem_append_right _ hp)
  unfold decodeElement
  dsimp only
  rw [hkind, hpath, hexported, hexternal, hincluding, hexcluding, hattachmentPath, hattachmentRoot,
    Option.getD_some, EntryKind.ofFileWord?_fileWord]
  dsimp only
  rw [isTrue_flag, isTrue_flag, hinclusions, hexclusions, Option.map_map, Option.map_map]
  rw [show (Node.element name _ cs source).children = cs from rfl, hgroup]
  rfl

/-- A text before nodes is not seen by a filter that drops texts. -/
private theorem filter_gapped {α : Type} {w : List Char} {f : α → List Node} {xs : List α}
    {p : Node → Bool} (hw : p (.text w) = false) :
    (xs.flatMap fun x ↦ .text w :: f x).filter p = xs.flatMap fun x ↦ (f x).filter p := by
  rw [List.filter_flatMap]
  congr 1
  funext x
  rw [List.filter_cons_of_neg (by rw [hw]; exact Bool.false_ne_true)]

private theorem decodeAttributes_items (e : Entry) :
    decodeAttributes (writtenElement fileWords.attributes.toList []
      ((e.attributes.flatMap fun a ↦ [.text (gap 3), itemNode a]) ++ [.text (gap 2)])) =
      e.attributes := by
  rw [decodeAttributes]
  change List.filterMap _ ((e.attributes.flatMap fun a ↦ [.text (gap 3), itemNode a]) ++ _) = _
  rw [List.filterMap_append]
  induction e.attributes with
  | nil => rfl
  | cons a as ih =>
    rw [List.flatMap_cons, List.filterMap_append, List.append_assoc, ih]
    rfl

/-- The group of the extra attributes holds these and nothing else. -/
private theorem groupNodes_read (e : Entry) :
    (groupNodes e).filter (fun c ↦ c.isElement && !isAttributeGroup c) = [] ∧
      ((groupNodes e).filter isAttributeGroup).flatMap decodeAttributes = e.attributes := by
  unfold groupNodes
  split
  · next hempty => exact ⟨rfl, (List.isEmpty_iff.mp hempty).symm⟩
  · refine ⟨rfl, ?_⟩
    change [writtenElement _ _ _].flatMap decodeAttributes = _
    rw [List.flatMap_cons, List.flatMap_nil, List.append_nil, decodeAttributes_items]

/-- What an entry element with extra attributes and foreign children that stand alone holds. -/
private theorem innerNodes_read (hc : content.Kept) {ns : List Node}
    (h : innerNodes e content = some ns) :
    (ns.filter isAttributeGroup).flatMap decodeAttributes = e.attributes ∧
      (ns.filter fun c ↦ c.isElement && !isAttributeGroup c).map
        (fun c ↦ String.ofList c.source) = content.children := by
  obtain ⟨ns₁, h₁, h⟩ := Option.bind_eq_some_iff.mp h
  obtain ⟨ns₂, h₂, rfl⟩ := Option.map_eq_some_iff.mp h
  obtain rfl := Option.some.inj h₂
  obtain ⟨ns₃, h₃, rfl⟩ := Option.map_eq_some_iff.mp h₁
  obtain ⟨halone, rfl⟩ := gathered_eq_some h₃
  -- each foreign child is one element again, of the same name
  have hchild : ∀ s ∈ content.children, ∃ n, (nodesAlone s).getD [] = [n] ∧ n.isElement ∧
      isAttributeGroup n = false ∧ String.ofList n.source = s := by
    intro s hs
    obtain ⟨n, hn, helement, hgroup, rfl⟩ := hc.children s hs
    obtain ⟨ns, hns⟩ := Option.isSome_iff_exists.mp (halone _ hs)
    obtain ⟨n', rfl, halike⟩ := (hn.alone (isText_of_isElement helement)).2 ns hns
    refine ⟨n', by rw [hns]; rfl, halike.isElement.trans helement, ?_, by rw [halike.source]⟩
    rw [isAttributeGroup, halike.isElement, halike.name]
    exact hgroup
  have hnone : (content.children.flatMap fun s ↦
      ((nodesAlone s).getD []).filter isAttributeGroup) = [] := by
    apply List.flatMap_eq_nil_iff.mpr
    intro s hs
    obtain ⟨n, hn, -, hgroup, -⟩ := hchild s hs
    rw [hn, List.filter_cons_of_neg (by rw [hgroup]; exact Bool.false_ne_true), List.filter_nil]
  have hall : (content.children.flatMap fun s ↦ ((nodesAlone s).getD []).filter
      fun c ↦ c.isElement && !isAttributeGroup c).map (fun c ↦ String.ofList c.source) =
      content.children := by
    clear hnone h₃ halone
    generalize content.children = children at hchild ⊢
    induction children with
    | nil => rfl
    | cons s children ih =>
      obtain ⟨n, hn, helement, hgroup, hs⟩ := hchild s List.mem_cons_self
      rw [List.flatMap_cons, List.map_append, ih fun s hs ↦ hchild s (List.mem_cons_of_mem _ hs), hn,
        List.filter_cons_of_pos (by rw [helement, hgroup]; rfl), List.filter_nil, List.map_cons, hs]
      rfl
  have hgroup := groupNodes_read e
  rw [List.filter_append, List.filter_append, List.filter_append, List.filter_append,
    filter_gapped rfl, filter_gapped rfl, hnone, hgroup.1]
  constructor
  · rw [List.append_nil, List.flatMap_append, hgroup.2]
    exact List.append_nil _
  · rw [List.nil_append, List.map_append, hall]
    exact List.append_nil _

/-- The element of an entry reads as the entry with its foreign content. -/
theorem entryNodes_read (hc : content.Kept) (he : e.Plain) {ns : List Node}
    (h : entryNodes project e content = some ns) :
    ∃ as cs source, ns = [.element fileWords.entry as cs source] ∧
      decodeElement project (.element fileWords.entry as cs source) = .ok (e.reread project) ∧
      decodeForeign (.element fileWords.entry as cs source) = content.reread project e := by
  unfold entryNodes at h
  split at h
  · next hn =>
    rw [nodup_encodeAttributes project e hc] at hn
    have hforeign : ∀ (cs : List Node) (source : List Char),
        (cs.filter fun c ↦ c.isElement && !isAttributeGroup c).map (fun c ↦ String.ofList c.source) =
          content.children →
        decodeForeign (.element fileWords.entry
          ((encodeAttributes project e content).map nodeAttribute) cs source) =
          content.reread project e := by
      intro cs source hcs
      rw [decodeForeign, ForeignContent.reread]
      congr 1
      change List.filterMap _ (List.map nodeAttribute _) = _
      rw [List.filterMap_map, ← List.filterMap_eq_filter]
      congr 1
      funext a
      by_cases ha : a.1 ∈ knownAttributes <;> simp [nodeAttribute, ha, Option.guard]
    split at h
    · next hempty =>
      obtain ⟨hattributes, hchildren⟩ := (Bool.and_eq_true _ _).mp hempty
      obtain rfl := Option.some.inj h
      refine ⟨_, _, _, rfl, ?_, ?_⟩
      · exact decodeElement_written hc he hn _ _ _ (List.isEmpty_iff.mp hattributes).symm
      · exact hforeign _ _ (List.isEmpty_iff.mp hchildren).symm
    · obtain ⟨cs, hcs, rfl⟩ := Option.map_eq_some_iff.mp h
      obtain ⟨hgroup, hchildren⟩ := innerNodes_read hc hcs
      refine ⟨_, _, _, rfl, ?_, ?_⟩
      · exact decodeElement_written hc he hn _ _ _ hgroup
      · exact hforeign _ _ hchildren
  · cases h

end Buildpath
