import Buildpath.Proofs.Document.Format
import Buildpath.Proofs.Path
import Buildpath.Proofs.Xml.Unprefixed

/-!
# What a rewrite keeps

A document without namespaces that was read is written as a document whose root has the same items in
the same order. An item that is no entry comes back as it is. An entry comes back with its extra
attributes and with the foreign content that is stored for its path, which is that of the last entry
of this path that has any (`encode_keeps_items`). What stands among the extra attributes and is none
of them is not stored (`group_loses_foreign_child`).
-/

namespace Buildpath

open Xml

variable {project : Path} {d d' : Document} {n root : Node}

/-! ### What is found again -/

/-- The children of an element without the texts between them. -/
def Xml.Node.items (n : Node) : List Node := n.children.filter fun c ↦ !c.isText

/-- The path of an entry element. -/
def elementPath? (project : Path) (n : Node) : Option Path :=
  (decodeElement project n).toOption.map Entry.path

/-- Whether a child of the root is an entry of a path that has foreign content. -/
def bearsForeign (project path : Path) (n : Node) : Bool :=
  isEntryElement n && elementPath? project n = some path && !(decodeForeign n).isEmpty

/-- The last child of a root that is an entry of a path and has foreign content. -/
def foreignBearer? (project : Path) (root : Node) (path : Path) : Option Node :=
  root.children.reverse.find? (bearsForeign project path)

/-- Whether an attribute with a meaning says something else than its absence does. -/
structure Xml.NodeAttribute.Telling (a : NodeAttribute) : Prop where
  flag : a.name = fileWords.exported ∨ a.name = fileWords.external → a.value = "true"
  patterns : a.name = fileWords.including ∨ a.name = fileWords.excluding →
    splitPatterns (some a.value) ≠ []

/-- What an entry element of a root is in the document that is written: it is read as the entry that
was written, it has the extra attributes, and its foreign content is that of the last bearer, which is
the element itself unless a later entry of the same path has foreign content. -/
structure RewrittenEntry (project : Path) (root n n' : Node) : Prop where
  isEntry : isEntryElement n'
  meaning : ∀ e, decodeElement project n = .ok e → decodeElement project n' = .ok (e.reread project)
  known : ∀ a ∈ n.attributes, a.name ∈ knownAttributes →
    (a.Telling ↔ ∃ a' ∈ n'.attributes, a'.name = a.name)
  extra : ∀ group ∈ n.children, isAttributeGroup group → ∀ a ∈ decodeAttributes group,
    ∃ group' ∈ n'.children, isAttributeGroup group' ∧ itemNode a ∈ group'.children
  foreignAttributes : ∀ path ∈ elementPath? project n, ∀ m ∈ foreignBearer? project root path,
    ∀ a ∈ m.attributes, a.name ∉ knownAttributes → a ∈ n'.attributes
  foreignChildren : ∀ path ∈ elementPath? project n, ∀ m ∈ foreignBearer? project root path,
    ∀ c ∈ m.children, c.isElement → isAttributeGroup c = false → c ∈ n'.children

/-- What an item of a root is in the document that is written. -/
structure Rewritten (project : Path) (root n n' : Node) : Prop where
  other : isEntryElement n = false → n' = n
  entry : isEntryElement n → RewrittenEntry project root n n'

/-! ### Blocks of a document that was read -/

/-- How an item of the root stands among the blocks of the document. -/
private inductive ReadAs (project : Path) : Node → Block → Prop
  | kept {n : Node} (hn : isEntryElement n = false) : ReadAs project n (.kept (String.ofList n.source))
  | entry {n : Node} {e : Entry} (hn : isEntryElement n) (he : decodeElement project n = .ok e) :
      ReadAs project n (.entry e)

/-- An item that is kept after all entries is the last block. -/
private theorem blocks_kept (foreign : Foreign) (place : Nat) (es : List Entry) (source : String) :
    blocks { foreign with topLevel := foreign.topLevel ++ [(place + es.length, source)] } place es =
      blocks foreign place es ++ [.kept source] := by
  induction es generalizing place with
  | nil => simp [blocks]
  | cons e es ih =>
    have hlength : place + (e :: es).length = place + 1 + es.length := by
      rw [List.length_cons]
      omega
    have hhere : ¬ place + 1 + es.length = place := by omega
    rw [blocks, hlength, ih (place + 1), blocks]
    simp [List.filter_append, hhere]

/-- An entry after all items is the last block. -/
private theorem blocks_entry {foreign : Foreign} {place : Nat} {es : List Entry}
    (hb : ∀ item ∈ foreign.topLevel, item.1 ≤ place + es.length) (e : Entry) :
    blocks foreign place (es ++ [e]) = blocks foreign place es ++ [.entry e] := by
  induction es generalizing place with
  | nil =>
    have hhere : (foreign.topLevel.filter fun item ↦ item.1 = place) =
        foreign.topLevel.filter fun item ↦ place ≤ item.1 := by
      refine List.filter_congr fun item hi ↦ ?_
      have := hb item hi
      rw [List.length_nil] at this
      exact decide_eq_decide.mpr (by omega)
    have hafter : (foreign.topLevel.filter fun item ↦ place + 1 ≤ item.1) = [] := by
      refine List.filter_eq_nil_iff.mpr fun item hi ↦ ?_
      have := hb item hi
      rw [List.length_nil] at this
      simp
      omega
    rw [List.nil_append, blocks, blocks, blocks, hhere, hafter, List.map_nil]
  | cons e' es ih =>
    rw [List.cons_append, blocks, ih, blocks, List.append_assoc]
    · rfl
    · intro item hi
      have := hb item hi
      rw [List.length_cons] at this
      omega

/-- The children that were read last are the last blocks. -/
private theorem exists_blocks {ns : List Node} (hd : d.Ordered)
    (h : ns.foldlM (Document.decodeChild project) d = .ok d') :
    ∃ bs, blocks d'.foreign 0 d'.entries = blocks d.foreign 0 d.entries ++ bs ∧
      List.Forall₂ (ReadAs project) (ns.filter fun c ↦ !c.isText) bs := by
  induction ns generalizing d with
  | nil =>
    obtain rfl := Except.ok.inj h
    exact ⟨[], (List.append_nil _).symm, .nil⟩
  | cons n ns ih =>
    rw [List.foldlM_cons] at h
    obtain ⟨d₁, h₁, h⟩ := bind_eq_ok.mp h
    have htakes := takes_of_decodeChild h₁
    obtain ⟨bs, hbs, hread⟩ := ih (hd.takes htakes) h
    cases htakes with
    | text ht =>
      rw [List.filter_cons_of_neg (by rw [ht]; decide)]
      exact ⟨bs, hbs, hread⟩
    | kept ht hn =>
      have hlast := blocks_kept d.foreign 0 d.entries (String.ofList n.source)
      rw [Nat.zero_add] at hlast
      rw [List.filter_cons_of_pos (by rw [ht]; rfl)]
      refine ⟨.kept (String.ofList n.source) :: bs, ?_, .cons (.kept hn) hread⟩
      rw [hbs, hlast, List.append_assoc]
      rfl
    | @entry e hn he =>
      have hlast := @blocks_entry d.foreign 0 d.entries (by rw [Nat.zero_add]; exact hd.bound) e
      rw [List.filter_cons_of_pos (by rw [isText_of_isEntryElement hn]; rfl)]
      refine ⟨.entry e :: bs, ?_, .cons (.entry hn he) hread⟩
      rw [hbs, List.append_cons (blocks d.foreign 0 d.entries), ← hlast]
      exact congrArg (· ++ bs) (blocks_congr (by rfl) 0 _)

/-! ### The foreign content of a path -/

private theorem find?_takes (h : d.Takes project n d') (path : Path) :
    d'.foreign.entries.find? path =
      if bearsForeign project path n then some (decodeForeign n) else d.foreign.entries.find? path := by
  cases h with
  | text ht =>
    have hn : isEntryElement n = false :=
      Bool.eq_false_iff.mpr fun hn ↦ Bool.false_ne_true ((isText_of_isEntryElement hn).symm.trans ht)
    rw [bearsForeign, hn]
    rfl
  | kept ht hn =>
    rw [bearsForeign, hn]
    rfl
  | @entry e hn he =>
    have hpath : elementPath? project n = some e.path := by
      rw [elementPath?, he]
      rfl
    rw [bearsForeign, hn, hpath]
    dsimp only
    split
    · next hempty => simp [hempty]
    · next hempty =>
      rw [Table.find?_insert]
      simp [hempty]

/-- The last bearer of foreign content decides what is stored for a path. -/
private theorem find?_foldlM {ns : List Node}
    (h : ns.foldlM (Document.decodeChild project) d = .ok d') (path : Path) :
    d'.foreign.entries.find? path = ((ns.reverse.find? (bearsForeign project path)).map
      decodeForeign).or (d.foreign.entries.find? path) := by
  induction ns generalizing d with
  | nil =>
    obtain rfl := Except.ok.inj h
    rfl
  | cons n ns ih =>
    rw [List.foldlM_cons] at h
    obtain ⟨d₁, h₁, h⟩ := bind_eq_ok.mp h
    rw [ih h, find?_takes (takes_of_decodeChild h₁), List.reverse_cons, List.find?_append]
    cases ns.reverse.find? (bearsForeign project path) with
    | some m => rfl
    | none =>
      cases hn : bearsForeign project path n <;> simp [hn]

/-- What is stored for an entry is the foreign content of the last bearer of its path. -/
private theorem content_eq (h : root.children.foldlM (Document.decodeChild project) {} = .ok d)
    (e : Entry) : d.foreign.content e =
      ((foreignBearer? project root e.path).map decodeForeign).getD {} := by
  have hnone : ({} : Document).foreign.entries.find? e.path = none := rfl
  rw [Foreign.content, find?_foldlM h, hnone, Option.or_none]
  rfl

/-! ### The paths of entries that were read -/

private theorem storable_segment {text segment : String} (ht : Storable text)
    (hs : segment ∈ (Path.parse text).segments) : Storable segment := by
  intro c hc
  refine storable_toString_parse ht c ?_
  rw [Path.toString, String.toList_ofList, Path.toChars]
  exact List.mem_append_right _ (Text.mem_joinWith_of_mem (List.mem_map_of_mem hs) hc)

/-- The text of a relative path can be stored if its segments can. -/
private theorem storable_toString {p : Path} (hd : p.device = none) (ha : p.absolute = false)
    (hs : ∀ segment ∈ p.segments, Storable segment) : Storable p.toString := by
  intro c hc
  rw [Path.toString, String.toList_ofList, Path.toChars, hd, ha] at hc
  rcases Text.mem_joinWith hc with rfl | ⟨field, hf, hc⟩
  · decide
  · obtain ⟨segment, hmem, rfl⟩ := List.mem_map.mp hf
    exact hs segment hmem c hc

/-- The text that is written for the path of an entry that was read can be stored. -/
private theorem storable_encodePath (hp : project.Canonical) {e : Entry} {text : String}
    (he : e.path = decodePath project e.kind e.external text) (ht : Storable text) :
    Storable (encodePath project e) := by
  unfold decodePath at he
  dsimp only at he
  split at he
  · next hrelative =>
    -- the path was put below the project, so the project is cut off again
    simp only [Bool.and_eq_true, Bool.not_eq_true'] at hrelative
    obtain ⟨⟨⟨hkind, hinternal⟩, -⟩, hparent⟩ := hrelative
    have hjoined := Path.segments_append hp (Path.canonical_parse text) hparent
    have hbelow : project.isPrefixOf e.path := by
      have hroot : (project.append (Path.parse text)).device = project.device ∧
          (project.append (Path.parse text)).absolute = project.absolute := ⟨rfl, rfl⟩
      rw [Path.isPrefixOf, he, hroot.1, hroot.2, hjoined]
      simp
    have hcut : (e.path.dropFirst project.segmentCount).segments = (Path.parse text).segments := by
      rw [he]
      exact (congrArg (List.drop _) hjoined).trans List.drop_left
    rw [encodePath, if_pos (by rw [hkind, hinternal, hbelow]; rfl)]
    refine storable_toString rfl rfl fun segment hs ↦ ?_
    rw [hcut] at hs
    exact storable_segment ht hs
  · rw [encodePath]
    split
    · refine storable_toString rfl rfl fun segment hs ↦ storable_segment ht ?_
      exact he ▸ List.mem_of_mem_drop hs
    · rw [he]
      exact storable_toString_parse ht

/-! ### Attributes with a meaning -/

/-- What an entry element is read as, by its attributes. -/
private theorem decodeElement_eq_ok {e : Entry} (h : decodeElement project n = .ok e) :
    (∃ text, n.attribute? fileWords.path = some text ∧
      e.path = decodePath project e.kind e.external text) ∧
    (e.exported ↔ n.attribute? fileWords.exported = some "true") ∧
    (e.external ↔ n.attribute? fileWords.external = some "true") ∧
    e.inclusions = splitPatterns (n.attribute? fileWords.including) ∧
    e.exclusions = splitPatterns (n.attribute? fileWords.excluding) ∧
    e.attachmentPath = (n.attribute? fileWords.attachmentPath).map Path.parse ∧
    e.attachmentRoot = (n.attribute? fileWords.attachmentRoot).map Path.parse ∧
    e.attributes = (n.children.filter isAttributeGroup).flatMap decodeAttributes := by
  unfold decodeElement at h
  dsimp only at h
  split at h
  · cases h
  · cases h
  · next kind text _ htext =>
    obtain rfl := Except.ok.inj h
    exact ⟨⟨text, htext, rfl⟩, decide_eq_true_iff, decide_eq_true_iff, rfl, rfl, rfl, rfl, rfl⟩

/-- The names under which the meaning of an entry is written. -/
private theorem mem_map_knownPart {e : Entry} {name : String} :
    name ∈ (knownPart project e).map Prod.fst ↔
      name = fileWords.kind ∨ name = fileWords.path ∨
      (name = fileWords.exported ∧ e.exported) ∨ (name = fileWords.external ∧ e.external) ∨
      (name = fileWords.including ∧ e.inclusions ≠ []) ∨
      (name = fileWords.excluding ∧ e.exclusions ≠ []) ∨
      (name = fileWords.attachmentPath ∧ e.attachmentPath.isSome) ∨
      (name = fileWords.attachmentRoot ∧ e.attachmentRoot.isSome) := by
  have flag : ∀ word isSet, name ∈ (encodeFlag word isSet).map Prod.fst ↔ name = word ∧ isSet := by
    intro word isSet
    cases isSet <;> simp [encodeFlag]
  have patterns : ∀ word ps, name ∈ (encodePatterns word ps).map Prod.fst ↔
      name = word ∧ ps ≠ [] := by
    intro word ps
    cases ps <;> simp [encodePatterns]
  have attachment : ∀ word path, name ∈ (encodeAttachment word path).map Prod.fst ↔
      name = word ∧ path.isSome := by
    intro word path
    cases path <;> simp [encodeAttachment]
  simp only [knownPart, List.map_append, List.mem_append, flag, patterns, attachment, List.map_cons,
    List.map_nil, List.mem_cons, List.not_mem_nil, or_false, or_assoc]

/-- The attribute of a node without prefixes under its name. -/
private theorem attribute?_of_mem (hn : Verbatim n) {a : NodeAttribute} (ha : a ∈ n.attributes) :
    n.attribute? a.name = some a.value := by
  obtain ⟨hspace, hnames⟩ := hn.attributes
  cases hfind : n.attributes.find? fun b ↦ b.space = none && b.name = a.name with
  | none =>
    refine absurd (List.find?_eq_none.mp hfind a ha) ?_
    simp [hspace a ha]
  | some b =>
    have hname := List.find?_some hfind
    simp only [Bool.and_eq_true, decide_eq_true_eq] at hname
    obtain rfl := List.inj_on_of_nodup_map hnames (List.mem_of_find?_eq_some hfind) ha hname.2
    rw [Node.attribute?, hfind]
    rfl

/-- An attribute with a meaning is written again exactly if it says something else than its absence
does. -/
private theorem telling_iff (hn : Verbatim n) {e : Entry} (he : decodeElement project n = .ok e)
    {a : NodeAttribute} (ha : a ∈ n.attributes) (hknown : a.name ∈ knownAttributes) :
    a.Telling ↔ a.name ∈ (knownPart project e).map Prod.fst := by
  obtain ⟨-, hexported, hexternal, hincluding, hexcluding, hpath, hroot, -⟩ := decodeElement_eq_ok he
  have hvalue := attribute?_of_mem hn ha
  have htelling : a.Telling ↔
      (a.name = fileWords.exported ∨ a.name = fileWords.external → a.value = "true") ∧
      (a.name = fileWords.including ∨ a.name = fileWords.excluding →
        splitPatterns (some a.value) ≠ []) := ⟨fun h ↦ ⟨h.1, h.2⟩, fun h ↦ ⟨h.1, h.2⟩⟩
  rw [mem_map_knownPart, hexported, hexternal, hincluding, hexcluding, hpath, hroot, htelling]
  simp only [knownAttributes, List.mem_cons, List.not_mem_nil, or_false] at hknown
  rcases hknown with hname | hname | hname | hname | hname | hname | hname | hname
  all_goals
    rw [hname] at hvalue ⊢
    dsimp only [fileWords] at hvalue ⊢
    simp [hvalue]

/-! ### Rewritten items -/

/-- The foreign content of a node without prefixes can stand anywhere. -/
private theorem decodeForeign_alone (hn : Verbatim n) :
    ((decodeForeign n).attributes.map Prod.fst).Nodup ∧
      ∀ s ∈ (decodeForeign n).children, ∃ c ∈ n.children, nodesAlone s = some [c] := by
  constructor
  · have hnames : (decodeForeign n).attributes.map Prod.fst =
        (n.attributes.map NodeAttribute.name).filter (· ∉ knownAttributes) := by
      rw [decodeForeign, List.map_filterMap, List.filter_map, ← List.filterMap_eq_map,
        ← List.filterMap_eq_filter, List.filterMap_filterMap]
      congr 1
      funext a
      by_cases ha : a.name ∈ knownAttributes <;> simp [ha, Option.guard]
    rw [hnames]
    exact hn.attributes.2.filter _
  · intro s hs
    obtain ⟨c, hc, rfl⟩ := List.mem_map.mp hs
    obtain ⟨hc, helement⟩ := List.mem_filter.mp hc
    have htext := isText_of_isElement ((Bool.and_eq_true _ _).mp helement).1
    exact ⟨c, hc, (hn.child hc).alone htext⟩

/-- What is stored for an entry can stand anywhere. -/
private theorem content_alone (hroot : Verbatim root)
    (hd : root.children.foldlM (Document.decodeChild project) {} = .ok d) (e : Entry) :
    ((d.foreign.content e).attributes.map Prod.fst).Nodup ∧
      ∀ s ∈ (d.foreign.content e).children, (nodesAlone s).isSome := by
  rw [content_eq hd]
  cases hm : foreignBearer? project root e.path with
  | none => exact ⟨List.nodup_nil, nofun⟩
  | some m =>
    have hmem := List.mem_reverse.mp (List.mem_of_find?_eq_some hm)
    obtain ⟨hnames, hchildren⟩ := decodeForeign_alone (hroot.child hmem)
    refine ⟨hnames, fun s hs ↦ ?_⟩
    obtain ⟨c, -, hc⟩ := hchildren s hs
    rw [hc]
    rfl

/-- A name with a meaning stands in an entry element that is written exactly if the meaning of the entry
is written under it. -/
private theorem written_name_iff {e : Entry} {content : ForeignContent} (hc : content.Kept) {name : String}
    (hknown : name ∈ knownAttributes) : name ∈ (knownPart project e).map Prod.fst ↔
      ∃ a ∈ (encodeAttributes project e content).map nodeAttribute, a.name = name := by
  have hperm := encodeAttributes_perm project e hc
  constructor
  · intro hname
    obtain ⟨b, hb, hname⟩ := List.mem_map.mp hname
    exact ⟨nodeAttribute b, List.mem_map_of_mem (hperm.mem_iff.mpr (List.mem_append_left _ hb)), hname⟩
  · rintro ⟨a, ha, hname⟩
    obtain ⟨b, hb, rfl⟩ := List.mem_map.mp ha
    have hname : b.1 = name := hname
    rcases List.mem_append.mp (hperm.mem_iff.mp hb) with hb | hb
    · exact List.mem_map.mpr ⟨b, hb, hname⟩
    · exact absurd (hname.symm ▸ hknown) (hc.attributes b hb).2.2.2

/-- The foreign content of an entry element is that of the last bearer of its path. -/
private theorem content_of_bearer (hroot : Verbatim root)
    (hd : root.children.foldlM (Document.decodeChild project) {} = .ok d) {e : Entry}
    (he : decodeElement project n = .ok e) {path : Path} (hpath : path ∈ elementPath? project n) {m : Node}
    (hm : m ∈ foreignBearer? project root path) :
    Verbatim m ∧ d.foreign.content e = decodeForeign m := by
  rw [elementPath?, he] at hpath
  obtain rfl := Option.some.inj hpath
  have hm' : foreignBearer? project root e.path = some m := hm
  refine ⟨hroot.child (List.mem_reverse.mp (List.mem_of_find?_eq_some hm')), ?_⟩
  rw [content_eq hd, hm']
  rfl

/-- The element that is written for an entry. -/
private theorem rewritten_entry (hroot : Verbatim root)
    (hd : root.children.foldlM (Document.decodeChild project) {} = .ok d) (hk : d.foreign.Kept)
    (hmem : n ∈ root.children) {e : Entry} (he : decodeElement project n = .ok e) :
    ∃ n', entryNodes project e (d.foreign.content e) = some [n'] ∧ n'.isText = false ∧
      RewrittenEntry project root n n' := by
  have hc := hk.content e
  obtain ⟨hnames, hchildren⟩ := content_alone hroot hd e
  obtain ⟨children, source, hnodes, hgroup, hforeign⟩ := @exists_entryNodes project e _ hc hnames hchildren
  refine ⟨_, hnodes, rfl, rfl, fun e' he' ↦ ?_, fun a ha hknown ↦ ?_,
    fun group hg hisGroup a ha ↦ ?_, fun path hpath m hm a ha hunknown ↦ ?_,
    fun path hpath m hm c hcm helement hnoGroup ↦ ?_⟩
  · obtain rfl := Except.ok.inj (he.symm.trans he')
    have hplain := plain_decodeElement (hroot.child hmem).faithful he
    obtain ⟨as, cs, source', hsame, hread, -⟩ := entryNodes_read hc hplain hnodes
    rw [List.singleton_inj.mp hsame]
    exact hread
  · exact (telling_iff (hroot.child hmem) he ha hknown).trans (written_name_iff hc hknown)
  · obtain ⟨-, -, -, -, -, -, -, hattributes⟩ := decodeElement_eq_ok he
    have hextra : a ∈ e.attributes := by
      rw [hattributes]
      exact List.mem_flatMap.mpr ⟨group, List.mem_filter.mpr ⟨hg, hisGroup⟩, ha⟩
    have hne : ¬ e.attributes.isEmpty := fun hempty ↦ by
      rw [List.isEmpty_iff.mp hempty] at hextra
      cases hextra
    rw [groupNodes, if_neg hne] at hgroup
    refine ⟨_, hgroup (List.mem_cons_of_mem _ List.mem_cons_self), rfl, ?_⟩
    refine List.mem_append_left _ (List.mem_flatMap.mpr ⟨a, hextra, ?_⟩)
    exact List.mem_cons_of_mem _ List.mem_cons_self
  · obtain ⟨hm, hcontent⟩ := content_of_bearer hroot hd he hpath hm
    have hstored : (a.name, a.value) ∈ (d.foreign.content e).attributes := by
      rw [hcontent]
      exact List.mem_filterMap.mpr ⟨a, ha, if_neg hunknown⟩
    have hsame : nodeAttribute (a.name, a.value) = a := by
      rw [nodeAttribute, ← hm.attributes.1 a ha]
    have hperm := encodeAttributes_perm project e hc
    exact List.mem_map.mpr ⟨_, hperm.mem_iff.mpr (List.mem_append_right _ hstored), hsame⟩
  · obtain ⟨hm, hcontent⟩ := content_of_bearer hroot hd he hpath hm
    have hstored : String.ofList c.source ∈ (d.foreign.content e).children := by
      rw [hcontent]
      refine List.mem_map_of_mem (List.mem_filter.mpr ⟨hcm, ?_⟩)
      rw [helement, hnoGroup]
      rfl
    refine hforeign _ hstored ?_
    rw [(hm.child hcm).alone (isText_of_isElement helement)]
    exact List.mem_singleton_self c

/-- The node that is written for an item. -/
private theorem rewritten_of_readAs (hroot : Verbatim root)
    (hd : root.children.foldlM (Document.decodeChild project) {} = .ok d) (hk : d.foreign.Kept)
    (hmem : n ∈ root.items) {b : Block} (h : ReadAs project n b) :
    ∃ n', blockNodes project d.foreign b = some [n'] ∧ n'.isText = false ∧
      Rewritten project root n n' := by
  obtain ⟨hmem, htext⟩ := List.mem_filter.mp hmem
  have htext : n.isText = false := by simpa using htext
  cases h with
  | kept hn =>
    have hno : ¬ isEntryElement n := Bool.not_eq_true _ ▸ hn
    exact ⟨n, (hroot.child hmem).alone htext, htext, fun _ ↦ rfl, fun h ↦ absurd h hno⟩
  | entry hn he =>
    obtain ⟨n', hnodes, htext', hentry⟩ := rewritten_entry hroot hd hk hmem he
    refine ⟨n', hnodes, htext', fun hno ↦ ?_, fun _ ↦ hentry⟩
    exact absurd (hno.symm.trans hn) Bool.false_ne_true

/-- The nodes of blocks that were read from items, with gaps before them. -/
private theorem rewritten_items {ns : List Node} {bs : List Block}
    (h : List.Forall₂ (ReadAs project) ns bs)
    (hstep : ∀ n ∈ ns, ∀ b, ReadAs project n b → ∃ n', blockNodes project d.foreign b = some [n'] ∧
      n'.isText = false ∧ Rewritten project root n n') :
    (∀ b ∈ bs, (blockNodes project d.foreign b).isSome) ∧
      List.Forall₂ (Rewritten project root) ns ((bs.flatMap fun b ↦
        .text (gap 1) :: (blockNodes project d.foreign b).getD []).filter fun c ↦ !c.isText) := by
  induction h with
  | nil => exact ⟨fun b hb ↦ absurd hb List.not_mem_nil, .nil⟩
  | @cons n b ns bs hread _ ih =>
    obtain ⟨n', hnodes, htext, hn⟩ := hstep n List.mem_cons_self b hread
    obtain ⟨hall, hrest⟩ := ih fun m hm ↦ hstep m (List.mem_cons_of_mem n hm)
    refine ⟨fun b' hb ↦ ?_, ?_⟩
    · rcases List.mem_cons.mp hb with rfl | hb
      · rw [hnodes]
        rfl
      · exact hall b' hb
    · rw [List.flatMap_cons, hnodes, Option.getD_some, List.filter_append,
        List.filter_cons_of_neg (Bool.false_ne_true ·), List.filter_cons_of_pos (by rw [htext]; rfl)]
      exact .cons hn hrest

private theorem exists_readAs {ns : List Node} {bs : List Block} {b : Block}
    (h : List.Forall₂ (ReadAs project) ns bs) (hb : b ∈ bs) : ∃ n ∈ ns, ReadAs project n b := by
  induction h with
  | nil => cases hb
  | @cons n b' ns bs hread _ ih =>
    rcases List.mem_cons.mp hb with rfl | hb
    · exact ⟨n, List.mem_cons_self, hread⟩
    · obtain ⟨m, hm, hread⟩ := ih hb
      exact ⟨m, List.mem_cons_of_mem n hm, hread⟩

/-! ### Whole documents -/

/-- A document without namespaces is written as a document that is read again. Its root has the same
items in the same order, each of them as a rewrite leaves it. -/
theorem encode_keeps_items {text : String} (hp : project.Canonical)
    (ht : Unprefixed (dropMark text.toList)) (hroot : parseTree text = .ok root)
    (h : Document.decode project text = .ok d) :
    ∃ root', parseTree (d.encode project) = .ok root' ∧
      List.Forall₂ (Rewritten project root) root.items root'.items := by
  have hk := kept_of_decode h
  have hplain := plain_of_decode h
  have hverbatim : Verbatim root := by
    unfold parseTree at hroot
    split at hroot
    · next hparse => exact Except.ok.inj hroot ▸ verbatim_of_parse ht hparse
    · cases hroot
  have hd : root.children.foldlM (Document.decodeChild project) {} = .ok d := by
    rw [decode_eq, hroot, bind_ok] at h
    split at h
    · cases h
    · exact h
  obtain ⟨bs, hbs, hread⟩ := exists_blocks ordered_nil hd
  have hempty : blocks ({} : Document).foreign 0 ({} : Document).entries = [] := rfl
  rw [hempty, List.nil_append] at hbs
  obtain ⟨hall, hitems⟩ := rewritten_items hread
    fun n hn b hb ↦ rewritten_of_readAs hverbatim hd hk hn hb
  -- every entry was read from an element, so its path can be stored
  have hstorable : ∀ e ∈ d.entries, Storable (encodePath project e) := by
    intro e he
    have hblock : Block.entry e ∈ bs := hbs ▸ mem_blocks_entry.mpr he
    obtain ⟨n, hn, hread⟩ := exists_readAs hread hblock
    cases hread with
    | entry hname he =>
      obtain ⟨⟨path, htext, hpath⟩, -⟩ := decodeElement_eq_ok he
      have hfaithful := (hverbatim.child (List.mem_filter.mp hn).1).faithful
      exact storable_encodePath hp hpath (storable_attribute hfaithful htext)
  have hparse : Yields (parseTree (d.encode project)) _ := parseTree_encode hk hplain
  rw [if_pos (List.all_eq_true.mpr ((storable_encode hk hplain).mpr hstorable)), rootNodes, hbs,
    gathered_eq hall] at hparse
  refine ⟨_, hparse, ?_⟩
  change List.Forall₂ _ _ (List.filter _ (_ ++ [Node.text (gap 0)]))
  rw [List.filter_append, List.filter_cons_of_neg (by decide), List.filter_nil, List.append_nil]
  exact hitems

set_option maxRecDepth 4096 in
/-- A comment and an entry with foreign content are written again. -/
theorem encode_keeps_comment_and_entry : ∃ (text : String) (root : Node) (d : Document) (root' : Node),
    parseTree text = .ok root ∧ Document.decode (.parse "/p") text = .ok d ∧
      root.items.map isEntryElement = [false, true] ∧
      parseTree (d.encode (.parse "/p")) = .ok root' ∧
      List.Forall₂ (Rewritten (.parse "/p") root) root.items root'.items := by
  let d : Document := ⟨[.source (.parse "/p/src")],
    ⟨⟨[(.parse "/p/src", ⟨[("v", "1")], ["<x/>"]⟩)]⟩, [(0, "<!--c-->")]⟩⟩
  obtain ⟨text, root, hplain, hroot, hd, hitems⟩ : ∃ (text : String) (root : Node),
      Unprefixed (dropMark text.toList) ∧ parseTree text = .ok root ∧
      Document.decode (.parse "/p") text = .ok d ∧ root.items.map isEntryElement = [false, true] :=
    ⟨"<buildpath><!--c--><buildpathentry kind=\"src\" path=\"src\" v=\"1\"><x/></buildpathentry></buildpath>",
      _, by decide +kernel, rfl, rfl, rfl⟩
  obtain ⟨root', hroot', hkept⟩ := encode_keeps_items (Path.canonical_parse "/p") hplain hroot hd
  exact ⟨text, root, d, root', hroot, hd, hitems, hroot', hkept⟩

/-- A single entry with nothing but its attributes is written without children. -/
private theorem parseTree_single {e : Entry} (he : e.Plain) (ha : e.attributes = [])
    (hs : Storable (encodePath project e)) : parseTree (Document.encode project ⟨[e], {}⟩) =
      .ok (writtenElement fileWords.root.toList [] [.text (gap 1),
        closedElement fileWords.entry.toList (encodeAttributes project e {}), .text (gap 0)]) := by
  have hnodes : entryNodes project e {} = some [closedElement fileWords.entry.toList
      (encodeAttributes project e {})] := by
    rw [entryNodes, if_pos ((nodup_encodeAttributes project e kept_empty).mpr List.nodup_nil),
      if_pos (by rw [ha]; rfl)]
  have hplain : ∀ e' ∈ [e], e'.Plain := fun e' h ↦ List.mem_singleton.mp h ▸ he
  have hstorable : ∀ e' ∈ [e], Storable (encodePath project e') :=
    fun e' h ↦ List.mem_singleton.mp h ▸ hs
  have hparse := @parseTree_encode project ⟨[e], {}⟩ kept_nil hplain
  rw [if_pos (List.all_eq_true.mpr ((storable_encode kept_nil hplain).mpr hstorable)), rootNodes] at hparse
  change Yields _ ((both (both (both _ (entryNodes project e {})) (some [])) _).map _) at hparse
  rw [hnodes] at hparse
  exact hparse

set_option maxRecDepth 4096 in
/-- A foreign element among the extra attributes of an entry is not written again. -/
theorem group_loses_foreign_child : ∃ (project : Path) (text : String) (root : Node) (d : Document)
    (root' : Node), Unprefixed (dropMark text.toList) ∧ parseTree text = .ok root ∧
      Document.decode project text = .ok d ∧ parseTree (d.encode project) = .ok root' ∧
      (∃ n ∈ root.children, isEntryElement n ∧ ∃ group ∈ n.children, isAttributeGroup group ∧
        ∃ c ∈ group.children, c.isElement ∧ c.name = "vendor") ∧
      ∀ n' ∈ root'.children, ∀ group ∈ n'.children, ∀ c ∈ group.children, c.name ≠ "vendor" := by
  refine ⟨.parse "/p",
    "<buildpath><buildpathentry kind=\"src\" path=\"src\"><attributes><vendor/></attributes></buildpathentry></buildpath>",
    _, ⟨[.source (.parse "/p/src")], {}⟩, _, by decide +kernel, rfl, rfl,
    parseTree_single ⟨nofun, nofun, nofun⟩ rfl (by decide), ?_, ?_⟩
  · exact ⟨_, List.mem_singleton_self _, rfl, _, List.mem_singleton_self _, rfl, _,
      List.mem_singleton_self _, rfl, rfl⟩
  · intro n' hn'
    change n' ∈ [_, _, _] at hn'
    simp only [List.mem_cons, List.not_mem_nil, or_false] at hn'
    rcases hn' with rfl | rfl | rfl
    all_goals exact fun group hg ↦ absurd hg List.not_mem_nil

end Buildpath
