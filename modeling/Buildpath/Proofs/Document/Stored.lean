import Buildpath.Proofs.Document.Rereading

/-!
# Documents that were written

A written document is accepted exactly if its characters may stand in documents, the foreign
attributes of each entry have different names, and the foreign elements can stand alone. It is then
read block by block (`decode_encode`).
-/

namespace Buildpath

open Xml

variable {project : Path} {foreign : Foreign}

/-! ### Reading the blocks -/

/-- The nodes of a block, if it can be read. -/
def blockNodes (project : Path) (foreign : Foreign) : Block → Option (List Node)
  | .kept source => nodesAlone source
  | .entry e => entryNodes project e (foreign.content e)

/-- A document after one more block of a written document was read. -/
def takeBlock (project : Path) (foreign : Foreign) (d : Document) : Block → Document
  | .kept source =>
    { d with foreign := { d.foreign with
        topLevel := d.foreign.topLevel ++ [(d.entries.length, source)] } }
  | .entry e =>
    let content := (foreign.content e).reread project e
    { entries := d.entries ++ [e.reread project]
      foreign :=
        if content.isEmpty then d.foreign
        else { d.foreign with
          entries := d.foreign.entries.insert (e.reread project).path content } }

theorem mem_blocks_entry {e : Entry} {es : List Entry} {place : Nat} :
    .entry e ∈ blocks foreign place es ↔ e ∈ es := by
  induction es generalizing place with
  | nil => simp [blocks]
  | cons e' es ih =>
    rw [blocks, List.mem_append, List.mem_cons, List.mem_cons, ih, Block.entry.injEq]
    constructor
    · rintro (h | h)
      · simp at h
      · exact h
    · exact .inr

theorem mem_blocks_kept {source : String} {es : List Entry} {place : Nat} :
    .kept source ∈ blocks foreign place es ↔
      ∃ item ∈ foreign.topLevel, place ≤ item.1 ∧ item.2 = source := by
  have items : ∀ p : Nat × String → Bool,
      .kept source ∈ (foreign.topLevel.filter p).map (fun item ↦ Block.kept item.2) ↔
        ∃ item ∈ foreign.topLevel, p item ∧ item.2 = source := by
    intro p
    simp [List.mem_map, List.mem_filter, and_assoc]
  induction es generalizing place with
  | nil =>
    rw [blocks, items]
    simp only [decide_eq_true_eq]
  | cons e es ih =>
    have hrest : Block.kept source ∈ _ ↔ _ := @ih (place + 1)
    rw [blocks, List.mem_append, List.mem_cons, items, hrest]
    constructor
    · rintro (⟨item, hi, hp, hs⟩ | h | ⟨item, hi, hp, hs⟩)
      · exact ⟨item, hi, Nat.le_of_eq (of_decide_eq_true hp).symm, hs⟩
      · cases h
      · exact ⟨item, hi, Nat.le_of_succ_le hp, hs⟩
    · rintro ⟨item, hi, hp, hs⟩
      by_cases he : item.1 = place
      · exact .inl ⟨item, hi, decide_eq_true he, hs⟩
      · exact .inr (.inr ⟨item, hi, by omega, hs⟩)

/-- A block that was kept or written, as far as reading it back is concerned. -/
private def Block.Sound (b : Block) : Prop :=
  match b with
  | .kept source => ∃ n, Faithful n ∧ n.isText = false ∧
      (n.isElement → n.name ≠ fileWords.entry) ∧ source = String.ofList n.source
  | .entry e => e.Plain

private theorem sound_of_mem_blocks (hk : foreign.Kept) {es : List Entry}
    (he : ∀ e ∈ es, e.Plain) {place : Nat} {b : Block} (hb : b ∈ blocks foreign place es) :
    b.Sound := by
  cases b with
  | kept source =>
    obtain ⟨item, hi, -, rfl⟩ := mem_blocks_kept.mp hb
    exact hk.topLevel item hi
  | entry e => exact he e (mem_blocks_entry.mp hb)

private theorem piece_block (hk : foreign.Kept) {b : Block} (hb : b.Sound) :
    Piece [] (blockText project foreign b) (blockNodes project foreign b) ∧
      (blockText project foreign b).head? = some '<' := by
  cases b with
  | kept source =>
    obtain ⟨n, hn, htext, -, rfl⟩ := hb
    change Piece [] (String.ofList n.source).toList _ ∧ (String.ofList n.source).toList.head? = _
    rw [String.toList_ofList]
    exact ⟨(hn.alone htext).1, hn.head_source htext⟩
  | entry e =>
    refine ⟨piece_entry project e (hk.content e), ?_⟩
    change (entryText project e (foreign.content e)).head? = _
    unfold entryText
    split <;> rfl

/-- Reading the node of a block takes in the block. -/
private theorem decodeChild_block (hk : foreign.Kept) {b : Block} (hb : b.Sound) {ns : List Node}
    (h : blockNodes project foreign b = some ns) :
    ∃ n, ns = [n] ∧ ∀ d : Document, d.decodeChild project n = .ok (takeBlock project foreign d b) := by
  cases b with
  | kept source =>
    obtain ⟨n, hn, htext, hname, rfl⟩ := hb
    obtain ⟨n', rfl, halike⟩ := (hn.alone htext).2 ns h
    refine ⟨n', rfl, fun d ↦ ?_⟩
    have htext' := halike.isText.trans htext
    rw [takeBlock, ← halike.source]
    cases n' with
    | text source => cases htext'
    | comment source => rfl
    | instruction source => rfl
    | element name attributes children source =>
      rw [Document.decodeChild, if_neg]
      intro he
      exact hname halike.isElement.symm (halike.name.symm.trans he)
  | entry e =>
    obtain ⟨as, cs, source, rfl, hentry, hforeign⟩ := entryNodes_read (hk.content e) hb h
    refine ⟨_, rfl, fun d ↦ ?_⟩
    rw [Document.decodeChild, if_pos rfl, hentry, bind_ok, hforeign]
    rfl

/-! ### The characters of written documents -/

private theorem storable_joinWith {ps : List String} (h : ∀ p ∈ ps, Storable p) :
    Storable (String.ofList (Text.joinWith patternSeparator (ps.map String.toList))) := by
  intro c hc
  rw [String.toList_ofList] at hc
  rcases Text.mem_joinWith hc with rfl | ⟨field, hf, hc⟩
  · decide
  · obtain ⟨p, hp, rfl⟩ := List.mem_map.mp hf
    exact h p hp c hc

private theorem storable_encodePatterns {name : String} {ps : List String}
    (h : ∀ p ∈ ps, Storable p) : ∀ a ∈ encodePatterns name ps, Storable a.2 := by
  intro a ha
  unfold encodePatterns at ha
  split at ha
  · cases ha
  · obtain rfl := List.mem_singleton.mp ha
    exact storable_joinWith h

private theorem storable_encodeFlag {name : String} {isSet : Bool} :
    ∀ a ∈ encodeFlag name isSet, Storable a.2 := by
  intro a ha
  unfold encodeFlag at ha
  split at ha
  · obtain rfl := List.mem_singleton.mp ha
    exact (by decide : Storable "true")
  · cases ha

private theorem storable_encodeAttachment {name : String} {path : Option Path}
    (h : ∀ p ∈ path.toList, Storable p.toString) :
    ∀ a ∈ encodeAttachment name path, Storable a.2 := by
  intro a ha
  obtain ⟨p, hp, rfl⟩ := List.mem_map.mp ha
  exact h p hp

private theorem storable_fileWord (kind : EntryKind) : Storable kind.fileWord := by
  cases kind <;> decide

/-- The values of the attributes of an entry can be stored if its path can. -/
private theorem storable_encodeAttributes {content : ForeignContent} (hc : content.Kept) {e : Entry}
    (he : e.Plain) : (∀ a ∈ encodeAttributes project e content, Storable a.2) ↔
      Storable (encodePath project e) := by
  have hperm := encodeAttributes_perm project e hc
  constructor
  · intro h
    refine h (fileWords.path, encodePath project e) (hperm.mem_iff.mpr (List.mem_append_left _ ?_))
    simp [knownPart]
  · intro h a ha
    have hpatterns : ∀ ps : List String, ps ⊆ e.inclusions ++ e.exclusions →
        ∀ p ∈ ps, Storable p := fun ps hps p hp ↦ (he.patterns p (hps hp)).2.2
    rcases List.mem_append.mp (hperm.mem_iff.mp ha) with ha | ha
    · simp only [knownPart, List.mem_append, List.mem_cons, List.not_mem_nil, or_false] at ha
      rcases ha with (((((((rfl | rfl) | ha) | ha) | ha) | ha) | ha) | ha)
      · exact storable_fileWord e.kind
      · exact h
      · exact storable_encodeFlag a ha
      · exact storable_encodeFlag a ha
      · exact storable_encodePatterns (hpatterns _ (List.subset_append_left _ _)) a ha
      · exact storable_encodePatterns (hpatterns _ (List.subset_append_right _ _)) a ha
      · exact storable_encodeAttachment
          (fun p hp ↦ he.attachments p (List.mem_append_left _ hp)) a ha
      · exact storable_encodeAttachment
          (fun p hp ↦ he.attachments p (List.mem_append_right _ hp)) a ha
    · exact (hc.attributes a ha).2.2.1

private theorem isDocumentChar_gap (depth : Nat) : ∀ c ∈ gap depth, isDocumentChar c := by
  intro c hc
  have hspace := isSpace_gap depth c hc
  simp only [isSpace, Bool.or_eq_true, decide_eq_true_eq] at hspace
  rcases hspace with ((rfl | rfl) | rfl) | rfl <;> decide

private theorem isDocumentChar_flatMap {α : Type} {xs : List α} {depth : Nat}
    {text : α → List Char} (h : ∀ x ∈ xs, ∀ c ∈ text x, isDocumentChar c) :
    ∀ c ∈ xs.flatMap fun x ↦ gap depth ++ text x, isDocumentChar c := by
  intro c hc
  obtain ⟨x, hx, hc⟩ := List.mem_flatMap.mp hc
  rcases List.mem_append.mp hc with hc | hc
  · exact isDocumentChar_gap depth c hc
  · exact h x hx c hc

private theorem localName_word {name : String} (h : name ∈ formatNames) : LocalName name.toList :=
  (localName_formatNames name h).1

private theorem isDocumentChar_groupText {e : Entry} (he : e.Plain) :
    ∀ c ∈ groupText e, isDocumentChar c := by
  have hopen : ∀ c ∈ openTagText fileWords.attributes.toList [] false, isDocumentChar c :=
    List.all_eq_true.mp (by decide)
  have hclose : ∀ c ∈ closeTagText fileWords.attributes.toList, isDocumentChar c :=
    List.all_eq_true.mp (by decide)
  unfold groupText
  split
  · nofun
  · rw [List.forall_mem_append, List.forall_mem_append, List.forall_mem_append,
      List.forall_mem_append]
    refine ⟨isDocumentChar_gap 2, ⟨hopen, isDocumentChar_flatMap fun a ha ↦ ?_,
      isDocumentChar_gap 2⟩, hclose⟩
    rw [itemText, isDocumentChar_openTagText (localName_word (by decide))]
    · intro b hb
      simp only [List.mem_cons, List.not_mem_nil, or_false] at hb
      rcases hb with rfl | rfl
      · exact (he.attributes a ha).1
      · exact (he.attributes a ha).2
    · intro b hb
      simp only [List.mem_cons, List.not_mem_nil, or_false] at hb
      rcases hb with rfl | rfl
      · exact localName_word (by decide : "name" ∈ formatNames)
      · exact localName_word (by decide : "value" ∈ formatNames)

/-- The text of an entry can be stored if its path can. -/
private theorem isDocumentChar_entryText {content : ForeignContent} (hc : content.Kept) {e : Entry}
    (he : e.Plain) : (∀ c ∈ entryText project e content, isDocumentChar c) ↔
      Storable (encodePath project e) := by
  have hname := localName_word (by decide : fileWords.entry ∈ formatNames)
  have htag := isDocumentChar_openTagText hname
    fun a ha ↦ (writable_encodeAttributes project e hc a ha).1
  have hinner : ∀ c ∈ innerText e content, isDocumentChar c := by
    rw [innerText, List.forall_mem_append, List.forall_mem_append]
    refine ⟨⟨isDocumentChar_groupText he, isDocumentChar_flatMap fun s hs ↦ ?_⟩,
      isDocumentChar_gap 1⟩
    obtain ⟨n, hn, -, -, rfl⟩ := hc.children s hs
    rw [String.toList_ofList]
    exact hn.source_chars
  rw [← storable_encodeAttributes hc he]
  unfold entryText
  split
  · exact htag true
  · rw [List.forall_mem_append, List.forall_mem_append, htag false]
    exact ⟨fun h ↦ h.1.1, fun h ↦ ⟨⟨h, hinner⟩, isDocumentChar_closeTagText hname⟩⟩

/-- A written document consists of characters of documents exactly if the paths of its entries do. -/
theorem storable_encode {d : Document} (hk : d.foreign.Kept) (he : ∀ e ∈ d.entries, e.Plain) :
    Storable (d.encode project) ↔ ∀ e ∈ d.entries, Storable (encodePath project e) := by
  have hheader : ∀ c ∈ documentHeader.toList, isDocumentChar c :=
    List.all_eq_true.mp (by decide)
  have hend : ∀ c ∈ ['\n'], isDocumentChar c := List.all_eq_true.mp (by decide)
  have hopen : ∀ c ∈ openTagText fileWords.root.toList [] false, isDocumentChar c :=
    List.all_eq_true.mp (by decide)
  have hclose : ∀ c ∈ closeTagText fileWords.root.toList, isDocumentChar c :=
    List.all_eq_true.mp (by decide)
  have hblock : ∀ e ∈ d.entries,
      ((∀ c ∈ blockText project d.foreign (.entry e), isDocumentChar c) ↔
        Storable (encodePath project e)) :=
    fun e h ↦ isDocumentChar_entryText (hk.content e) (he e h)
  rw [Storable, toList_encode, List.forall_mem_append, List.forall_mem_append,
    List.forall_mem_append, List.forall_mem_append, rootText, List.forall_mem_append]
  constructor
  · rintro ⟨⟨-, ⟨-, h, -⟩, -⟩, -⟩ e hmem
    refine (hblock e hmem).mp fun c hc ↦ h c (List.mem_flatMap.mpr ⟨.entry e, ?_, ?_⟩)
    · exact mem_blocks_entry.mpr hmem
    · exact List.mem_append_right _ hc
  · intro h
    refine ⟨⟨hheader, ⟨hopen, isDocumentChar_flatMap fun b hb ↦ ?_, isDocumentChar_gap 0⟩,
      hclose⟩, hend⟩
    cases b with
    | kept source =>
      obtain ⟨item, hi, -, rfl⟩ := mem_blocks_kept.mp hb
      obtain ⟨n, hn, -, -, hs⟩ := hk.topLevel item hi
      rw [blockText, hs, String.toList_ofList]
      exact hn.source_chars
    | entry e => exact (hblock e (mem_blocks_entry.mp hb)).mpr (h e (mem_blocks_entry.mp hb))

/-! ### Whole documents -/

/-- The children of the root of a written document, if all blocks can be read. -/
def rootNodes (project : Path) (d : Document) : Option (List Node) :=
  both (gathered (gap 1) (blockNodes project d.foreign) (blocks d.foreign 0 d.entries))
    (some [.text (gap 0)])

/-- The header of a document is a declaration; a line end remains. -/
theorem skipDeclaration_documentHeader (rest : List Char) :
    skipDeclaration (dropMark (documentHeader.toList ++ rest)) = .ok ('\n' :: rest) := by
  change skipDeclaration ('<' :: '?' :: 'x' :: 'm' :: 'l' :: ' ' ::
    ("version=\"1.0\" encoding=\"UTF-8\"?>\n".toList ++ rest)) = _
  rw [skipDeclaration_cons]
  change ((if ('?' :: '>' :: '\n' :: rest).length =
    ("encoding=\"UTF-8\"?>\n".toList ++ rest).length then _ else _ : Except _ _) >>= _) = _
  rw [if_neg (by simp)]
  rfl

/-- A written document as it is read, if all its blocks can be read. -/
def Document.reread (project : Path) (d : Document) : Document :=
  (blocks d.foreign 0 d.entries).foldl (takeBlock project d.foreign) {}

/-- The document that is written can be read. -/
structure Document.Readable (project : Path) (d : Document) : Prop where
  storable : Storable (d.encode project)
  blocks : ∀ b ∈ blocks d.foreign 0 d.entries, (blockNodes project d.foreign b).isSome

/-- Reading the nodes of blocks, with gaps before them, takes in the blocks. -/
private theorem foldlM_decodeChild (hk : foreign.Kept) {bs : List Block} (hb : ∀ b ∈ bs, b.Sound)
    (h : ∀ b ∈ bs, (blockNodes project foreign b).isSome) (d : Document) :
    (bs.flatMap fun b ↦ .text (gap 1) :: (blockNodes project foreign b).getD []).foldlM
      (Document.decodeChild project) d = .ok (bs.foldl (takeBlock project foreign) d) := by
  induction bs generalizing d with
  | nil => rfl
  | cons b bs ih =>
    obtain ⟨ns, hns⟩ := Option.isSome_iff_exists.mp (h b List.mem_cons_self)
    obtain ⟨n, rfl, hchild⟩ := decodeChild_block hk (hb b List.mem_cons_self) hns
    rw [List.flatMap_cons, hns, List.foldlM_append, List.foldl_cons,
      ← ih (fun b' hb' ↦ hb b' (List.mem_cons_of_mem b hb'))
        fun b' hb' ↦ h b' (List.mem_cons_of_mem b hb')]
    change (Document.decodeChild project d n >>= pure) >>= _ = _
    rw [hchild d]
    rfl

/-- A written document is parsed as its root element, if its characters and blocks allow it. -/
theorem parseTree_encode {d : Document} (hk : d.foreign.Kept)
    (he : ∀ e ∈ d.entries, e.Plain) :
    Yields (parseTree (d.encode project))
      (if (d.encode project).toList.all isDocumentChar then
        (rootNodes project d).map (writtenElement fileWords.root.toList []) else none) := by
  have hcontent : Content [] (rootText project d) (rootNodes project d) := by
    refine Piece.trailing (piece_gathered (gap_ne_nil 1) (isSpace_gap 1) fun b hb ↦ ?_)
      (gap_ne_nil 0) (isSpace_gap 0)
    exact piece_block hk (sound_of_mem_blocks hk he hb)
  have hbody := parseBody_written (isSpace_gap 0) (isSpace_gap 0)
    (localName_word (by decide : fileWords.root ∈ formatNames)) hcontent
  have htext : dropMark (d.encode project).toList = (d.encode project).toList := by
    rw [toList_encode]
    rfl
  have hskip : skipDeclaration (dropMark (d.encode project).toList) =
      .ok (gap 0 ++ (openTagText fileWords.root.toList [] false ++ rootText project d ++
        closeTagText fileWords.root.toList) ++ gap 0) := by
    rw [toList_encode, List.append_assoc, skipDeclaration_documentHeader]
    rfl
  rw [parseTree, htext, parse_eq hskip]
  by_cases hs : (d.encode project).toList.all isDocumentChar
  · rw [if_pos hs, if_pos hs]
    cases hr : (rootNodes project d).map (writtenElement fileWords.root.toList []) with
    | none =>
      rw [hr] at hbody
      obtain ⟨e, h⟩ := hbody
      exact ⟨_, by rw [h]⟩
    | some root =>
      rw [hr] at hbody
      rw [show parseBody _ = .ok root from hbody]
      rfl
  · rw [if_neg hs, if_neg hs]
    exact ⟨_, rfl⟩

/-- A written document is read exactly if it is readable, and then block by block. -/
theorem decode_encode {d d' : Document} (hk : d.foreign.Kept) (he : ∀ e ∈ d.entries, e.Plain) :
    Document.decode project (d.encode project) = .ok d' ↔
      d.Readable project ∧ d' = d.reread project := by
  have hparse : Yields (parseTree (d.encode project)) _ := parseTree_encode hk he
  have hread : ∀ ns, rootNodes project d = some ns →
      (∀ b ∈ blocks d.foreign 0 d.entries, (blockNodes project d.foreign b).isSome) ∧
        ns.foldlM (Document.decodeChild project) {} = .ok (d.reread project) := by
    intro ns hns
    obtain ⟨ns₁, h₁, h⟩ := Option.bind_eq_some_iff.mp hns
    obtain rfl := Option.some.inj h
    obtain ⟨hall, rfl⟩ := gathered_eq_some h₁
    refine ⟨hall, ?_⟩
    rw [List.foldlM_append,
      foldlM_decodeChild hk (fun b hb ↦ sound_of_mem_blocks hk he hb) hall]
    rfl
  have hdecode : ∀ ns, parseTree (d.encode project) =
      .ok (writtenElement fileWords.root.toList [] ns) → Document.decode project (d.encode project) =
        ns.foldlM (Document.decodeChild project) {} := by
    intro ns hns
    rw [decode_eq, hns, bind_ok, if_neg]
    · rfl
    · exact not_not.mpr rfl
  constructor
  · intro h
    by_cases hs : (d.encode project).toList.all isDocumentChar
    · rw [if_pos hs] at hparse
      cases hns : rootNodes project d with
      | none =>
        rw [hns] at hparse
        obtain ⟨e, herror⟩ := hparse
        rw [decode_eq, herror] at h
        cases h
      | some ns =>
        rw [hns] at hparse
        obtain ⟨hall, hfold⟩ := hread ns hns
        rw [hdecode ns hparse, hfold] at h
        exact ⟨⟨List.all_eq_true.mp hs, hall⟩, (Except.ok.inj h).symm⟩
    · rw [if_neg hs] at hparse
      obtain ⟨e, herror⟩ := hparse
      rw [decode_eq, herror] at h
      cases h
  · rintro ⟨⟨hs, hall⟩, rfl⟩
    obtain ⟨ns, hns⟩ : ∃ ns, rootNodes project d = some ns :=
      ⟨_, by rw [rootNodes, gathered_eq hall]; rfl⟩
    rw [if_pos (List.all_eq_true.mpr hs), hns] at hparse
    rw [hdecode ns hparse, (hread ns hns).2]

end Buildpath
