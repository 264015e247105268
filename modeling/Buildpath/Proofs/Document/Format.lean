import Buildpath.Proofs.Document.Stored
import Mathlib.Data.List.Nodup

/-!
# Formatting

What is left of a document after it was written and read again. The entries come back if their paths
do, and then the items of the root keep their places and the foreign content its text. Writing and
reading is stable exactly if moreover nothing foreign needs what surrounded it (`format_stable_iff`).
-/

namespace Buildpath

open Xml

variable {project : Path} {foreign : Foreign}

/-! ### Entries and items of the root -/

/-- The entry of a block. -/
def Block.entry? : Block → Option Entry
  | .kept _ => none
  | .entry e => some e

/-- The entries among the blocks of a document. -/
theorem filterMap_blocks (place : Nat) (es : List Entry) :
    (blocks foreign place es).filterMap Block.entry? = es := by
  have items : ∀ items : List (Nat × String),
      (items.map fun item ↦ Block.kept item.2).filterMap Block.entry? = [] := by
    intro items
    rw [List.filterMap_map, List.filterMap_eq_nil_iff]
    exact fun _ _ ↦ rfl
  induction es generalizing place with
  | nil => exact items _
  | cons e es ih =>
    rw [blocks, List.filterMap_append, items, List.nil_append, List.filterMap_cons]
    simp only [Block.entry?, ih]

private theorem entries_foldl (bs : List Block) (d : Document) :
    (bs.foldl (takeBlock project foreign) d).entries =
      d.entries ++ (bs.filterMap Block.entry?).map (Entry.reread project) := by
  induction bs generalizing d with
  | nil => simp
  | cons b bs ih =>
    rw [List.foldl_cons, ih]
    cases b with
    | kept source => rfl
    | entry e => simp [takeBlock, Block.entry?]

/-- The entries of a document that was written and read. -/
theorem entries_reread (project : Path) (d : Document) :
    (d.reread project).entries = d.entries.map (Entry.reread project) := by
  rw [Document.reread, entries_foldl, filterMap_blocks]
  rfl

private theorem foldl_kept (items : List (Nat × String)) (d : Document) :
    (items.map fun item ↦ Block.kept item.2).foldl (takeBlock project foreign) d =
      { d with foreign := { d.foreign with
          topLevel := d.foreign.topLevel ++ items.map fun item ↦ (d.entries.length, item.2) } } := by
  induction items generalizing d with
  | nil => simp
  | cons item items ih =>
    rw [List.map_cons, List.foldl_cons, ih]
    simp [takeBlock]

/-- Items of the root in the order of their places, none after the end. -/
structure Document.Ordered (d : Document) : Prop where
  sorted : d.foreign.topLevel.Pairwise fun item item' ↦ item.1 ≤ item'.1
  bound : ∀ item ∈ d.foreign.topLevel, item.1 ≤ d.entries.length

/-- The items from a place on are those at the place and those after it. -/
theorem filter_places {items : List (Nat × String)}
    (h : items.Pairwise fun item item' ↦ item.1 ≤ item'.1) (place : Nat) :
    items.filter (fun item ↦ place ≤ item.1) =
      items.filter (fun item ↦ item.1 = place) ++ items.filter fun item ↦ place + 1 ≤ item.1 := by
  induction items with
  | nil => rfl
  | cons item items ih =>
    obtain ⟨hitem, hrest⟩ := List.pairwise_cons.mp h
    rcases Nat.lt_trichotomy item.1 place with hlt | heq | hgt
    · rw [List.filter_cons_of_neg (by simp; omega), List.filter_cons_of_neg (by simp; omega),
        List.filter_cons_of_neg (by simp; omega), ih hrest]
    · rw [List.filter_cons_of_pos (by simp; omega), List.filter_cons_of_pos (by simp; omega),
        List.filter_cons_of_neg (by simp; omega), ih hrest]
      rfl
    · -- nothing stands at the place any more
      have hnone : items.filter (fun item ↦ item.1 = place) = [] := by
        rw [List.filter_eq_nil_iff]
        intro item' hi
        have := hitem item' hi
        simp
        omega
      rw [List.filter_cons_of_pos (by simp; omega), List.filter_cons_of_neg (by simp; omega),
        List.filter_cons_of_pos (by simp; omega), ih hrest, hnone]
      rfl

private theorem map_place {items : List (Nat × String)} {place : Nat}
    (h : ∀ item ∈ items, item.1 = place) : items.map (fun item ↦ (place, item.2)) = items := by
  conv_rhs => rw [← List.map_id items]
  exact List.map_congr_left fun item hi ↦ Prod.ext (h item hi).symm rfl

private theorem topLevel_foldl
    (hs : foreign.topLevel.Pairwise fun item item' ↦ item.1 ≤ item'.1) {es : List Entry}
    {d : Document} (hb : ∀ item ∈ foreign.topLevel, item.1 ≤ d.entries.length + es.length) :
    ((blocks foreign d.entries.length es).foldl (takeBlock project foreign) d).foreign.topLevel =
      d.foreign.topLevel ++ foreign.topLevel.filter fun item ↦ d.entries.length ≤ item.1 := by
  induction es generalizing d with
  | nil =>
    rw [blocks, foldl_kept, map_place]
    intro item hi
    obtain ⟨hi, hle⟩ := List.mem_filter.mp hi
    exact Nat.le_antisymm (hb item hi) (of_decide_eq_true hle)
  | cons e es ih =>
    rw [blocks, List.foldl_append, foldl_kept, List.foldl_cons,
      map_place fun item hi ↦ of_decide_eq_true (List.mem_filter.mp hi).2]
    generalize hd : takeBlock project foreign _ (.entry e) = d'
    have hlength : d'.entries.length = d.entries.length + 1 := by
      rw [← hd]
      simp [takeBlock]
    have htop : d'.foreign.topLevel = d.foreign.topLevel ++
        foreign.topLevel.filter fun item ↦ item.1 = d.entries.length := by
      rw [← hd, takeBlock]
      dsimp only
      split <;> rfl
    rw [← hlength, ih, htop, hlength, List.append_assoc, ← filter_places hs]
    intro item hi
    have := hb item hi
    rw [List.length_cons] at this
    omega

/-- The items of the root of a document that was written and read. -/
theorem topLevel_reread {d : Document} (h : d.Ordered) :
    (d.reread project).foreign.topLevel = d.foreign.topLevel := by
  have hb : ∀ item ∈ d.foreign.topLevel, item.1 ≤ 0 + d.entries.length := by
    intro item hi
    rw [Nat.zero_add]
    exact h.bound item hi
  have hfold : (d.reread project).foreign.topLevel = _ :=
    topLevel_foldl (d := {}) h.sorted hb
  rw [hfold, List.filter_eq_self.mpr fun item _ ↦ decide_eq_true (Nat.zero_le item.1)]
  rfl

/-- A child of the root that is kept stands after all that was read before. -/
theorem Document.Ordered.takes {d d' : Document} {n : Node} (hd : d.Ordered)
    (h : d.Takes project n d') : d'.Ordered := by
  cases h with
  | text ht => exact hd
  | kept ht hname =>
    refine ⟨List.pairwise_append.mpr ⟨hd.sorted, List.pairwise_singleton _ _, ?_⟩, ?_⟩
    · intro item hi item' hi'
      obtain rfl := List.mem_singleton.mp hi'
      exact hd.bound item hi
    · intro item hi
      rcases List.mem_append.mp hi with hi | hi
      · exact hd.bound item hi
      · obtain rfl := List.mem_singleton.mp hi
        exact Nat.le_refl _
  | entry hname he =>
    refine ⟨hd.sorted, fun item hi ↦ ?_⟩
    dsimp only
    rw [List.length_append]
    exact Nat.le_succ_of_le (hd.bound item hi)

theorem ordered_nil : Document.Ordered {} := ⟨.nil, nofun⟩

/-- The items of the root of a document that was read. -/
theorem ordered_of_decode {text : String} {d : Document}
    (h : Document.decode project text = .ok d) : d.Ordered := by
  obtain ⟨root, -, h⟩ := exists_root_of_decode h
  exact foldlM_keeps (I := Document.Ordered)
    (fun n _ d d' hd hs ↦ hd.takes (takes_of_decodeChild hs)) ordered_nil h

/-! ### Foreign content of entries -/

/-- What an entry element leaves as the foreign content of a path. -/
private def contentAt (project : Path) (foreign : Foreign) (path : Path) :
    Block → Option ForeignContent
  | .kept _ => none
  | .entry e =>
    let content := (foreign.content e).reread project e
    if (e.reread project).path = path ∧ content.isEmpty = false then some content else none

private theorem find?_takeBlock (d : Document) (b : Block) (path : Path) :
    (takeBlock project foreign d b).foreign.entries.find? path =
      (contentAt project foreign path b).or (d.foreign.entries.find? path) := by
  cases b with
  | kept source => rfl
  | entry e =>
    rw [takeBlock, contentAt]
    dsimp only
    split
    · next hempty =>
      rw [hempty, if_neg fun h ↦ Bool.false_ne_true h.2.symm]
      rfl
    · next hempty =>
      rw [Table.find?_insert]
      by_cases hpath : (e.reread project).path = path
      · rw [if_pos hpath, if_pos ⟨hpath, Bool.eq_false_iff.mpr hempty⟩]
        rfl
      · rw [if_neg hpath, if_neg fun h ↦ hpath h.1]
        rfl

/-- The last block that leaves content for a path decides. -/
private theorem find?_foldl (bs : List Block) (d : Document) (path : Path) :
    (bs.foldl (takeBlock project foreign) d).foreign.entries.find? path =
      (bs.reverse.findSome? (contentAt project foreign path)).or
        (d.foreign.entries.find? path) := by
  induction bs generalizing d with
  | nil => rfl
  | cons b bs ih =>
    rw [List.foldl_cons, ih, find?_takeBlock, List.reverse_cons, List.findSome?_append,
      Option.or_assoc]
    congr 1
    rw [List.findSome?_cons, List.findSome?_nil]
    cases contentAt project foreign path b <;> rfl

private theorem content_of_isEmpty {content : ForeignContent} (h : content.isEmpty) :
    content = {} := by
  obtain ⟨ha, hc⟩ := (Bool.and_eq_true _ _).mp h
  cases content with
  | mk attributes children =>
    obtain rfl := List.isEmpty_iff.mp ha
    obtain rfl := List.isEmpty_iff.mp hc
    rfl

/-- The foreign content of an entry of a document that was written and read is the old one as some
entry with its path left it. -/
theorem content_reread {d : Document} (he : ∀ e ∈ d.entries, e.reread project = e) {e : Entry}
    (hmem : e ∈ d.entries) : ∃ e' ∈ d.entries,
      (d.reread project).foreign.content e = (d.foreign.content e).reread project e' := by
  have hsame : ∀ {e' : Entry}, e'.path = e.path → d.foreign.content e' = d.foreign.content e := by
    intro e' h
    rw [Foreign.content, Foreign.content, h]
  have hfind : (d.reread project).foreign.entries.find? e.path =
      ((blocks d.foreign 0 d.entries).reverse.findSome? (contentAt project d.foreign e.path)).or
        none := find?_foldl _ {} e.path
  rw [Option.or_none] at hfind
  have hcontent : (d.reread project).foreign.content e = (((blocks d.foreign 0
      d.entries).reverse.findSome? (contentAt project d.foreign e.path)).getD {}) := by
    rw [Foreign.content, hfind]
  cases hlast : (blocks d.foreign 0 d.entries).reverse.findSome?
      (contentAt project d.foreign e.path) with
  | none =>
    refine ⟨e, hmem, ?_⟩
    rw [hcontent, hlast, Option.getD_none]
    have hnone := List.findSome?_eq_none_iff.mp hlast (.entry e)
      (List.mem_reverse.mpr (mem_blocks_entry.mpr hmem))
    rw [contentAt, he e hmem] at hnone
    split at hnone
    · cases hnone
    · next h =>
      refine (content_of_isEmpty ?_).symm
      simpa using h
  | some content =>
    obtain ⟨b, hb, hat⟩ := List.exists_of_findSome?_eq_some hlast
    rw [hcontent, hlast, Option.getD_some]
    cases b with
    | kept source => cases hat
    | entry e' =>
      have hmem' := mem_blocks_entry.mp (List.mem_reverse.mp hb)
      rw [contentAt, he e' hmem'] at hat
      split at hat
      · next h =>
        rw [hsame h.1] at hat
        exact ⟨e', hmem', (Option.some.inj hat).symm⟩
      · cases hat

/-! ### Texts that are written again -/

/-- With different names, the order of attributes does not matter to the order of their names. -/
private theorem mergeSort_perm_eq {as bs : List (String × String)} (h : as.Perm bs)
    (hn : (as.map Prod.fst).Nodup) :
    as.mergeSort (fun a b ↦ a.1 ≤ b.1) = bs.mergeSort fun a b ↦ a.1 ≤ b.1 := by
  have sorted : ∀ cs : List (String × String), (cs.mergeSort fun a b ↦ a.1 ≤ b.1).Pairwise
      fun a b ↦ decide (a.1 ≤ b.1) := by
    intro cs
    apply List.pairwise_mergeSort
    · intro a b c hab hbc
      exact decide_eq_true (String.le_trans (of_decide_eq_true hab) (of_decide_eq_true hbc))
    · intro a b
      simpa using String.le_total a.1 b.1
  refine List.Perm.eq_of_pairwise ?_ (sorted as) (sorted bs)
    ((List.mergeSort_perm as _).trans (h.trans (List.mergeSort_perm bs _).symm))
  intro a b ha hb hab hba
  have hname := String.le_antisymm (of_decide_eq_true hab) (of_decide_eq_true hba)
  exact List.inj_on_of_nodup_map hn (List.mem_mergeSort.mp ha)
    (h.mem_iff.mpr (List.mem_mergeSort.mp hb)) hname

/-- Foreign content that was written and read is written in the same way. -/
private theorem entryText_reread {content : ForeignContent} (hc : content.Kept)
    (hn : (content.attributes.map Prod.fst).Nodup) (e e' : Entry) :
    entryText project e (content.reread project e') = entryText project e content := by
  have hperm : ((content.reread project e').attributes).Perm content.attributes := by
    have hknown : (knownPart project e').filter (fun a ↦ a.1 ∉ knownAttributes) = [] := by
      rw [List.filter_eq_nil_iff]
      intro a ha h
      exact of_decide_eq_true h
        ((map_fst_knownPart project e').subset (List.mem_map_of_mem ha))
    have hforeign : content.attributes.filter (fun a ↦ a.1 ∉ knownAttributes) =
        content.attributes := by
      rw [List.filter_eq_self]
      exact fun a ha ↦ decide_eq_true (hc.attributes a ha).2.2.2
    refine ((encodeAttributes_perm project e' hc).filter _).trans ?_
    rw [List.filter_append, hknown, hforeign, List.nil_append]
  have hattributes : encodeAttributes project e (content.reread project e') =
      encodeAttributes project e content := by
    refine (mergeSort_perm_eq ((hperm.filter _).symm.append_left _) ?_).symm
    have hnodup := (nodup_encodeAttributes project e hc).mpr hn
    exact ((List.mergeSort_perm _ _).map Prod.fst).nodup_iff.mp hnodup
  unfold entryText
  rw [hattributes]
  rfl

/-- A document whose entries come back is written in the same way again. -/
theorem encode_reread {d : Document} (hk : d.foreign.Kept) (ho : d.Ordered)
    (he : ∀ e ∈ d.entries, e.reread project = e)
    (hn : ∀ e ∈ d.entries, ((d.foreign.content e).attributes.map Prod.fst).Nodup) :
    (d.reread project).encode project = d.encode project := by
  have hentries : (d.reread project).entries = d.entries := by
    rw [entries_reread]
    conv_rhs => rw [← List.map_id d.entries]
    exact List.map_congr_left he
  have hblocks : blocks (d.reread project).foreign 0 d.entries = blocks d.foreign 0 d.entries :=
    blocks_congr (topLevel_reread ho) 0 d.entries
  have htext : ∀ b ∈ blocks d.foreign 0 d.entries,
      blockText project (d.reread project).foreign b = blockText project d.foreign b := by
    intro b hb
    cases b with
    | kept source => rfl
    | entry e =>
      have hmem := mem_blocks_entry.mp hb
      obtain ⟨e', -, hcontent⟩ := content_reread he hmem
      rw [blockText, hcontent, entryText_reread (hk.content e) (hn e hmem)]
      rfl
  refine String.toList_inj.mp ?_
  rw [toList_encode, toList_encode, rootText, rootText, hentries, hblocks]
  congr 5
  rw [List.flatMap, List.flatMap, List.map_congr_left fun b hb ↦ by rw [htext b hb]]

/-! ### Stability -/

/-- An entry that survives being written and read: its texts can be stored, and its patterns and paths
read back as they are. -/
structure Entry.Survives (project : Path) (e : Entry) : Prop where
  plain : e.Plain
  storable : Storable (encodePath project e)
  reread : e.reread project = e

/-- Foreign content that needs nothing of what surrounded it: the items of the root and the children
of some entries can stand alone, and the attributes of each of them have different names. -/
structure Foreign.Independent (foreign : Foreign) (es : List Entry) : Prop where
  topLevel : ∀ item ∈ foreign.topLevel, Embeds item.2
  attributes : ∀ e ∈ es, ((foreign.content e).attributes.map Prod.fst).Nodup
  children : ∀ e ∈ es, ∀ c ∈ (foreign.content e).children, Embeds c

/-- The blocks of a document can be read exactly if its foreign content is independent. -/
private theorem isSome_blockNodes {d : Document} (hk : d.foreign.Kept) :
    (∀ b ∈ blocks d.foreign 0 d.entries, (blockNodes project d.foreign b).isSome) ↔
      d.foreign.Independent d.entries := by
  constructor
  · intro h
    have hentries := fun e he ↦
      (isSome_entryNodes (hk.content e)).mp (h (.entry e) (mem_blocks_entry.mpr he))
    refine ⟨fun item hi ↦ embeds_iff_isSome.mpr ?_, fun e he ↦ (hentries e he).1,
      fun e he ↦ (hentries e he).2⟩
    exact h (.kept item.2) (mem_blocks_kept.mpr ⟨item, hi, Nat.zero_le _, rfl⟩)
  · intro h b hb
    cases b with
    | kept source =>
      obtain ⟨item, hi, -, rfl⟩ := mem_blocks_kept.mp hb
      exact embeds_iff_isSome.mp (h.topLevel item hi)
    | entry e =>
      have he := mem_blocks_entry.mp hb
      exact (isSome_entryNodes (hk.content e)).mpr ⟨h.attributes e he, h.children e he⟩

/-- A document whose texts can be stored and whose foreign content is independent can be read. -/
theorem decode_encode_storable {d : Document} (hk : d.foreign.Kept) (he : ∀ e ∈ d.entries, e.Plain)
    (hs : ∀ e ∈ d.entries, Storable (encodePath project e)) (hf : d.foreign.Independent d.entries) :
    Document.decode project (d.encode project) = .ok (d.reread project) :=
  (decode_encode hk he).mpr ⟨⟨(storable_encode hk he).mpr hs, (isSome_blockNodes hk).mpr hf⟩, rfl⟩

/-- A document whose entries survive and whose foreign content is independent reads back. -/
theorem decode_encode_survives {d : Document} (hk : d.foreign.Kept)
    (he : ∀ e ∈ d.entries, e.Survives project) (hf : d.foreign.Independent d.entries) :
    Document.decode project (d.encode project) = .ok (d.reread project) ∧
      (d.reread project).entries = d.entries := by
  refine ⟨decode_encode_storable hk (fun e h ↦ (he e h).plain) (fun e h ↦ (he e h).storable) hf, ?_⟩
  rw [entries_reread]
  conv_rhs => rw [← List.map_id d.entries]
  exact List.map_congr_left fun e h ↦ (he e h).reread

/-- The entries of a document come back exactly if they survive and the foreign content is
independent. -/
theorem decode_encode_entries_iff {d : Document} (hk : d.foreign.Kept) :
    (∃ d', Document.decode project (d.encode project) = .ok d' ∧ d'.entries = d.entries) ↔
      (∀ e ∈ d.entries, e.Survives project) ∧ d.foreign.Independent d.entries := by
  constructor
  · rintro ⟨d', hd', hentries⟩
    have hplain : ∀ e ∈ d.entries, e.Plain := hentries ▸ plain_of_decode hd'
    obtain ⟨hreadable, rfl⟩ := (decode_encode hk hplain).mp hd'
    rw [entries_reread] at hentries
    have hsame : d.entries.map (Entry.reread project) = d.entries.map id :=
      hentries.trans (List.map_id _).symm
    exact ⟨fun e he ↦ ⟨hplain e he, (storable_encode hk hplain).mp hreadable.storable e he,
      List.map_inj_left.mp hsame e he⟩, (isSome_blockNodes hk).mp hreadable.blocks⟩
  · rintro ⟨he, hf⟩
    exact ⟨d.reread project, decode_encode_survives hk he hf⟩

/-- Writing an accepted document gives an accepted document with the same entries, which is written in
the same way again, exactly if its entries survive and its foreign content is independent. -/
theorem format_stable_iff {text : String} {d : Document}
    (h : Document.decode project text = .ok d) :
    (∃ d', Document.decode project (d.encode project) = .ok d' ∧ d'.entries = d.entries ∧
      d'.encode project = d.encode project) ↔
    (∀ e ∈ d.entries, e.Survives project) ∧ d.foreign.Independent d.entries := by
  have hk := kept_of_decode h
  constructor
  · rintro ⟨d', hd', hentries, -⟩
    exact (decode_encode_entries_iff hk).mp ⟨d', hd', hentries⟩
  · rintro ⟨he, hf⟩
    obtain ⟨hdecode, hentries⟩ := decode_encode_survives hk he hf
    exact ⟨d.reread project, hdecode, hentries,
      encode_reread hk (ordered_of_decode h) (fun e hmem ↦ (he e hmem).reread) hf.attributes⟩

/-- A document with a foreign attribute and a comment is stable. -/
theorem format_stable_comment :
    ∃ d, Document.decode (.parse "/p")
        "<buildpath><buildpathentry kind=\"src\" path=\"src\" v=\"1\"/><!--c--></buildpath>" = .ok d ∧
      ∃ d', Document.decode (.parse "/p") (d.encode (.parse "/p")) = .ok d' ∧
        d'.entries = d.entries ∧ d'.encode (.parse "/p") = d.encode (.parse "/p") := by
  have hd : Document.decode (.parse "/p")
      "<buildpath><buildpathentry kind=\"src\" path=\"src\" v=\"1\"/><!--c--></buildpath>" =
      .ok ⟨[.source (.parse "/p/src")],
        ⟨⟨[(.parse "/p/src", ⟨[("v", "1")], []⟩)]⟩, [(1, "<!--c-->")]⟩⟩ := rfl
  refine ⟨_, hd, (format_stable_iff hd).mpr ⟨fun e he ↦ ?_, ⟨fun item hi ↦ ?_, ?_, ?_⟩⟩⟩
  · obtain rfl := List.mem_singleton.mp he
    exact ⟨⟨nofun, nofun, nofun⟩, by decide, by decide⟩
  · obtain rfl := List.mem_singleton.mp hi
    exact ⟨_, rfl⟩
  · decide
  · intro e he
    obtain rfl := List.mem_singleton.mp he
    exact nofun

/-- A foreign element whose prefix the root declares is written without the declaration; the document
that is written is refused. -/
theorem format_loses_prefix : ∃ (project : Path) (text : String) (d : Document),
    Document.decode project text = .ok d ∧
      ¬ ∃ d', Document.decode project (d.encode project) = .ok d' ∧ d'.entries = d.entries ∧
        d'.encode project = d.encode project := by
  refine ⟨.parse "/p", "<buildpath xmlns:v=\"urn:v\"><v:x/></buildpath>",
    ⟨[], ⟨.empty, [(0, "<v:x/>")]⟩⟩, rfl, ?_⟩
  rintro ⟨d', h, -⟩
  have herror : Document.decode (.parse "/p")
      (Document.encode (.parse "/p") ⟨[], ⟨.empty, [(0, "<v:x/>")]⟩⟩) =
      .error (.malformed .unknownPrefix) := rfl
  rw [herror] at h
  cases h

end Buildpath
