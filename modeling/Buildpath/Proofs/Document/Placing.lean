import Buildpath.Proofs.Document.Format

/-!
# Items of the root among other entries

The items of the root of a document that was read can be written among any entries. Each of them is
written once and in the order in which they were read, after as many entries as stood before it, or after
all of them if there are fewer (`encode_places_items`).
-/

namespace Buildpath

open Xml

variable {project : Path} {foreign : Foreign} {before after : List (Nat × String)} {k place : Nat}
  {source : String}

/-- The source text of an item that is kept. -/
def Block.kept? : Block → Option String
  | .kept source => some source
  | .entry _ => none

/-- The text of a document whose root holds some blocks. -/
def layoutText (project : Path) (foreign : Foreign) (bs : List Block) : List Char :=
  documentHeader.toList ++ (openTagText fileWords.root.toList [] false ++
    (bs.flatMap (fun b ↦ gap 1 ++ blockText project foreign b) ++ gap 0) ++
      closeTagText fileWords.root.toList) ++ ['\n']

/-- An item of the root among the blocks of a document, with the items and the number of entries that
stand before it. -/
def PlacedAfter (bs : List Block) (source : String) (items : List String) (entries : Nat) : Prop :=
  ∃ before after, bs = before ++ .kept source :: after ∧
    before.filterMap Block.kept? = items ∧ (before.filterMap Block.entry?).length = entries

/-! ### Blocks of items -/

private theorem kept_items (items : List (Nat × String)) :
    (items.map fun item ↦ Block.kept item.2).filterMap Block.kept? = items.map Prod.snd := by
  rw [List.filterMap_map, ← List.filterMap_eq_map]
  rfl

private theorem entries_items (items : List (Nat × String)) :
    (items.map fun item ↦ Block.kept item.2).filterMap Block.entry? = [] := by
  rw [List.filterMap_map, List.filterMap_eq_nil_iff]
  exact fun _ _ ↦ rfl

/-- Every item from a place on is written once, in order. -/
theorem filterMap_kept_blocks (hs : foreign.topLevel.Pairwise fun item item' ↦ item.1 ≤ item'.1)
    (place : Nat) (es : List Entry) : (blocks foreign place es).filterMap Block.kept? =
      (foreign.topLevel.filter fun item ↦ place ≤ item.1).map Prod.snd := by
  induction es generalizing place with
  | nil => rw [blocks, kept_items]
  | cons e es ih =>
    rw [blocks, List.filterMap_append, kept_items, filter_places hs, List.map_append, ← ih]
    rfl

/-- An item among others, with nothing but them before it. -/
private theorem placedAfter_items (before after : List (Nat × String)) (k : Nat) (source : String)
    (rest : List Block) :
    PlacedAfter ((before ++ (k, source) :: after).map (fun item ↦ .kept item.2) ++ rest) source
      (before.map Prod.snd) 0 := by
  refine ⟨before.map fun item ↦ .kept item.2, after.map (fun item ↦ .kept item.2) ++ rest, ?_,
    kept_items before, ?_⟩
  · rw [List.map_append, List.map_cons, List.append_assoc, List.cons_append]
  · rw [entries_items, List.length_nil]

/-- Items and an entry before the others. -/
private theorem PlacedAfter.later {bs : List Block} {items : List String} {entries : Nat}
    (h : PlacedAfter bs source items entries) (earlier : List (Nat × String)) (e : Entry) :
    PlacedAfter (earlier.map (fun item ↦ .kept item.2) ++ .entry e :: bs) source
      (earlier.map Prod.snd ++ items) (entries + 1) := by
  obtain ⟨pre, post, rfl, hitems, hentries⟩ := h
  refine ⟨earlier.map (fun item ↦ .kept item.2) ++ .entry e :: pre, post, ?_, ?_, ?_⟩
  · rw [List.append_assoc, List.cons_append]
  · rw [List.filterMap_append, kept_items, ← hitems]
    rfl
  · rw [List.filterMap_append, entries_items, List.nil_append, ← hentries]
    rfl

/-- An item that comes from a place on stands after the entries up to its own place. -/
private theorem placedAfter_blocks
    (hs : foreign.topLevel.Pairwise fun item item' ↦ item.1 ≤ item'.1)
    (hitem : foreign.topLevel = before ++ (k, source) :: after) (es : List Entry) (hplace : place ≤ k) :
    PlacedAfter (blocks foreign place es) source
      ((before.filter fun item ↦ place ≤ item.1).map Prod.snd) (min (k - place) es.length) := by
  obtain ⟨hbefore, hafter, hcross⟩ := List.pairwise_append.mp (hitem ▸ hs)
  induction es generalizing place with
  | nil =>
    rw [blocks, hitem, List.filter_append, List.filter_cons_of_pos (by simpa using hplace),
      List.length_nil, Nat.min_zero, ← List.append_nil (List.map _ _)]
    exact placedAfter_items _ _ k source []
  | cons e es ih =>
    rcases Nat.eq_or_lt_of_le hplace with rfl | hlt
    · -- the item stands right here, after all items before it that are left
      have hhere : (before.filter fun item ↦ place ≤ item.1) =
          before.filter fun item ↦ item.1 = place := by
        refine List.filter_congr fun item hi ↦ decide_eq_decide.mpr ?_
        have hle : item.1 ≤ place := hcross item hi _ List.mem_cons_self
        omega
      rw [blocks, hitem, List.filter_append, List.filter_cons_of_pos (by simp), hhere, Nat.sub_self,
        Nat.zero_min]
      exact placedAfter_items _ _ place source _
    · -- the item and those after it come later
      have hhere : (foreign.topLevel.filter fun item ↦ item.1 = place) =
          before.filter fun item ↦ item.1 = place := by
        have hnone : (((k, source) :: after).filter fun item ↦ item.1 = place) = [] := by
          refine List.filter_eq_nil_iff.mpr fun item hi ↦ ?_
          have hle : k ≤ item.1 := by
            rcases List.mem_cons.mp hi with rfl | hi
            · exact Nat.le_refl _
            · exact (List.pairwise_cons.mp hafter).1 item hi
          simp only [decide_eq_true_eq]
          omega
        rw [hitem, List.filter_append, hnone, List.append_nil]
      have hcount : min (k - place) (e :: es).length = min (k - (place + 1)) es.length + 1 := by
        rw [List.length_cons]
        omega
      rw [blocks, hhere, filter_places hbefore, List.map_append, hcount]
      exact (ih hlt).later _ e

/-! ### Whole documents -/

/-- The items of the root of a document that was read are written among any entries, each once, in order,
and after as many of the entries as stood before it, as far as there are. -/
theorem encode_places_items {text : String} {d : Document} (h : Document.decode project text = .ok d)
    (project' : Path) (es : List Entry) : ∃ bs : List Block,
      (Document.encode project' ⟨es, d.foreign⟩).toList = layoutText project' d.foreign bs ∧
        bs.filterMap Block.entry? = es ∧
        bs.filterMap Block.kept? = d.foreign.topLevel.map Prod.snd ∧
        ∀ before k source after, d.foreign.topLevel = before ++ (k, source) :: after →
          PlacedAfter bs source (before.map Prod.snd) (min k es.length) := by
  have hs := (ordered_of_decode h).sorted
  have hall : ∀ items : List (Nat × String), (items.filter fun item ↦ 0 ≤ item.1) = items :=
    fun items ↦ List.filter_eq_self.mpr fun item _ ↦ decide_eq_true (Nat.zero_le item.1)
  refine ⟨blocks d.foreign 0 es, toList_encode project' ⟨es, d.foreign⟩, filterMap_blocks 0 es, ?_,
    fun before k source after hitem ↦ ?_⟩
  · rw [filterMap_kept_blocks hs, hall]
  · have hplaced := placedAfter_blocks hs hitem es (Nat.zero_le k)
    rwa [hall, Nat.sub_zero] at hplaced

set_option maxRecDepth 4096 in
/-- The items of a document with two entries among a single one: what stood after both stands after that
one, too. -/
theorem encode_places_items_shorter : ∃ (text : String) (d : Document) (bs : List Block),
    Document.decode (.parse "/p") text = .ok d ∧
      d.foreign.topLevel = [(0, "<!--a-->"), (1, "<?g t?>"), (2, "<!--z-->")] ∧
      (Document.encode (.parse "/p") ⟨[.source (.parse "/p/lib")], d.foreign⟩).toList =
        layoutText (.parse "/p") d.foreign bs ∧
      bs.filterMap Block.kept? = ["<!--a-->", "<?g t?>", "<!--z-->"] ∧
      PlacedAfter bs "<!--a-->" [] 0 ∧ PlacedAfter bs "<!--z-->" ["<!--a-->", "<?g t?>"] 1 := by
  obtain ⟨text, d, hd, htop⟩ : ∃ (text : String) (d : Document),
      Document.decode (.parse "/p") text = .ok d ∧
        d.foreign.topLevel = [(0, "<!--a-->"), (1, "<?g t?>"), (2, "<!--z-->")] :=
    ⟨"<buildpath><!--a--><buildpathentry kind=\"src\" path=\"src\"/><?g t?>" ++
      "<buildpathentry kind=\"con\" path=\"X\"/><!--z--></buildpath>", _, rfl, rfl⟩
  obtain ⟨bs, htext, -, hkept, hplaced⟩ :=
    encode_places_items hd (.parse "/p") [.source (.parse "/p/lib")]
  rw [htop] at hkept hplaced
  exact ⟨text, d, bs, hd, htop, htext, hkept, hplaced [] 0 _ _ rfl,
    hplaced [(0, "<!--a-->"), (1, "<?g t?>")] 2 _ [] rfl⟩

end Buildpath
