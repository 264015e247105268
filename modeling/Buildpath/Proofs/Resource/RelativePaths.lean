import Buildpath.Proofs.Path.Reading
import Buildpath.Proofs.Resource.Places
import Mathlib.Algebra.Order.BigOperators.Group.List
import Mathlib.Algebra.Order.Group.Nat

/-!
# Relative paths to resources

In a file tree a relative path can go up any number of times, since the root is its own parent. What bounds
the number of the paths that lead to something is the limit on the length of their texts
(`FileTree.exists_relativePaths`). The text of a path runs its device and its first segment together.
-/

namespace Buildpath

namespace FileTree

variable {t : FileTree} {text : String}

/-! ### Texts of limited length -/

/-- Each character takes a byte at least. -/
private theorem length_le_utf8ByteSize (cs : List Char) : cs.length ≤ (String.ofList cs).utf8ByteSize := by
  induction cs with
  | nil => exact Nat.zero_le _
  | cons c cs ih =>
    rw [String.ofList_cons, String.utf8ByteSize_append, String.utf8ByteSize_singleton, List.length_cons]
    have hpos := Char.utf8Size_pos c
    omega

/-- A text that leads to something has fewer characters than the limit, and is not empty. -/
theorem length_lt_textLimit (h : (t.kind? text).isSome) : text ≠ "" ∧ text.toList.length < textLimit := by
  unfold kind? lookup at h
  cases hlocate : t.locate text with
  | error cause =>
    rw [hlocate] at h
    cases h
  | ok place =>
    obtain ⟨start, hstart, hfollow⟩ := bind_eq_ok.mp hlocate
    constructor
    · rintro rfl
      cases hfollow
    · unfold FileTree.start at hstart
      split at hstart
      · cases hstart
      split at hstart
      · cases hstart
      · next hshort =>
        have hle := length_le_utf8ByteSize text.toList
        rw [String.ofList_toList] at hle
        omega

/-- Each name of a text has a character at least. -/
theorem length_parts_le (cs : List Char) : (parts cs).length ≤ cs.length := by
  induction cs with
  | nil => exact Nat.le_refl 0
  | cons c cs ih =>
    by_cases hc : c = '/'
    · have hskip : parts (c :: cs) = parts cs := by
        rw [hc]
        exact parts_append [] cs
      rw [hskip]
      exact Nat.le_succ_of_le ih
    · -- the character extends the first field, or makes a name of it
      obtain ⟨field, fields, hfields⟩ := List.exists_cons_of_ne_nil (Text.splitOn_ne_nil '/' cs)
      have hfirst : parts (c :: cs) =
          String.ofList (c :: field) :: (fields.map String.ofList).filter (· ≠ "") := by
        rw [parts, Text.splitOn, if_neg hc, hfields, List.map_cons, List.filter_cons_of_pos]
        simp
      have hrest : ((fields.map String.ofList).filter (· ≠ "")).length ≤ (parts cs).length := by
        rw [parts, hfields, List.map_cons]
        exact ((List.sublist_cons_self _ _).filter _).length_le
      rw [hfirst, List.length_cons, List.length_cons]
      omega

/-- Names that go up a number of times after a first name, and then down by those that are listed for
what stands before. -/
private def climbs (first : String) (lists : List String → List (List String)) (ups : Nat) :
    List (List String) :=
  (first :: List.replicate ups "..") ::
    (lists (first :: List.replicate ups "..")).map ((first :: List.replicate ups "..") ++ ·)

private theorem mem_climbs {first : String} {lists : List String → List (List String)} {ups : Nat}
    {names : List String} (h : names ≠ [] → names ∈ lists (first :: List.replicate ups "..")) :
    (first :: List.replicate ups "..") ++ names ∈ climbs first lists ups := by
  by_cases hnil : names = []
  · rw [hnil, List.append_nil]
    exact List.mem_cons_self
  · exact List.mem_cons_of_mem _ (List.mem_map.mpr ⟨names, h hnil, rfl⟩)

private theorem length_flatMap_climbs {first : String} {lists : List String → List (List String)} {n : Nat}
    (h : ∀ before, (lists before).length ≤ n) (count : Nat) :
    ((List.range count).flatMap (climbs first lists)).length ≤ count * (n + 1) := by
  have hle : ∀ length ∈ (List.range count).map fun ups ↦ (climbs first lists ups).length, length ≤ n + 1 := by
    refine List.forall_mem_map.mpr fun ups _ ↦ ?_
    rw [climbs, List.length_cons, List.length_map]
    exact Nat.succ_le_succ (h _)
  have hsum := List.sum_le_card_nsmul _ (n + 1) hle
  rwa [← List.length_flatMap, List.length_map, List.length_range] at hsum

/-- The names of the texts that lead to something and go up a number of times after a first name, before
they go down. -/
theorem exists_parts (t : FileTree) (first : String) :
    ∃ lists : List (List String), lists.length ≤ textLimit * (2 * t.nodes.records.length + 1) ∧
      ∀ text : String, (t.kind? text).isSome → ∀ names : List String,
        (∀ name ∈ names, Path.OrdinarySegment name) →
        (names ≠ [] ∧ parts text.toList = names ∨
          ∃ ups, parts text.toList = (first :: List.replicate ups "..") ++ names) →
        parts text.toList ∈ lists := by
  choose lists hlength hlists using t.exists_segments
  refine ⟨lists [] ++ (List.range (textLimit - 1)).flatMap (climbs first lists), ?_,
    fun text h names hnames hparts ↦ ?_⟩
  · have hdown := hlength []
    have hup : ((List.range (textLimit - 1)).flatMap (climbs first lists)).length ≤ _ :=
      length_flatMap_climbs hlength _
    rw [List.length_append]
    rw [textLimit] at hup ⊢
    omega
  · rcases hparts with ⟨hne, hdown⟩ | ⟨ups, hup⟩
    · exact List.mem_append_left _ (hdown ▸ hlists [] text names hne hnames hdown h)
    · refine List.mem_append_right _ (List.mem_flatMap.mpr ⟨ups, List.mem_range.mpr ?_, ?_⟩)
      · have hlt := Nat.lt_of_le_of_lt (length_parts_le text.toList) (length_lt_textLimit h).2
        rw [hup, List.length_append, List.length_cons, List.length_replicate] at hlt
        omega
      · rw [hup]
        exact mem_climbs fun hne ↦ hlists _ text names hne hnames hup h

end FileTree

/-! ### Texts of relative paths -/

namespace Path

variable {p : Path} {device : String} {segments names : List String}

/-- Segments behind a device, which the first one is run together with. -/
def fuse (device : String) : List String → List String
  | [] => if device = "" then [] else [device]
  | first :: rest => (device ++ first) :: rest

/-- Segments without the device that the first one is run together with. -/
def unfuse (device : String) : List String → List String
  | [] => []
  | first :: rest =>
    if first = device then rest else String.ofList (first.toList.drop device.toList.length) :: rest

theorem unfuse_fuse (h : "" ∉ segments) : unfuse device (fuse device segments) = segments := by
  cases segments with
  | nil =>
    rw [fuse]
    split
    · rfl
    · rw [unfuse, if_pos rfl]
  | cons first rest =>
    have hne : device ++ first ≠ device := by
      intro heq
      have hchars := congrArg String.toList heq
      rw [String.toList_append, List.append_right_eq_self, String.toList_eq_nil_iff] at hchars
      exact h (hchars ▸ List.mem_cons_self)
    rw [fuse, unfuse, if_neg hne, String.toList_append, List.drop_left, String.ofList_toList]

/-- The text of a relative path has a slash between its segments only. -/
theorem toString_relative (h : p.absolute = false) : p.toString.toList =
    Text.joinWith '/' ((fuse (p.device.getD "") p.segments).map String.toList) := by
  rw [Path.toString, String.toList_ofList, toChars, h, if_neg Bool.false_ne_true, List.append_nil]
  cases p.segments with
  | nil =>
    rw [fuse, List.map_nil, Text.joinWith, List.append_nil]
    split
    · next hnone => rw [hnone]; rfl
    · rfl
  | cons first rest =>
    rw [fuse, List.map_cons, List.map_cons, String.toList_append]
    cases rest with
    | nil => rfl
    | cons second rest => exact (List.append_assoc _ _ _).symm

/-- A device does not make a segment of what is none. -/
private theorem ordinary_device {name : List Char} (hd : IsDevice device name) {segment : String}
    (hs : IsPart segment) : OrdinarySegment (device ++ segment) := by
  have hchars : (device ++ segment).toList = name ++ ':' :: segment.toList := by
    rw [String.toList_append, hd.eq, List.append_assoc, List.singleton_append]
  have hcolon : ∀ text : String, ':' ∉ text.toList → device ++ segment ≠ text := by
    rintro text hnone rfl
    exact hnone (hchars ▸ List.mem_append_right _ List.mem_cons_self)
  have hplain : ∀ c, c ≠ ':' → c ∉ name → c ∉ segment.toList → c ∉ (device ++ segment).toList := by
    intro c hc hname hsegment hmem
    rw [hchars, List.mem_append, List.mem_cons] at hmem
    exact hmem.elim hname fun hmem ↦ hmem.elim hc hsegment
  exact ⟨hcolon _ (by decide), hcolon _ (by decide), hcolon _ (by decide),
    hplain '/' (by decide) (fun hmem ↦ (hd.plain _ hmem).2.1 rfl) hs.1,
    hplain '\\' (by decide) (fun hmem ↦ (hd.plain _ hmem).2.2 rfl) hs.2⟩

/-- Names behind a device are ordinary. -/
private theorem ordinary_fuse {device : Option String}
    (hdevice : ∀ d ∈ device, ∃ name, IsDevice d name) (hs : ∀ s ∈ names, OrdinarySegment s) :
    ∀ s ∈ fuse (device.getD "") names, OrdinarySegment s := by
  intro s hmem
  cases device with
  | none =>
    have hplain : fuse "" names = names := by cases names <;> simp [fuse]
    exact hs s (hplain ▸ hmem)
  | some d =>
    obtain ⟨name, hd⟩ := hdevice d rfl
    cases names with
    | nil =>
      rw [Option.getD_some, fuse] at hmem
      split at hmem
      · cases hmem
      · obtain rfl := List.mem_singleton.mp hmem
        have hempty : IsPart "" := ⟨by decide, by decide⟩
        simpa using ordinary_device hd hempty
    | cons first rest =>
      rcases List.mem_cons.mp hmem with rfl | hmem
      · exact ordinary_device hd (hs first List.mem_cons_self).2.2.2
      · exact hs s (List.mem_cons_of_mem _ hmem)

/-- The names of the text of a relative path are its segments, the first one behind its device. -/
theorem parts_relative (hp : p.IsRead) (h : p.absolute = false) :
    FileTree.parts p.toString.toList = fuse (p.device.getD "") p.segments := by
  have hdevice : '/' ∉ (p.device.getD "").toList := by
    cases hfound : p.device with
    | none => exact List.not_mem_nil
    | some device =>
      obtain ⟨name, hd⟩ := hp.device device hfound
      rw [Option.getD_some, hd.eq, List.mem_append, List.mem_singleton]
      exact fun hmem ↦ hmem.elim (fun hname ↦ (hd.plain _ hname).2.1 rfl) (by decide)
  rw [toString_relative h]
  refine FileTree.parts_joinWith fun s hs ↦ ?_
  cases hsegments : p.segments with
  | nil =>
    rw [hsegments, fuse] at hs
    split at hs
    · cases hs
    · next hne => exact List.mem_singleton.mp hs ▸ ⟨hne, hdevice⟩
  | cons first rest =>
    have hmem : ∀ segment ∈ first :: rest, segment ≠ "" ∧ '/' ∉ segment.toList := fun segment hs ↦
      ⟨ne_empty_of_mem hp.canonical segment (hsegments ▸ hs),
        (isPart_of_mem hp.canonical (hsegments ▸ hs)).1⟩
    rw [hsegments] at hs
    rcases List.mem_cons.mp hs with rfl | hs
    · have hfirst := hmem first List.mem_cons_self
      rw [String.toList_append, List.mem_append]
      exact ⟨fun hempty ↦ hfirst.1 (String.append_eq_empty_iff.mp hempty).2, not_or.mpr ⟨hdevice, hfirst.2⟩⟩
    · exact hmem s (List.mem_cons_of_mem _ hs)

end Path

/-- Apart from absolute ones, no more paths with a device lead to something in a file tree than the limit
on texts allows. -/
theorem FileTree.exists_relativePaths (t : FileTree) (device : Option String) :
    ∃ paths : List Path, paths.length ≤ textLimit * (2 * t.nodes.records.length + 1) ∧
      ∀ path : Path, path.IsRead → path.absolute = false → path.device = device →
        (t.kind? path.toString).isSome → path ∈ paths := by
  obtain ⟨lists, hlength, hlists⟩ := t.exists_parts (device.getD "" ++ "..")
  refine ⟨lists.map fun parts ↦ ⟨device, false, Path.unfuse (device.getD "") parts⟩, ?_,
    fun path hp habsolute hdevice hkind ↦ ?_⟩
  · rwa [List.length_map]
  have hparts := Path.parts_relative hp habsolute
  rw [hdevice] at hparts
  have hordinary := fun names (hs : ∀ s ∈ names, Path.OrdinarySegment s) ↦
    Path.ordinary_fuse (hdevice ▸ hp.device) hs
  have hempty : "" ∉ path.segments := fun hmem ↦ Path.ne_empty_of_mem hp.canonical _ hmem rfl
  refine List.mem_map.mpr ⟨parts path.toString.toList, ?_, ?_⟩
  · obtain ⟨ups, names, hsegments, -, hnames⟩ := hp.canonical
    cases ups with
    | zero =>
      refine hlists _ hkind (Path.fuse (device.getD "") names) (hordinary names hnames) (.inl ⟨?_, ?_⟩)
      · -- otherwise the text would be empty
        intro hnil
        refine (length_lt_textLimit hkind).1 (String.toList_eq_nil_iff.mp ?_)
        have htext := Path.toString_relative habsolute
        rw [hdevice, hsegments] at htext
        rw [htext]
        exact congrArg (fun fused ↦ Text.joinWith '/' (fused.map String.toList)) hnil
      · rw [hparts, hsegments]
        rfl
    | succ ups =>
      refine hlists _ hkind names hnames (.inr ⟨ups, ?_⟩)
      rw [hparts, hsegments]
      rfl
  · rw [hparts, Path.unfuse_fuse hempty, ← hdevice, ← habsolute]

end Buildpath
