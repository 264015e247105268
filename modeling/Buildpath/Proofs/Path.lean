import Mathlib.Data.List.Sort
import Buildpath.Path
import Buildpath.Proofs.Document.Texts

/-!
# Canonical paths

The normal form of paths is what canonicalization yields and what it leaves alone. Paths that are read
from a text, appended or cut are in normal form, so that is the shape of every path of an entry. Paths are
ordered, so sorting them leaves nothing open, and paths that are left out do not change the order of the others
(`filter_sort`).
-/

namespace Buildpath

namespace Path

variable {absolute : Bool} {stack parts names : List String} {p q : Path}

/-! ### Canonicalization leaves the normal form alone -/

/-- A name comes on top of the stack. -/
theorem pushSegment_name {name : String} (hkept : ¬ (name = "" ∨ name = "."))
    (hname : name ≠ parentSegment) : pushSegment absolute stack name = name :: stack := by
  unfold pushSegment
  rw [if_neg hkept, if_neg hname]

/-- A part without a name has no effect. -/
theorem pushSegment_skipped {part : String} (h : part = "" ∨ part = ".") :
    pushSegment absolute stack part = stack := by
  unfold pushSegment
  exact if_pos h

/-- The step to the parent folder takes a name back. -/
theorem pushSegment_parent {name : String} (h : name ≠ parentSegment) :
    pushSegment absolute (name :: stack) parentSegment = stack := by
  unfold pushSegment
  rw [if_neg (by decide), if_pos rfl]
  exact if_pos h

private theorem pushSegment_ordinary {name : String} (h : OrdinarySegment name) :
    pushSegment absolute stack name = name :: stack :=
  pushSegment_name (not_or.mpr ⟨h.1, h.2.1⟩) h.2.2.1

private theorem foldl_pushSegment_ordinary (h : ∀ name ∈ names, OrdinarySegment name) :
    names.foldl (pushSegment absolute) stack = names.reverse ++ stack := by
  induction names generalizing stack with
  | nil => rfl
  | cons name names ih =>
    rw [List.foldl_cons, pushSegment_ordinary (h name List.mem_cons_self),
      ih fun name' h' ↦ h name' (List.mem_cons_of_mem _ h'), List.reverse_cons,
      List.append_assoc]
    rfl

/-- The steps to the parent folder pile up at the front of a relative path. -/
private theorem foldl_pushSegment_parents (ups above : Nat) :
    (List.replicate ups parentSegment).foldl (pushSegment false)
      (List.replicate above parentSegment) = List.replicate (ups + above) parentSegment := by
  induction ups generalizing above with
  | zero => rw [Nat.zero_add]; rfl
  | succ ups ih =>
    have hpush : pushSegment false (List.replicate above parentSegment) parentSegment =
        List.replicate (above + 1) parentSegment := by
      cases above <;> rfl
    rw [List.replicate_succ, List.foldl_cons, hpush, ih, Nat.add_right_comm, Nat.add_assoc]

/-- Segments in normal form stay as they are. -/
theorem canonicalSegments_of_canonical (h : p.Canonical) :
    canonicalSegments p.absolute p.segments = p.segments := by
  obtain ⟨ups, names, hsegments, hups, hnames⟩ := h
  have hparents : (List.replicate ups parentSegment).foldl (pushSegment p.absolute) [] =
      List.replicate ups parentSegment := by
    cases habsolute : p.absolute with
    | true => rw [hups habsolute]; rfl
    | false => exact foldl_pushSegment_parents ups 0
  rw [canonicalSegments, hsegments, List.foldl_append, hparents,
    foldl_pushSegment_ordinary hnames, List.reverse_append, List.reverse_reverse,
    List.reverse_replicate]

/-! ### Canonicalization yields the normal form -/

/-- A stack of canonical segments, last one first: ordinary ones above a run of `..`. -/
private def CanonicalStack (absolute : Bool) (stack : List String) : Prop :=
  ∃ ups names, stack = names ++ List.replicate ups parentSegment ∧
    (absolute = true → ups = 0) ∧ ∀ name ∈ names, OrdinarySegment name

/-- A text between slashes of a path. -/
def IsPart (part : String) : Prop := '/' ∉ part.toList ∧ '\\' ∉ part.toList

private theorem canonicalStack_pushSegment (h : CanonicalStack absolute stack) {part : String}
    (hpart : IsPart part) : CanonicalStack absolute (pushSegment absolute stack part) := by
  obtain ⟨ups, names, rfl, hups, hnames⟩ := h
  unfold pushSegment
  split
  · exact ⟨ups, names, rfl, hups, hnames⟩
  next hkept =>
  split
  · cases names with
    | cons name names =>
      -- the last ordinary segment is left again
      rw [List.cons_append]
      dsimp only
      rw [if_pos (hnames name List.mem_cons_self).2.2.1]
      exact ⟨ups, names, rfl, hups, fun name' h' ↦ hnames name' (List.mem_cons_of_mem _ h')⟩
    | nil =>
      cases absolute with
      | true =>
        obtain rfl := hups rfl
        exact ⟨0, [], rfl, fun _ ↦ rfl, nofun⟩
      | false =>
        refine ⟨ups + 1, [], ?_, nofun, nofun⟩
        cases ups <;> rfl
  · next hparent =>
    refine ⟨ups, part :: names, rfl, hups, ?_⟩
    rintro name (_ | ⟨_, h'⟩)
    · exact ⟨fun he ↦ hkept (.inl he), fun he ↦ hkept (.inr he), hparent, hpart⟩
    · exact hnames name h'

/-- The canonical segments of parts are in normal form. -/
theorem canonical_canonicalSegments (device : Option String)
    (h : ∀ part ∈ parts, IsPart part) :
    Canonical ⟨device, absolute, canonicalSegments absolute parts⟩ := by
  have pushed : ∀ parts stack : List String, CanonicalStack absolute stack → (∀ part ∈ parts, IsPart part) →
      CanonicalStack absolute (parts.foldl (pushSegment absolute) stack) := by
    intro parts
    induction parts with
    | nil => exact fun stack hstack _ ↦ hstack
    | cons part parts ih =>
      intro stack hstack h
      exact ih _ (canonicalStack_pushSegment hstack (h part List.mem_cons_self))
        fun part' h' ↦ h part' (List.mem_cons_of_mem _ h')
  obtain ⟨ups, names, hstack, hups, hnames⟩ :=
    pushed parts [] ⟨0, [], rfl, fun _ ↦ rfl, nofun⟩ h
  refine ⟨ups, names.reverse, ?_, hups, fun name hn ↦ hnames name (List.mem_reverse.mp hn)⟩
  rw [canonicalSegments, hstack, List.reverse_append, List.reverse_replicate]

/-- A segment of a path in normal form holds no slash. -/
theorem isPart_of_mem (h : p.Canonical) {segment : String} (hs : segment ∈ p.segments) :
    IsPart segment := by
  obtain ⟨ups, names, hsegments, -, hnames⟩ := h
  rcases List.mem_append.mp (hsegments ▸ hs) with hs | hs
  · obtain rfl := (List.mem_replicate.mp hs).2
    exact ⟨by decide, by decide⟩
  · exact (hnames segment hs).2.2.2

/-- A path that was appended is in normal form. -/
theorem canonical_append (hp : p.Canonical) (hq : q.Canonical) : (p.append q).Canonical :=
  canonical_canonicalSegments p.device fun _ hs ↦
    (List.mem_append.mp hs).elim (isPart_of_mem hp) (isPart_of_mem hq)

/-- A path that was read is in normal form. -/
theorem canonical_parse (text : String) : (parse text).Canonical := by
  have noBackslash : ∀ c ∈ (Text.trimChars text.toList).map (fun c ↦ if c = '\\' then '/' else c),
      c ≠ '\\' := by
    intro c hc
    obtain ⟨d, -, rfl⟩ := List.mem_map.mp hc
    split
    · decide
    · assumption
  unfold parse parseChars
  dsimp only
  refine canonical_canonicalSegments _ fun part hpart ↦ ?_
  obtain ⟨field, hfield, rfl⟩ := List.mem_map.mp hpart
  rw [IsPart, String.toList_ofList]
  refine ⟨Text.not_mem_of_mem_splitOn hfield, fun hc ↦ ?_⟩
  exact noBackslash _ ((mem_splitDevice (Prod.eta _).symm).2 _
    (Text.mem_of_mem_splitOn hfield hc)) rfl

/-! ### Below a folder -/

theorem isPrefixOf_iff :
    p.isPrefixOf q ↔ p.device = q.device ∧ p.absolute = q.absolute ∧ p.segments <+: q.segments := by
  simp [isPrefixOf, and_assoc]

theorem isPrefixOf_refl (p : Path) : p.isPrefixOf p := isPrefixOf_iff.mpr ⟨rfl, rfl, List.prefix_refl _⟩

theorem isPrefixOf_trans {r : Path} (h : p.isPrefixOf q) (h' : q.isPrefixOf r) : p.isPrefixOf r := by
  obtain ⟨hdevice, habsolute, hsegments⟩ := isPrefixOf_iff.mp h
  obtain ⟨hdevice', habsolute', hsegments'⟩ := isPrefixOf_iff.mp h'
  exact isPrefixOf_iff.mpr
    ⟨hdevice.trans hdevice', habsolute.trans habsolute', hsegments.trans hsegments'⟩

theorem isPrefixOf_dropLast (p : Path) (count : Nat) : (p.dropLast count).isPrefixOf p :=
  isPrefixOf_iff.mpr ⟨rfl, rfl, List.take_prefix _ _⟩

theorem segmentCount_le (h : p.isPrefixOf q) : p.segmentCount ≤ q.segmentCount :=
  (isPrefixOf_iff.mp h).2.2.length_le

theorem segmentCount_dropLast (p : Path) : (p.dropLast 1).segmentCount = p.segmentCount - 1 := by
  simp only [dropLast, segmentCount, List.length_take]
  omega

/-- Of two paths above a resource, the one with fewer segments is above the other one. -/
theorem isPrefixOf_of_le {r : Path} (hp : p.isPrefixOf r) (hq : q.isPrefixOf r)
    (h : p.segmentCount ≤ q.segmentCount) : p.isPrefixOf q := by
  obtain ⟨hdevice, habsolute, hsegments⟩ := isPrefixOf_iff.mp hp
  obtain ⟨hdevice', habsolute', hsegments'⟩ := isPrefixOf_iff.mp hq
  exact isPrefixOf_iff.mpr ⟨hdevice.trans hdevice'.symm, habsolute.trans habsolute'.symm,
    List.prefix_of_prefix_length_le hsegments hsegments' h⟩

theorem eq_of_isPrefixOf (h : p.isPrefixOf q) (hcount : p.segmentCount = q.segmentCount) : p = q := by
  obtain ⟨hdevice, habsolute, hsegments⟩ := isPrefixOf_iff.mp h
  have heq : p.segments = q.segments := hsegments.eq_of_length hcount
  cases p
  cases q
  simp_all

/-- The names on an absolute path are ordinary ones. -/
theorem ordinary_of_absolute (hp : p.Canonical) (habsolute : p.absolute) :
    ∀ segment ∈ p.segments, OrdinarySegment segment := by
  obtain ⟨ups, names, hsegments, hups, hnames⟩ := hp
  rw [hups habsolute, List.replicate_zero, List.nil_append] at hsegments
  exact hsegments ▸ hnames

/-- What lies below an absolute folder does not start with `..`. -/
theorem startsWithParent_dropFirst (hq : q.Canonical) (habsolute : q.absolute) (count : Nat) :
    (q.dropFirst count).startsWithParent = false := by
  rw [startsWithParent, decide_eq_false_iff_not]
  intro hfirst
  have hmem : parentSegment ∈ q.segments := List.mem_of_mem_drop (List.mem_of_mem_head? hfirst)
  exact (ordinary_of_absolute hq habsolute _ hmem).2.2.1 rfl

/-- What does not start with `..` lies below every path that it is appended to. -/
theorem segments_append (hp : p.Canonical) (hq : q.Canonical) (hbelow : q.startsWithParent = false) :
    (p.append q).segments = p.segments ++ q.segments := by
  obtain ⟨ups, names, hsegments, hups, hnames⟩ := hp
  obtain ⟨ups', names', hsegments', -, hnames'⟩ := hq
  cases ups' with
  | succ ups' =>
    rw [startsWithParent, firstSegment?, hsegments', decide_eq_false_iff_not] at hbelow
    exact absurd rfl hbelow
  | zero =>
    rw [List.replicate_zero, List.nil_append] at hsegments'
    refine @canonicalSegments_of_canonical ⟨p.device, p.absolute, p.segments ++ q.segments⟩
      ⟨ups, names ++ names', ?_, hups, ?_⟩
    · dsimp only
      rw [hsegments, hsegments', List.append_assoc]
    · intro name hname
      exact (List.mem_append.mp hname).elim (hnames name) (hnames' name)

/-- A path is its folder with what lies below. -/
theorem append_dropFirst (hq : q.Canonical) (h : p.isPrefixOf q) :
    p.append (q.dropFirst p.segmentCount) = q := by
  obtain ⟨hdevice, habsolute, hsegments⟩ := isPrefixOf_iff.mp h
  have hdrop : p.segments ++ q.segments.drop p.segments.length = q.segments :=
    List.prefix_iff_eq_append.mp hsegments
  rw [append, dropFirst, segmentCount, hdrop, hdevice, habsolute, canonicalSegments_of_canonical hq]

/-! ### Texts of workspace paths -/

/-- A path of the workspace: absolute, without a device and in normal form. -/
structure InWorkspace (p : Path) : Prop where
  canonical : p.Canonical
  absolute : p.absolute = true
  device : p.device = none

/-- The names on a path of the workspace are ordinary ones. -/
theorem InWorkspace.ordinary (hp : p.InWorkspace) : ∀ segment ∈ p.segments, OrdinarySegment segment :=
  ordinary_of_absolute hp.canonical hp.absolute

private theorem toChars_eq (hp : p.InWorkspace) :
    p.toChars = '/' :: Text.joinWith '/' (p.segments.map String.toList) := by
  rw [toChars, hp.absolute, hp.device]
  rfl

/-- The names on a path of the workspace are those between the slashes of its text. -/
private theorem segments_eq (hp : p.InWorkspace) : p.segments =
    ((Text.splitOn '/' (p.toChars.drop 1)).map String.ofList).filter (· ≠ "") := by
  rw [toChars_eq hp, List.drop_one, List.tail_cons]
  cases hsegments : p.segments with
  | nil => rfl
  | cons first rest =>
    have hordinary := hsegments ▸ hp.ordinary
    have hread : (String.ofList ∘ String.toList) = id := funext fun s ↦ String.ofList_toList
    rw [Text.splitOn_joinWith (by simp)
      (List.forall_mem_map.mpr fun s hs ↦ (hordinary s hs).2.2.2.1), List.map_map, hread, List.map_id]
    exact (List.filter_eq_self.mpr fun s hs ↦ by simpa using (hordinary s hs).1).symm

/-- The text of a path of the workspace tells the path. -/
theorem InWorkspace.eq_of_toString (hp : p.InWorkspace) (hq : q.InWorkspace)
    (h : p.toString = q.toString) : p = q := by
  have hchars : p.toChars = q.toChars := String.ofList_injective h
  have hsegments : p.segments = q.segments := by
    rw [segments_eq hp, segments_eq hq, hchars]
  obtain ⟨-, habsolute, hdevice⟩ := hp
  obtain ⟨-, habsolute', hdevice'⟩ := hq
  cases p
  cases q
  simp_all

/-! ### Order -/

private abbrev order : Path → Path → Ordering :=
  compareLex (compareOn Path.device) (compareLex (compareOn Path.absolute) (compareOn Path.segments))

instance : Std.TransCmp Path.compare := inferInstanceAs (Std.TransCmp order)

theorem le_trans {r : Path} (h : p.le q) (h' : q.le r) : p.le r := Std.TransCmp.isLE_trans h h'

theorem le_total (p q : Path) : p.le q || q.le p := by
  have hswap : q.compare p = (p.compare q).swap := Std.OrientedCmp.eq_swap
  rw [le, le, hswap]
  cases p.compare q <;> rfl

theorem le_antisymm (h : p.le q) (h' : q.le p) : p = q := by
  have hcompare : p.compare q = .eq := Std.OrientedCmp.isLE_antisymm h h'
  obtain ⟨hdevice, hrest⟩ := Ordering.then_eq_eq.mp hcompare
  obtain ⟨habsolute, hsegments⟩ := Ordering.then_eq_eq.mp hrest
  cases p
  cases q
  simp_all

/-- Merge sort is defined by well-founded recursion, so that `decide` gets stuck on it. -/
theorem sort_eq_insertionSort (paths : List Path) :
    sort paths = paths.insertionSort fun p q ↦ p.le q := by
  have : Std.Total fun p q : Path ↦ p.le q = true := ⟨fun p q ↦ (Bool.or_eq_true _ _).mp (le_total p q)⟩
  have : IsTrans Path fun p q ↦ p.le q = true := ⟨fun _ _ _ ↦ le_trans⟩
  have : Std.Antisymm fun p q : Path ↦ p.le q = true := ⟨fun _ _ ↦ le_antisymm⟩
  have hsort := List.mergeSort_eq_insertionSort (fun p q : Path ↦ p.le q = true) paths
  rw [sort]
  simpa only [Bool.decide_eq_true] using hsort

/-- Leaving paths out keeps the order of the others. -/
theorem filter_sort (keep : Path → Bool) (paths : List Path) :
    (sort paths).filter keep = sort (paths.filter keep) := by
  have hsorted : ∀ paths, (sort paths).Pairwise fun p q ↦ p.le q :=
    List.pairwise_mergeSort (fun _ _ _ ↦ le_trans) le_total
  have hperm : ((sort paths).filter keep).Perm (sort (paths.filter keep)) :=
    ((List.mergeSort_perm paths le).filter keep).trans (List.mergeSort_perm _ le).symm
  exact hperm.eq_of_pairwise (fun _ _ _ _ ↦ le_antisymm) ((hsorted paths).filter keep) (hsorted _)

end Path

end Buildpath
