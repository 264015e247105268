import Buildpath.Proofs.Chained
import Buildpath.Proofs.Resource.Written
import Mathlib.Data.List.TakeWhile

/-!
# Paths below the root

Whatever a path is built from, its segments are in normal form (`Path.Built.canonical`). So the text of a path of a
workspace in a directory is that of the root with ordinary names after it, and it leads where these names lead from
the root (`Directory.below_filePath`). What is read and written lies there, no file is written elsewhere, and nothing
is changed outside of a root that exists (`Directory.built_stays_inside`).
-/

namespace Buildpath

namespace Path

variable {p q : Path}

/-! ### What paths are built from -/

/-- The paths that come from texts when they are appended, cut, made absolute or relative, and resolved. -/
inductive Built : Path → Prop
  | parse (text : String) : Built (parse text)
  | append {p q : Path} (hp : Built p) (hq : Built q) : Built (p.append q)
  | appendText {p : Path} (hp : Built p) (text : String) : Built (p.appendText text)
  | parent {p q : Path} (hp : Built p) (hq : p.parent? = some q) : Built q
  | dropLast {p : Path} (hp : Built p) (count : Nat) : Built (p.dropLast count)
  | dropFirst {p : Path} (hp : Built p) (count : Nat) : Built (p.dropFirst count)
  | makeAbsolute {p : Path} (hp : Built p) : Built p.makeAbsolute
  | makeRelative {p : Path} (hp : Built p) : Built p.makeRelative
  | resolveFrom {p base : Path} (hp : Built p) (hbase : Built base) : Built (p.resolveFrom base)

/-- What is left of a path in normal form without its first segments is in normal form. -/
theorem canonical_dropFirst (hp : p.Canonical) (count : Nat) : (p.dropFirst count).Canonical := by
  obtain ⟨ups, names, hsegments, -, hnames⟩ := hp
  refine ⟨ups - count, names.drop (count - ups), ?_, nofun, fun name hname ↦ hnames name (List.mem_of_mem_drop hname)⟩
  change p.segments.drop count = _
  rw [hsegments, List.drop_append, List.drop_replicate, List.length_replicate]

theorem canonical_makeRelative (hp : p.Canonical) : p.makeRelative.Canonical := canonical_dropFirst hp 0

theorem canonical_makeAbsolute (hp : p.Canonical) : p.makeAbsolute.Canonical :=
  canonical_canonicalSegments p.device fun _ ↦ isPart_of_mem hp

theorem canonical_resolveFrom (hp : p.Canonical) (hq : q.Canonical) : (p.resolveFrom q).Canonical := by
  unfold resolveFrom
  split
  · exact hp
  · exact canonical_append hq hp

/-- Every operation on paths keeps the normal form. -/
theorem Built.canonical (h : p.Built) : p.Canonical := by
  induction h with
  | parse text => exact canonical_parse text
  | append _ _ hp hq => exact canonical_append hp hq
  | appendText _ text hp => exact canonical_append hp (canonical_parse text)
  | parent _ hq hp => exact canonical_parent hp hq
  | dropLast _ count hp => exact canonical_dropLast hp count
  | dropFirst _ count hp => exact canonical_dropFirst hp count
  | makeAbsolute _ hp => exact canonical_makeAbsolute hp
  | makeRelative _ hp => exact canonical_makeRelative hp
  | resolveFrom _ _ hp hbase => exact canonical_resolveFrom hp hbase

end Path

/-! ### Directories that are made -/

namespace FileTree

variable {t t' : FileTree} {place base next other : Place} {names : List String} {text : String}

/-- A name that does not lead to the directory above leads to the directory itself or to one place below. -/
theorem follow_singleton {name : String} (h : t.follow place [name] = .ok next) (hname : name ≠ "..") :
    next = place ∧ t.isDirectoryAt place ∨ next = place ++ [name] := by
  have hdirectory := isDirectoryAt_of_follow h
  obtain ⟨stamp, hnode⟩ := isDirectoryAt_iff.mp hdirectory
  rw [follow, hnode] at h
  dsimp only at h
  split at h
  · cases h
  · rw [follow] at h
    split at h
    · exact .inl ⟨(Except.ok.inj h).symm, hdirectory⟩
    · exact .inr (Except.ok.inj h).symm

/-- Making directories makes no file. -/
theorem file_of_makeDirectories {contents : ByteArray} {stamp : Nat} (h : t.makeDirectories place names = .ok t')
    (hfile : t'.node? other = some (.file contents stamp)) : t.node? other = some (.file contents stamp) := by
  induction names generalizing t place with
  | nil => rwa [Except.ok.inj h]
  | cons name names ih =>
    obtain ⟨next, -, h⟩ := bind_eq_ok.mp h
    split at h
    · exact ih h
    · cases h
    · next hnone =>
      have hne : next ≠ [] := by
        rintro rfl
        cases hnone
      have hput := ih h
      rw [node?_put t _ hne] at hput
      split at hput
      · cases hput
      · split at hput
        · cases hput
        · exact hput

/-- Directories are made below a place, if no name leads to the one above. -/
theorem node?_makeDirectories (h : t.makeDirectories place names = .ok t') (hnames : ".." ∉ names)
    (hother : ¬ place <+: other) : t'.node? other = t.node? other := by
  induction names generalizing t place with
  | nil => rw [Except.ok.inj h]
  | cons name names ih =>
    obtain ⟨next, hnext, h⟩ := bind_eq_ok.mp h
    obtain ⟨hname, hrest⟩ := not_or.mp (mt List.mem_cons.mpr hnames)
    have hstep := follow_singleton hnext (Ne.symm hname)
    have hbelow : ¬ next <+: other := by
      obtain ⟨rfl, -⟩ | rfl := hstep
      · exact hother
      · exact fun h ↦ hother ((List.prefix_append place [name]).trans h)
    split at h
    · exact ih h hrest hbelow
    · cases h
    · next hnone =>
      obtain ⟨rfl, hdirectory⟩ | rfl := hstep
      · obtain ⟨stamp, hnode⟩ := isDirectoryAt_iff.mp hdirectory
        rw [hnode] at hnone
        cases hnone
      · -- what is made and what is marked for it lies below the place
        rw [ih h hrest hbelow, node?_put t _ (List.concat_ne_nil name place), List.dropLast_concat, if_neg, if_neg]
        · exact fun h ↦ hother (h.2.1 ▸ List.prefix_rfl)
        · exact fun h ↦ hbelow (h ▸ List.prefix_rfl)

/-- Where directories are there on the way, none is made. -/
theorem makeDirectories_append {rest : List String} (h : t.follow place names = .ok base)
    (hbase : t.isDirectoryAt base) : t.makeDirectories place (names ++ rest) = t.makeDirectories base rest := by
  induction names generalizing place with
  | nil => rw [Except.ok.inj h, List.nil_append]
  | cons name names ih =>
    rw [← List.singleton_append, follow_append] at h
    obtain ⟨next, hnext, hrest⟩ := bind_eq_ok.mp h
    have hdirectory : t.isDirectoryAt next := by
      cases names with
      | nil => exact Except.ok.inj hrest ▸ hbase
      | cons second names => exact isDirectoryAt_of_follow hrest
    obtain ⟨stamp, hnode⟩ := isDirectoryAt_iff.mp hdirectory
    rw [List.cons_append, makeDirectories, hnext, bind_ok, hnode]
    exact ih hrest

/-- The names between the slashes of a text lead to a directory where all its names do. -/
theorem follow_names (h : t.follow place (parts text.toList) = .ok next) (hnext : t.isDirectoryAt next) :
    t.follow place (FileTree.names text) = .ok next := by
  rcases names_eq text with hnames | hnames
  · rwa [hnames]
  · rw [hnames, follow_append, h, bind_ok, follow_selfName hnext]

/-- A text starts at the root or in the current directory. -/
theorem start_eq_ok (h : t.start text = .ok place) :
    place = if text.toList.head? = some '/' then [] else t.current := by
  unfold start at h
  split at h
  · cases h
  · split at h
    · cases h
    · exact (Except.ok.inj h).symm

end FileTree

/-! ### Texts below a root -/

namespace Directory

variable {d d' : Directory} {path : Path} {base name text : String} {names : List String}
  {contents : ByteArray}

/-- What names follow in a text below a directory. -/
def before (base : String) : List Char :=
  if base.isEmpty || base.toList.getLast? = some '/' then base.toList else base.toList ++ ['/']

theorem toList_join (hname : Path.OrdinarySegment name) : (join base name).toList = before base ++ name.toList := by
  have hhead : name.toList.head? ≠ some '/' := fun h ↦ hname.2.2.2.1 (List.mem_of_head? h)
  rw [join, if_neg hhead, before]
  split
  · rw [String.toList_append]
  · rw [String.toList_append, String.toList_append]
    rfl

/-- The last character of a joined text is one of the name. -/
theorem getLast?_join (hname : Path.OrdinarySegment name) : (join base name).toList.getLast? ≠ some '/' := by
  have hne : name.toList ≠ [] := fun h ↦ hname.1 (String.toList_eq_nil_iff.mp h)
  rw [toList_join hname, List.getLast?_append_of_ne_nil _ hne]
  exact fun h ↦ hname.2.2.2.1 (List.mem_of_getLast? h)

theorem getLast?_foldl_join (hne : names ≠ []) (hnames : ∀ name ∈ names, Path.OrdinarySegment name) :
    (names.foldl join base).toList.getLast? ≠ some '/' := by
  rcases List.eq_nil_or_concat names with hempty | ⟨start, last, hconcat⟩
  · exact absurd hempty hne
  · rw [hconcat, List.concat_eq_append, List.foldl_append]
    exact getLast?_join (hnames last (by simp [hconcat]))

theorem toList_foldl_join (hne : names ≠ []) (hnames : ∀ name ∈ names, Path.OrdinarySegment name) :
    (names.foldl join base).toList = before base ++ Text.joinWith '/' (names.map String.toList) := by
  induction names generalizing base with
  | nil => exact absurd rfl hne
  | cons name names ih =>
    obtain ⟨hname, hrest⟩ := List.forall_mem_cons.mp hnames
    cases names with
    | nil => exact toList_join hname
    | cons second names =>
      have hne : (join base name).isEmpty = false := by
        rw [Bool.eq_false_iff, ne_eq, String.isEmpty_iff, ← String.toList_eq_nil_iff, toList_join hname]
        exact fun h ↦ hname.1 (String.toList_eq_nil_iff.mp (List.append_eq_nil_iff.mp h).2)
      rw [List.foldl_cons, ih (List.cons_ne_nil second names) hrest, before, hne, if_neg]
      · rw [toList_join hname, List.append_assoc, List.append_assoc]
        rfl
      · exact fun h ↦ getLast?_join hname (of_decide_eq_true h)

/-- A joined text is absolute exactly if the first one is. -/
theorem head?_join (hname : Path.OrdinarySegment name) :
    (join base name).toList.head? = some '/' ↔ base.toList.head? = some '/' := by
  rw [toList_join hname, before]
  cases hbase : base.toList with
  | nil =>
    rw [String.toList_eq_nil_iff.mp hbase]
    exact iff_of_false (fun h ↦ hname.2.2.2.1 (List.mem_of_head? h)) nofun
  | cons c cs => split <;> rfl

theorem head?_foldl_join (hnames : ∀ name ∈ names, Path.OrdinarySegment name) :
    (names.foldl join base).toList.head? = some '/' ↔ base.toList.head? = some '/' := by
  induction names generalizing base with
  | nil => rfl
  | cons name names ih =>
    obtain ⟨hname, hrest⟩ := List.forall_mem_cons.mp hnames
    exact (ih hrest).trans (head?_join hname)

/-- A joined text starts where the first one does. -/
theorem start_of_join {t : FileTree} {place : Place} (hname : Path.OrdinarySegment name)
    (h : t.start (join base name) = .ok place) : t.start base = .ok place := by
  obtain ⟨rest, hrest⟩ : ∃ rest, join base name = base ++ rest := by
    rw [join, if_neg fun h ↦ hname.2.2.2.1 (List.mem_of_head? h)]
    split
    · exact ⟨name, rfl⟩
    · exact ⟨"/" ++ name, String.append_assoc⟩
  rw [FileTree.start_eq_ok h]
  simp only [head?_join hname]
  unfold FileTree.start at h ⊢
  rw [hrest] at h
  split at h
  · cases h
  · next hnul =>
    split at h
    · cases h
    · next hlength =>
      rw [String.toList_append, List.mem_append, not_or] at hnul
      rw [String.utf8ByteSize_append] at hlength
      rw [if_neg hnul.1, if_neg (by omega)]

theorem start_of_foldl_join {t : FileTree} {place : Place} (hnames : ∀ name ∈ names, Path.OrdinarySegment name)
    (h : t.start (names.foldl join base) = .ok place) : t.start base = .ok place := by
  induction names generalizing base with
  | nil => exact h
  | cons name names ih =>
    obtain ⟨hname, hrest⟩ := List.forall_mem_cons.mp hnames
    exact start_of_join hname (ih hrest h)

/-- A text is its part before the last slash with one name after it, if it has a slash. -/
theorem parentText_cases (text : String) : '/' ∉ text.toList ∧ parentText text = "" ∨
    ∃ last, '/' ∉ last ∧ text.toList = (parentText text).toList ++ '/' :: last := by
  by_cases hmem : '/' ∈ text.toList
  · obtain ⟨last, upper, hsplit, hlast⟩ := List.eq_append_cons_of_mem (List.mem_reverse.mpr hmem)
    have hdrop : (last ++ '/' :: upper).dropWhile (· ≠ '/') = '/' :: upper := by
      have hpast : ∀ c ∈ last, decide (c ≠ '/') := fun c hc ↦ decide_eq_true fun he : c = '/' ↦ hlast (he ▸ hc)
      rw [List.dropWhile_append_of_pos hpast]
      rfl
    refine .inr ⟨last.reverse, mt List.mem_reverse.mp hlast, ?_⟩
    rw [parentText, hsplit, hdrop, String.toList_ofList, ← List.reverse_reverse text.toList, hsplit,
      List.reverse_append, List.reverse_cons, List.append_assoc]
    rfl
  · have hdrop : text.toList.reverse.dropWhile (· ≠ '/') = [] :=
      List.dropWhile_eq_nil_iff.mpr fun c hc ↦
        decide_eq_true fun he : c = '/' ↦ hmem (List.mem_reverse.mp (he ▸ hc))
    exact .inl ⟨hmem, by rw [parentText, hdrop]; rfl⟩

/-- Above a text are all its names but the last one. -/
theorem parts_parentText (hempty : text ≠ "") (hlast : text.toList.getLast? ≠ some '/') :
    FileTree.parts (parentText text).toList = (FileTree.parts text.toList).dropLast := by
  have hsingle : ∀ last : List Char, '/' ∉ last → last ≠ [] → FileTree.parts last = [String.ofList last] := by
    intro last hslash hne
    have hname : (String.ofList last) ≠ "" := fun h ↦ hne (by simpa using congrArg String.toList h)
    rw [FileTree.parts, Text.splitOn_of_not_mem hslash, List.map_singleton]
    exact List.filter_cons_of_pos (decide_eq_true hname)
  obtain ⟨hslash, hparent⟩ | ⟨last, hslash, htext⟩ := parentText_cases text
  · rw [hparent, hsingle text.toList hslash (mt String.toList_eq_nil_iff.mp hempty)]
    rfl
  · have hne : last ≠ [] := by
      rintro rfl
      rw [htext, List.getLast?_concat] at hlast
      exact hlast rfl
    rw [htext, FileTree.parts_append, hsingle last hslash hne, List.dropLast_concat]

/-! ### What is read and written below a root -/

/-- The place of the root. A root without a text is the current directory. -/
def rootPlace (d : Directory) : Except AccessCause Place := do
  let place ← d.tree.start d.root
  d.tree.follow place (FileTree.names d.root)

/-- Whether a text is that of the root with ordinary names after it, and leads where these names lead from there. -/
structure Below (d : Directory) (names : List String) (text : String) : Prop where
  nonempty : names ≠ []
  ordinary : ∀ name ∈ names, Path.OrdinarySegment name
  joined : text.toList = before d.root ++ Text.joinWith '/' (names.map String.toList)
  place : ∀ place, d.tree.locate text = .ok place → ∃ base, d.rootPlace = .ok base ∧ place = base ++ names

/-- Whether a change puts a file below the place of the root and writes no other one. If the root was there, all
that does not lie in it is left alone. -/
structure Puts (d d' : Directory) (base : Place) (names : List String) (contents : ByteArray) : Prop where
  root : d'.rootPlace = .ok base
  file : ∃ stamp, d'.tree.node? (base ++ names) = some (.file contents stamp)
  others : ∀ place contents' stamp, place ≠ base ++ names →
    d'.tree.node? place = some (.file contents' stamp) → d.tree.node? place = some (.file contents' stamp)
  outside : d.rootPlace = .ok base → d.tree.isDirectoryAt base →
    ∀ place, ¬ base <+: place → d'.tree.node? place = d.tree.node? place

/-- The root stays where it is as long as its directories do. -/
theorem rootPlace_of_extends {t : FileTree} {base : Place} (h : FileTree.Extends d.tree t)
    (hbase : d.rootPlace = .ok base) : ({ d with tree := t } : Directory).rootPlace = .ok base := by
  obtain ⟨start, hstart, hfollow⟩ := bind_eq_ok.mp hbase
  exact bind_eq_ok.mpr ⟨start, h.start.trans hstart, h.follow hfollow⟩

/-- What has a text is below the root. -/
theorem filePath?_eq_some (hp : path.Canonical) (h : d.filePath? path = some text) :
    path.segments ≠ [] ∧ (∀ name ∈ path.segments, Path.OrdinarySegment name) ∧
      text = path.segments.foldl join d.root := by
  rw [filePath?] at h
  split at h
  · cases h
  · next hflat =>
    simp only [Bool.or_eq_true, Bool.not_eq_true', List.isEmpty_iff, not_or, Bool.not_eq_false] at hflat
    exact ⟨hflat.2, Path.ordinary_of_absolute hp hflat.1, (Option.some.inj h).symm⟩

theorem below_filePath (hp : path.Canonical) (h : d.filePath? path = some text) : d.Below path.segments text := by
  obtain ⟨hne, hordinary, rfl⟩ := filePath?_eq_some hp h
  refine ⟨hne, hordinary, toList_foldl_join hne hordinary, fun place hplace ↦ ?_⟩
  obtain ⟨start, -, hstart, hfollow⟩ := FileTree.locate_eq_ok hplace
  rw [parts_foldl_join hordinary, FileTree.follow_append] at hfollow
  obtain ⟨base, hbase, hbelow⟩ := bind_eq_ok.mp hfollow
  obtain ⟨name, names, hsegments⟩ := List.exists_cons_of_ne_nil hne
  have hdirectory := FileTree.isDirectoryAt_of_follow (hsegments ▸ hbelow)
  exact ⟨base, bind_eq_ok.mpr ⟨start, start_of_foldl_join hordinary hstart, FileTree.follow_names hbase hdirectory⟩,
    FileTree.follow_ordinary hordinary hbelow⟩

/-- What is read from a file of the workspace is in a file below the root. -/
theorem exists_file_of_read (hp : path.Canonical) (h : d.read path = .ok contents) :
    ∃ text base stamp, d.filePath? path = some text ∧ d.rootPlace = .ok base ∧
      d.tree.node? (base ++ path.segments) = some (.file contents stamp) := by
  obtain ⟨text, htext, h⟩ := bind_eq_ok.mp h
  rw [requirePath_eq_ok] at htext
  obtain ⟨node, hlookup, h⟩ := bind_eq_ok.mp (withMessage_eq_ok.mp h)
  obtain ⟨place, hplace, hnode⟩ := bind_eq_ok.mp hlookup
  obtain ⟨base, hbase, rfl⟩ := (below_filePath hp htext).place place hplace
  cases node with
  | directory stamp => cases h
  | file stored stamp =>
    obtain rfl := Except.ok.inj h
    refine ⟨text, base, stamp, htext, hbase, ?_⟩
    split at hnode
    · next hfound => rw [hfound, Except.ok.inj hnode]
    · cases hnode

/-- Where the root is there, the directories above a file are made below it. -/
theorem node?_makeDirectory {t : FileTree} {base other : Place} (hp : path.Canonical)
    (htext : d.filePath? path = some text) (hbase : d.rootPlace = .ok base) (hdirectory : d.tree.isDirectoryAt base)
    (h : d.tree.makeDirectory (parentText text) = .ok t) (hother : ¬ base <+: other) :
    t.node? other = d.tree.node? other := by
  obtain ⟨hne, hordinary, rfl⟩ := filePath?_eq_some hp htext
  obtain ⟨start, hstart, hmade⟩ := bind_eq_ok.mp h
  obtain ⟨start', hstart', hfollow⟩ := bind_eq_ok.mp hbase
  have hparts : FileTree.parts (path.segments.foldl join d.root).toList =
      FileTree.parts d.root.toList ++ path.segments := parts_foldl_join hordinary
  have hempty : path.segments.foldl join d.root ≠ "" := by
    intro hempty
    rw [hempty] at hparts
    exact hne (List.append_eq_nil_iff.mp hparts.symm).2
  have hupper := parts_parentText hempty (getLast?_foldl_join hne hordinary)
  rw [hparts, List.dropLast_append_of_ne_nil hne] at hupper
  obtain ⟨-, hparent⟩ | ⟨last, -, hsplit⟩ := parentText_cases (path.segments.foldl join d.root)
  · rw [hparent] at hmade
    rw [Except.ok.inj hmade]
  by_cases hparent : parentText (path.segments.foldl join d.root) = ""
  · -- the file is directly below the root of the tree
    rw [hparent] at hmade
    rw [Except.ok.inj hmade]
  · have hsame : start = start' := by
      have hhead : (path.segments.foldl join d.root).toList.head? = some '/' ↔ d.root.toList.head? = some '/' :=
        head?_foldl_join hordinary
      rw [hsplit, List.head?_append_of_ne_nil _ (mt String.toList_eq_nil_iff.mp hparent)] at hhead
      rw [FileTree.start_eq_ok hstart, FileTree.start_eq_ok hstart']
      simp only [hhead]
    subst hsame
    have hup : ".." ∉ path.segments.dropLast := fun hmem ↦
      (hordinary _ (List.dropLast_subset _ hmem)).2.2.1 rfl
    have hfollow := FileTree.follow_parts hfollow
    rcases FileTree.names_eq (parentText (path.segments.foldl join d.root)) with hnames | hnames
    · rw [hnames, hupper, FileTree.makeDirectories_append hfollow hdirectory] at hmade
      exact FileTree.node?_makeDirectories hmade hup hother
    · rw [hnames, hupper, List.append_assoc, FileTree.makeDirectories_append hfollow hdirectory] at hmade
      refine FileTree.node?_makeDirectories hmade (fun hmem ↦ ?_) hother
      rcases List.mem_append.mp hmem with hmem | hmem
      · exact hup hmem
      · exact absurd (List.mem_singleton.mp hmem) (by decide)

/-- Writing puts a file below the root. -/
theorem puts_of_write (hp : path.Canonical) (h : d.write path contents = .ok d') :
    ∃ text base, d.filePath? path = some text ∧ d.Puts d' base path.segments contents := by
  obtain ⟨text, tree, tree', htext, hmade, hwritten, rfl⟩ := exists_trees_of_write h
  obtain ⟨place, hplace, hput⟩ := bind_eq_ok.mp hwritten
  have hbelow : Below { d with tree } path.segments text := below_filePath hp htext
  obtain ⟨base, hbase, rfl⟩ := hbelow.place place hplace
  have hne : base ++ path.segments ≠ [] := List.append_ne_nil_of_right_ne_nil base hbelow.nonempty
  obtain ⟨hextends, -, -⟩ := FileTree.write_eq_ok hwritten
  obtain rfl : tree.put (base ++ path.segments) (.file contents) = tree' := by
    split at hput
    · cases hput
    · exact Except.ok.inj hput
  have hnode := tree.node?_put (.file contents) hne
  have hroot := rootPlace_of_extends (d := { d with tree }) hextends hbase
  refine ⟨text, base, htext, hroot, ⟨_, (hnode _).trans (if_pos rfl)⟩,
    fun other contents' stamp hother hfile ↦ ?_, fun hroot hdirectory other hother ↦ ?_⟩
  · rw [hnode, if_neg (Ne.symm hother)] at hfile
    split at hfile
    · cases hfile
    · obtain ⟨start, -, hmade⟩ := bind_eq_ok.mp hmade
      exact FileTree.file_of_makeDirectories hmade hfile
  · have happart : ∀ names, base ++ names ≠ other := fun names h ↦ hother ⟨names, h⟩
    rw [hnode, if_neg (happart _), if_neg, node?_makeDirectory hp htext hroot hdirectory hmade hother]
    rintro ⟨-, hmarked, -⟩
    rw [List.dropLast_append_of_ne_nil hbelow.nonempty] at hmarked
    exact happart _ hmarked

/-- Whatever a path is built from, its segments are in normal form. If a workspace in a directory has a file for it,
this is the root with one or more ordinary names after it, and it leads where these names lead from the root. What
is read lies there, and what is written is put there and nowhere else. -/
theorem built_stays_inside (hp : path.Built) (d : Directory) :
    path.Canonical ∧
      (∀ text, d.filePath? path = some text → d.Below path.segments text) ∧
      (∀ contents, d.read path = .ok contents → ∃ text base stamp, d.filePath? path = some text ∧
        d.rootPlace = .ok base ∧ d.tree.node? (base ++ path.segments) = some (.file contents stamp)) ∧
      ∀ contents d', d.write path contents = .ok d' → ∃ text base, d.filePath? path = some text ∧
        d.Puts d' base path.segments contents := by
  have hcanonical := hp.canonical
  exact ⟨hcanonical, fun _ ↦ below_filePath hcanonical, fun _ ↦ exists_file_of_read hcanonical,
    fun _ _ ↦ puts_of_write hcanonical⟩

/-- A workspace in the directory `/w`, beside which there is the file `/f`. -/
def besideFile : Directory where
  tree := { nodes := ⟨[(["w"], .directory 1), (["f"], .file .empty 2)]⟩, clock := 2 }
  root := "/w"

/-- A path that climbs from the project `/p` as far as it can and leads to `/f`. -/
def climbing : Path := (Path.parse "../../../f").resolveFrom (Path.parse "/p")

/-- A file that is written at a climbing path is below the root. -/
theorem climbing_path_stays_inside : climbing.Built ∧ ∃ d' text base,
    besideFile.write climbing .empty = .ok d' ∧ besideFile.filePath? climbing = some text ∧
      besideFile.Puts d' base climbing.segments .empty := by
  have hbuilt : climbing.Built := .resolveFrom (.parse _) (.parse _)
  have hwrites : (besideFile.write climbing .empty).isOk := by decide +kernel
  obtain ⟨-, -, -, hputs⟩ := built_stays_inside hbuilt besideFile
  cases hwrite : besideFile.write climbing .empty with
  | error cause =>
    rw [hwrite] at hwrites
    cases hwrites
  | ok d' =>
    obtain ⟨text, base, htext, hput⟩ := hputs .empty d' hwrite
    exact ⟨hbuilt, d', text, base, rfl, htext, hput⟩

end Directory

end Buildpath
