import Buildpath.Library.Chained
import Buildpath.Proofs.Path
import Buildpath.Proofs.Results

/-!
# Paths to resources

A resource is at the end of no more paths than `Workspace.pathBound` says. In a directory, the names of a
canonical path are those that follow the root, or the device, in the text that is looked up. The place
that they lead to ends with them, so it tells the path (`Workspace.exists_paths`).
-/

namespace Buildpath

/-! ### File trees -/

namespace FileTree

variable {t : FileTree} {place next : Place} {text : String}

/-- The names between the slashes of a text. -/
def parts (text : List Char) : List String :=
  ((Text.splitOn '/' text).map String.ofList).filter (· ≠ "")

theorem parts_append (start rest : List Char) : parts (start ++ '/' :: rest) = parts start ++ parts rest := by
  rw [parts, Text.splitOn_append, List.map_append, List.filter_append]
  rfl

theorem parts_joinWith {segments : List String} (h : ∀ s ∈ segments, s ≠ "" ∧ '/' ∉ s.toList) :
    parts (Text.joinWith '/' (segments.map String.toList)) = segments := by
  rcases List.eq_nil_or_concat segments with rfl | ⟨_, _, hsegments⟩
  · rfl
  · have hne : segments.map String.toList ≠ [] := by simp [hsegments]
    have hread : (String.ofList ∘ String.toList) = id := funext fun s ↦ String.ofList_toList
    rw [parts, Text.splitOn_joinWith hne (List.forall_mem_map.mpr fun s hs ↦ (h s hs).2), List.map_map,
      hread, List.map_id]
    exact List.filter_eq_self.mpr fun s hs ↦ by simpa using (h s hs).1

theorem parts_ordinary {segment : String} (h : Path.OrdinarySegment segment) :
    parts segment.toList = [segment] := by
  have hjoin := @parts_joinWith [segment] fun _ hs ↦ List.mem_singleton.mp hs ▸ ⟨h.1, h.2.2.2.1⟩
  exact hjoin

/-- Names are followed one after the other. -/
theorem follow_append {names names' : List String} :
    t.follow place (names ++ names') = t.follow place names >>= (t.follow · names') := by
  induction names generalizing place with
  | nil => rfl
  | cons name names ih =>
    rw [List.cons_append, follow, follow]
    split
    · rfl
    · rfl
    · split
      · rfl
      · exact ih

/-- Ordinary names are at the end of the place that they lead to. -/
theorem follow_ordinary {names : List String} (hs : ∀ s ∈ names, Path.OrdinarySegment s)
    (h : t.follow place names = .ok next) : next = place ++ names := by
  induction names generalizing place with
  | nil => rw [List.append_nil, ← Except.ok.inj h]
  | cons name names ih =>
    obtain ⟨⟨-, hself, hparent, -⟩, hrest⟩ := List.forall_mem_cons.mp hs
    rw [follow] at h
    split at h
    · cases h
    · cases h
    · split at h
      · cases h
      · rw [if_neg (show name ≠ selfName from hself), if_neg (show name ≠ ".." from hparent)] at h
        rw [ih hrest h, List.append_assoc, List.singleton_append]

theorem isDirectoryAt_iff : t.isDirectoryAt place ↔ ∃ stamp, t.node? place = some (.directory stamp) := by
  unfold isDirectoryAt
  split
  · next stamp hnode => exact iff_of_true rfl ⟨stamp, hnode⟩
  · next hother =>
    refine iff_of_false Bool.false_ne_true ?_
    rintro ⟨stamp, hnode⟩
    exact hother stamp hnode

/-- Names are followed from directories only. -/
theorem isDirectoryAt_of_follow {name : String} {names : List String}
    (h : t.follow place (name :: names) = .ok next) : t.isDirectoryAt place := by
  rw [follow] at h
  split at h
  · cases h
  · cases h
  · next stamp hnode => exact isDirectoryAt_iff.mpr ⟨stamp, hnode⟩

/-- In a directory, its own name leads nowhere else. -/
theorem follow_selfName (h : t.isDirectoryAt place) : t.follow place [selfName] = .ok place := by
  obtain ⟨stamp, hnode⟩ := isDirectoryAt_iff.mp h
  rw [follow, hnode]
  dsimp only
  rw [if_neg (by decide), if_pos rfl, follow]

theorem names_eq (text : String) : names text = parts text.toList ∨ names text = parts text.toList ++ [selfName] := by
  rw [names]
  split
  · exact .inr rfl
  · exact .inl rfl

/-- The names of a text lead where those between its slashes do. -/
theorem follow_parts (h : t.follow place (names text) = .ok next) :
    t.follow place (parts text.toList) = .ok next := by
  rcases names_eq text with hnames | hnames
  · rwa [← hnames]
  · -- the slash at the end stays in the directory
    rw [hnames, follow_append] at h
    obtain ⟨last, hlast, hself⟩ := bind_eq_ok.mp h
    rw [follow_selfName (isDirectoryAt_of_follow hself)] at hself
    rw [hlast, Except.ok.inj hself]

/-- A text leads where the names between its slashes do, from the root or the current directory. -/
theorem locate_eq_ok (h : t.locate text = .ok place) :
    ∃ start ∈ [[], t.current], t.start text = .ok start ∧ t.follow start (parts text.toList) = .ok place := by
  obtain ⟨start, hstart, h⟩ := bind_eq_ok.mp h
  have hmem : start ∈ [[], t.current] := by
    unfold FileTree.start at hstart
    split at hstart
    · cases hstart
    split at hstart
    · cases hstart
    rw [← Except.ok.inj hstart]
    split <;> simp
  refine ⟨start, hmem, hstart, ?_⟩
  split at h
  · cases h
  · exact follow_parts h

/-- The places that texts lead to, where the names before the last ones are given, tell the last ones. -/
theorem exists_segments (t : FileTree) (before : List String) :
    ∃ lists : List (List String), lists.length ≤ 2 * t.nodes.records.length ∧
      ∀ (text : String) (segments : List String), segments ≠ [] →
        (∀ s ∈ segments, Path.OrdinarySegment s) → parts text.toList = before ++ segments →
        (t.kind? text).isSome → segments ∈ lists := by
  let ends (start : Place) : List (List String) :=
    (t.follow start before).toOption.elim [] fun base ↦ t.nodes.keys.map (List.drop base.length)
  have hlength : ∀ start, (ends start).length ≤ t.nodes.records.length := by
    intro start
    dsimp only [ends]
    cases t.follow start before with
    | ok base => exact Nat.le_of_eq ((List.length_map _).trans (List.length_map _))
    | error cause => exact Nat.zero_le _
  refine ⟨ends [] ++ ends t.current, ?_, fun text segments hne hs hparts hkind ↦ ?_⟩
  · have h₁ := hlength []
    have h₂ := hlength t.current
    rw [List.length_append]
    omega
  unfold kind? lookup at hkind
  cases hlocate : t.locate text with
  | error cause =>
    rw [hlocate] at hkind
    cases hkind
  | ok place =>
    rw [hlocate, bind_ok] at hkind
    obtain ⟨start, hstart, -, hfollow⟩ := locate_eq_ok hlocate
    rw [hparts, follow_append] at hfollow
    obtain ⟨base, hbase, hfollow⟩ := bind_eq_ok.mp hfollow
    obtain rfl := follow_ordinary hs hfollow
    have hnode : t.node? (base ++ segments) = t.nodes.find? (base ++ segments) := by
      rw [node?, if_neg (by simp [hne])]
    rw [hnode] at hkind
    have hkey : base ++ segments ∈ t.nodes.keys := by
      refine (Table.mem_keys _ _).mpr ?_
      cases hfind : t.nodes.find? (base ++ segments) with
      | none =>
        rw [hfind] at hkind
        cases hkind
      | some node => rw [Table.contains, hfind]; rfl
    have hmem : segments ∈ ends start := by
      dsimp only [ends]
      rw [hbase]
      exact List.mem_map.mpr ⟨_, hkey, List.drop_left⟩
    rcases List.mem_cons.mp hstart with rfl | hstart
    · exact List.mem_append_left _ hmem
    · obtain rfl := List.mem_singleton.mp hstart
      exact List.mem_append_right _ hmem

end FileTree

/-! ### Texts of paths -/

namespace Directory

/-- The names of a joined text are those of its two parts. -/
theorem parts_join {base segment : String} (hs : Path.OrdinarySegment segment) :
    FileTree.parts (join base segment).toList = FileTree.parts base.toList ++ [segment] := by
  have hhead : segment.toList.head? ≠ some '/' := fun h ↦ hs.2.2.2.1 (List.mem_of_head? h)
  have hslash : ∀ start : List Char, FileTree.parts (start ++ '/' :: segment.toList) =
      FileTree.parts start ++ [segment] := fun start ↦ by
    rw [FileTree.parts_append, FileTree.parts_ordinary hs]
  rw [join, if_neg hhead]
  split
  · next hbase =>
    rw [String.toList_append]
    rcases Bool.or_eq_true_iff.mp hbase with hempty | hlast
    · obtain rfl : base = "" := by simpa using hempty
      exact FileTree.parts_ordinary hs
    · obtain ⟨start, hstart⟩ := List.getLast?_eq_some_iff.mp (of_decide_eq_true hlast)
      have hnone : FileTree.parts (start ++ ['/']) = FileTree.parts start :=
        (FileTree.parts_append start []).trans (List.append_nil _)
      rw [hstart, hnone, List.append_assoc, List.singleton_append, hslash]
  · rw [String.toList_append, String.toList_append, List.append_assoc]
    exact hslash base.toList

theorem parts_foldl_join {base : String} {segments : List String}
    (hs : ∀ s ∈ segments, Path.OrdinarySegment s) :
    FileTree.parts (segments.foldl join base).toList = FileTree.parts base.toList ++ segments := by
  induction segments generalizing base with
  | nil => exact (List.append_nil _).symm
  | cons segment segments ih =>
    obtain ⟨hsegment, hrest⟩ := List.forall_mem_cons.mp hs
    rw [List.foldl_cons, ih hrest, parts_join hsegment, List.append_assoc, List.singleton_append]

end Directory

namespace Path

variable {p : Path}

/-- The names of the text of an absolute path follow those of its device. -/
theorem parts_toString (hp : p.Canonical) (habsolute : p.absolute) :
    FileTree.parts p.toString.toList = FileTree.parts (p.device.getD "").toList ++ p.segments := by
  rw [Path.toString, String.toList_ofList, toChars, if_pos habsolute, List.append_assoc,
    List.singleton_append, FileTree.parts_append,
    FileTree.parts_joinWith fun s hs ↦
      have h := ordinary_of_absolute hp habsolute s hs
      ⟨h.1, h.2.2.2.1⟩]

end Path

/-! ### Workspaces -/

namespace Workspace

/-- In memory, what is on a side are the keys of a table. -/
theorem exists_keys (m : Memory) (external : Bool) :
    ∃ paths : List Path, paths.length ≤ (memory m).pathBound ∧
      ∀ path, ((memory m).kindOn? external path).isSome → path ∈ paths := by
  have hkeys : ∀ table : Table Path Resource, table.keys.length = table.records.length ∧
      ∀ path, ((table.find? path).map Resource.kind).isSome → path ∈ table.keys := fun table ↦
    ⟨List.length_map _, fun path h ↦ (Table.mem_keys _ _).mpr (by rwa [Option.isSome_map] at h)⟩
  cases external with
  | false =>
    obtain ⟨hlength, hmem⟩ := hkeys m.resources
    exact ⟨m.resources.keys, hlength ▸ Nat.le_add_right _ _, hmem⟩
  | true =>
    obtain ⟨hlength, hmem⟩ := hkeys m.external
    exact ⟨m.external.keys, hlength ▸ Nat.le_add_left _ _, hmem⟩

/-- Apart from the root, no more paths with a device lead to a resource than the bound says. -/
theorem exists_paths (w : Workspace) (external : Bool) (device : Option String) :
    ∃ paths : List Path, paths.length ≤ w.pathBound ∧ ∀ path : Path, path.Canonical → path.absolute →
      path.device = device → path.segments ≠ [] → (w.kindOn? external path).isSome → path ∈ paths := by
  cases w with
  | memory m =>
    obtain ⟨paths, hlength, hpaths⟩ := exists_keys m external
    exact ⟨paths, hlength, fun path _ _ _ _ h ↦ hpaths path h⟩
  | directory d =>
    obtain ⟨lists, hlength, hlists⟩ := d.tree.exists_segments
      (FileTree.parts (if external then device.getD "" else d.root).toList)
    refine ⟨lists.map fun segments ↦ ⟨device, true, segments⟩, ?_, fun path hp habsolute hdevice hne h ↦ ?_⟩
    · rw [List.length_map]
      refine Nat.le_trans hlength ?_
      rw [pathBound, FileTree.textLimit]
      omega
    have hs := Path.ordinary_of_absolute hp habsolute
    refine List.mem_map.mpr ⟨path.segments, ?_, ?_⟩
    · cases external with
      | true =>
        have hfound : (d.tree.kind? path.toString).isSome := by
          rw [kindOn?, if_pos rfl, externalKind?] at h
          exact h
        exact hlists path.toString path.segments hne hs (hdevice ▸ Path.parts_toString hp habsolute) hfound
      | false =>
        have hpath : d.filePath? path = some (path.segments.foldl Directory.join d.root) := by
          rw [Directory.filePath?, if_neg (by simp [habsolute, hne])]
        refine hlists (path.segments.foldl Directory.join d.root) path.segments hne hs
          (Directory.parts_foldl_join hs) ?_
        change (d.kind? path).isSome at h
        rw [Directory.kind?, hpath, Option.bind_some] at h
        cases hkind : d.tree.kind? (path.segments.foldl Directory.join d.root) with
        | none =>
          rw [hkind] at h
          cases h
        | some kind => rfl
    · rw [← hdevice, ← habsolute]

end Workspace

end Buildpath
