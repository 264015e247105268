import Buildpath.Proofs.Resource.Apart

/-!
# Children of folders

A folder of a workspace has children, whatever the references of its projects are. Of two listings the same
is left in ascending order if they differ by project files only (`withoutProjectFiles_sort`), as those before and
after a project file is put (`Workspace.children_addFile`).
-/

namespace Buildpath

variable {w w' : Workspace} {path : Path} {p : String}

namespace Workspace

theorem children_files (w : Workspace) (path : Path) : w.files.children path = w.children path := by
  cases w <;> rfl

theorem children_of_files (h : w'.files = w.files) (path : Path) : w'.children path = w.children path := by
  rw [← children_files w', h, children_files]

theorem isContainer_of_files (h : w'.files = w.files) (path : Path) :
    w'.isContainer path = w.isContainer path := by
  rw [isContainer, isContainer, kind?_of_files h]

private theorem exists_list {t : FileTree} {text : String} {kind : ResourceKind}
    (h : t.kind? text = some kind) (hcontainer : kind.isContainer) :
    ∃ names, t.list text = .ok names := by
  unfold FileTree.kind? FileTree.lookup at h
  unfold FileTree.list
  cases hplace : t.locate text with
  | error cause =>
    rw [hplace] at h
    cases h
  | ok place =>
    rw [hplace] at h
    dsimp only [Bind.bind, Except.bind] at h ⊢
    cases hnode : t.node? place with
    | none =>
      rw [hnode] at h
      cases h
    | some node =>
      rw [hnode] at h
      cases node with
      | file contents stamp =>
        obtain rfl := Option.some.inj h
        cases hcontainer
      | directory stamp => exact ⟨_, rfl⟩

/-- What is a container of the workspace is one in the file tree. -/
private theorem exists_text {d : Directory} {kind : ResourceKind} (h : d.kind? path = some kind)
    (hcontainer : kind.isContainer) :
    ∃ text kind', d.filePath? path = some text ∧ d.tree.kind? text = some kind' ∧ kind'.isContainer := by
  rw [Directory.kind?] at h
  split at h
  · cases h
  · next kind' hkind' =>
    obtain ⟨text, htext, hfound⟩ := Option.bind_eq_some_iff.mp hkind'
    refine ⟨text, kind', htext, hfound, ?_⟩
    split at h
    · split at h
      · next hfolder => exact hfolder ▸ rfl
      · cases h
    · exact Option.some.inj h ▸ hcontainer

/-- What is a container has children. -/
theorem exists_children (h : w.isContainer path) : ∃ members, w.children path = .ok members := by
  rw [isContainer, Option.any_eq_true] at h
  obtain ⟨kind, hkind, hcontainer⟩ := h
  cases w with
  | memory m =>
    obtain ⟨r, hfound, rfl⟩ := Option.map_eq_some_iff.mp hkind
    rw [children, Memory.childrenIn, hfound]
    exact ⟨_, if_pos hcontainer⟩
  | directory d =>
    obtain ⟨text, kind', htext, hkind', hcontainer'⟩ := exists_text hkind hcontainer
    obtain ⟨names, hnames⟩ := exists_list hkind' hcontainer'
    refine ⟨Directory.belowPath path names, ?_⟩
    rw [children, Directory.children, Directory.requirePath, htext]
    dsimp only [Bind.bind, Except.bind]
    rw [hnames]
    rfl

end Workspace

/-- Whether a path is that of a project file, by its name. -/
def Path.isProjectFile (path : Path) : Bool := path.lastSegment? = some ".buildpath"

/-- Paths apart from those of project files. -/
def withoutProjectFiles (paths : List Path) : List Path := paths.filter fun path ↦ !path.isProjectFile

/-- Listings that differ by project files only do so in order, too, whatever is left out of them. -/
theorem withoutProjectFiles_sort {members members' : List Path} (keep : Path → Bool)
    (h : withoutProjectFiles members' = withoutProjectFiles members) :
    withoutProjectFiles (Path.sort (members'.filter keep)) =
      withoutProjectFiles (Path.sort (members.filter keep)) := by
  have hkeep : ∀ members, withoutProjectFiles (Path.sort (members.filter keep)) =
      Path.sort ((withoutProjectFiles members).filter keep) := by
    intro members
    rw [withoutProjectFiles, Path.filter_sort, List.filter_filter, withoutProjectFiles, List.filter_filter]
    simp only [Bool.and_comm]
  rw [hkeep, hkeep, h]

theorem isProjectFile_projectFilePath (project : String) : (projectFilePath project).isProjectFile := by
  rw [projectFilePath_eq, Path.isProjectFile, Path.lastSegment?, List.getLast?_concat]
  exact decide_eq_true rfl

/-! ### Project files that are put -/

namespace Workspace

/-- Putting the file of a project with a plain name makes no folders. -/
theorem addFile_projectFile (hp : HasPlainName p) (memory : Memory) (contents : ByteArray) :
    memory.addFile (projectFilePath p) contents = { memory with
      clock := memory.clock + 1
      resources := memory.resources.insert (projectFilePath p)
        { kind := .file, contents, stamp := memory.clock + 1 } } := by
  have hfolders : Memory.foldersAbove false (projectFilePath p) = [] := by
    have hpath : projectFilePath p = ⟨none, true, [p, ".buildpath"]⟩ := by
      rw [projectFilePath_eq, show projectPath p = _ from hp]
      rfl
    rw [hpath]
    rfl
  rw [Memory.addFile, Memory.putFile, Memory.ensureFolders, hfolders]
  rfl

/-- Putting the file of a project leaves what other paths hold as it is. -/
theorem kind?_addFile (hp : HasPlainName p) (memory : Memory) (contents : ByteArray) (path : Path) :
    (Workspace.memory (memory.addFile (projectFilePath p) contents)).kind? path =
      if projectFilePath p = path then some .file else (Workspace.memory memory).kind? path := by
  rw [addFile_projectFile hp, kind?, kind?]
  dsimp only
  rw [Table.find?_insert]
  split <;> rfl

/-- Putting the file of a project adds no children to folders but project files. -/
theorem children_addFile (hp : HasPlainName p) {memory : Memory} (contents : ByteArray) {members : List Path}
    (hfile : (Workspace.memory memory).isContainer (projectFilePath p) = false)
    (h : (Workspace.memory memory).children path = .ok members) : ∃ members',
      (Workspace.memory (memory.addFile (projectFilePath p) contents)).children path = .ok members' ∧
        withoutProjectFiles members' = withoutProjectFiles members := by
  rw [children, Memory.childrenIn] at h
  have hne : projectFilePath p ≠ path := by
    rintro rfl
    change ((memory.resources.find? (projectFilePath p)).map Resource.kind).any ResourceKind.isContainer =
      false at hfile
    split at h
    · next r hr =>
      rw [hr] at hfile
      rw [if_neg (by simpa using hfile)] at h
      cases h
    · cases h
  rw [addFile_projectFile hp, children, Memory.childrenIn]
  dsimp only
  rw [Table.find?_insert, if_neg hne]
  split at h
  · next r hr =>
    split at h
    · next hcontainer =>
      rw [if_pos hcontainer]
      obtain rfl := Except.ok.inj h
      refine ⟨_, rfl, withoutProjectFiles_sort _ ?_⟩
      rw [Table.keys_insert]
      split
      · rfl
      · rw [withoutProjectFiles, List.filter_append, List.filter_singleton,
          isProjectFile_projectFilePath]
        exact List.append_nil _
    · cases h
  · cases h

end Workspace

end Buildpath
