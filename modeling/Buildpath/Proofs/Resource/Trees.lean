import Buildpath.Proofs.Resource.Apart
import Buildpath.Proofs.Validation
import Buildpath.Resource.Workspace

/-!
# Workspaces that are trees

In a tree, every resource below a project lies in a folder or a project (`Workspace.IsTree`). Writing to a
workspace in memory makes the folders above a file only where there is nothing, and it puts the file whatever is
there. What written files leave is told by their paths alone (`Memory.Accounts`), and it is a tree exactly if they
all lie below projects and none of them lies above another one, in whatever order they were written
(`Memory.isTree_iff`).
-/

namespace Buildpath

namespace Path

variable {p q r : Path}

/-- The first segments of a path. -/
def upTo (p : Path) (count : Nat) : Path := p.dropLast (p.segmentCount - count)

theorem segmentCount_upTo {count : Nat} (h : count ≤ p.segmentCount) : (p.upTo count).segmentCount = count := by
  simp only [upTo, dropLast, segmentCount, List.length_take] at h ⊢
  omega

theorem isPrefixOf_upTo (p : Path) (count : Nat) : (p.upTo count).isPrefixOf p := p.isPrefixOf_dropLast _

/-- What lies above a resource is the folder of the resource or lies above it. -/
theorem isAbove_iff_dropLast (h : q.segmentCount ≠ 0) : p.isAbove q ↔ p.isPrefixOf (q.dropLast 1) := by
  have hcount := q.segmentCount_dropLast
  rw [isAbove_iff_lt]
  constructor
  · rintro ⟨hbelow, hlt⟩
    exact isPrefixOf_of_le hbelow (q.isPrefixOf_dropLast 1) (by omega)
  · intro hbelow
    have hle := segmentCount_le hbelow
    exact ⟨isPrefixOf_trans hbelow (q.isPrefixOf_dropLast 1), by omega⟩

/-- On the way from a path to one below it, what comes first lies directly in the upper one. -/
theorem dropLast_upTo_succ (h : p.isAbove q) : (q.upTo (p.segmentCount + 1)).dropLast 1 = p := by
  obtain ⟨hbelow, hlt⟩ := isAbove_iff_lt.mp h
  have hupper := isPrefixOf_trans ((q.upTo (p.segmentCount + 1)).isPrefixOf_dropLast 1) (q.isPrefixOf_upTo _)
  have hcount : ((q.upTo (p.segmentCount + 1)).dropLast 1).segmentCount = p.segmentCount := by
    rw [segmentCount_dropLast, segmentCount_upTo (show p.segmentCount + 1 ≤ q.segmentCount from hlt),
      Nat.add_sub_cancel]
  exact eq_of_isPrefixOf (isPrefixOf_of_le hupper hbelow (Nat.le_of_eq hcount)) hcount

end Path

/-- Whether every resource below a project lies in a folder or a project. -/
def Workspace.IsTree (w : Workspace) : Prop :=
  ∀ path, w.hasResource path → 2 ≤ path.segmentCount → w.isContainer (path.dropLast 1)

namespace Memory

variable {m m' : Memory} {path other : Path} {contents : ByteArray} {written : List Path}

/-! ### What written files leave -/

/-- The workspaces that come from an empty one when projects are added, each at a path of one segment, and files are
written. The list holds the paths of the files. -/
inductive Grown : List Path → Memory → Prop
  | empty (root : Path) : Grown [] { locationRoot := root }
  | addProject {m : Memory} {written : List Path} (grown : Grown written m) (name : String)
    (nature : Option String) (single : (projectPath name).segmentCount = 1) :
    Grown written (m.addProject name nature)
  | write {written : List Path} {m m' : Memory} {path : Path} {contents : ByteArray} (grown : Grown written m)
    (writes : m.write path contents = .ok m') : Grown (path :: written) m'

/-- What is in a workspace that has projects at paths of one segment, and files at the paths of a list: besides these,
the folders above the files. -/
structure Accounts (m : Memory) (written : List Path) : Prop where
  deep : ∀ path ∈ written, 2 ≤ path.segmentCount
  flat : ∀ name, m.projects.contains name → (projectPath name).segmentCount = 1
  file : ∀ path ∈ written, (Workspace.memory m).kind? path = some .file
  folder : ∀ path ∉ written, 2 ≤ path.segmentCount → (∃ file ∈ written, path.isAbove file) →
    (Workspace.memory m).kind? path = some .folder
  project : ∀ name, m.projects.contains name → (Workspace.memory m).kind? (projectPath name) = some .project
  only : ∀ path, (Workspace.memory m).hasResource path →
    (∃ name, m.projects.contains name ∧ projectPath name = path) ∨
      2 ≤ path.segmentCount ∧ ∃ file ∈ written, path.isPrefixOf file

private theorem kind?_addProject (m : Memory) (name : String) (nature : Option String) (other : Path) :
    (Workspace.memory (m.addProject name nature)).kind? other =
      if projectPath name = other then some .project else (Workspace.memory m).kind? other := by
  rw [Workspace.kind?, find?_addProject]
  split <;> rfl

private theorem contains_addProject (m : Memory) (name other : String) (nature : Option String) :
    (m.addProject name nature).projects.contains other ↔ name = other ∨ m.projects.contains other := by
  rw [addProject, Table.contains_insert, Bool.or_eq_true, decide_eq_true_eq]

theorem Accounts.addProject (h : m.Accounts written) {name : String}
    (hsingle : (projectPath name).segmentCount = 1) (nature : Option String) :
    (m.addProject name nature).Accounts written := by
  have hkind := kind?_addProject m name nature
  -- a path with more segments is not that of the project
  have hother : ∀ path : Path, 2 ≤ path.segmentCount → projectPath name ≠ path := by
    rintro path htwo rfl
    omega
  refine ⟨h.deep, fun other hcontains ↦ ?_, fun path hpath ↦ ?_, fun path hnew htwo habove ↦ ?_,
    fun other hcontains ↦ ?_, fun path hpath ↦ ?_⟩
  · rcases (contains_addProject m name other nature).mp hcontains with rfl | hcontains
    · exact hsingle
    · exact h.flat other hcontains
  · rw [hkind, if_neg (hother path (h.deep path hpath)), h.file path hpath]
  · rw [hkind, if_neg (hother path htwo), h.folder path hnew htwo habove]
  · rw [hkind]
    split
    · rfl
    · next hne =>
      rcases (contains_addProject m name other nature).mp hcontains with rfl | hcontains
      · exact absurd rfl hne
      · exact h.project other hcontains
  · rw [Workspace.hasResource, hkind] at hpath
    split at hpath
    · next heq => exact .inl ⟨name, (contains_addProject m name name nature).mpr (.inl rfl), heq⟩
    · refine (h.only path hpath).imp_left ?_
      rintro ⟨other, hcontains, hsame⟩
      exact ⟨other, (contains_addProject m name other nature).mpr (.inr hcontains), hsame⟩

/-- A file is written into an existing project, and what is put is the file. -/
private theorem write_eq_addFile (hwrite : m.write path contents = .ok m') :
    2 ≤ path.segmentCount ∧ m' = m.addFile path contents := by
  rw [Memory.write] at hwrite
  split at hwrite
  · cases hwrite
  · split at hwrite
    · cases hwrite
    · next hallowed =>
      cases hwrite
      simp only [Bool.or_eq_true, decide_eq_true_eq, not_or] at hallowed
      exact ⟨by omega, rfl⟩

private theorem kind?_addFile_self (m : Memory) (path : Path) (contents : ByteArray) :
    (Workspace.memory (m.addFile path contents)).kind? path = some .file := by
  rw [Workspace.kind?, find?_addFile, if_pos rfl]
  rfl

/-- At other paths, putting a file makes a folder where there is nothing, if the file is to lie below. -/
private theorem kind?_addFile_other (contents : ByteArray) (hdeep : 2 ≤ path.segmentCount) (hne : path ≠ other) :
    (Workspace.memory (m.addFile path contents)).kind? other = (Workspace.memory m).kind? other ∧
        (other.isAbove path → 2 ≤ other.segmentCount → (Workspace.memory m).hasResource other) ∨
      (Workspace.memory m).hasResource other = false ∧ other.isAbove path ∧ 2 ≤ other.segmentCount ∧
        (Workspace.memory (m.addFile path contents)).kind? other = some .folder := by
  rw [Workspace.hasResource, Workspace.kind?, Workspace.kind?, find?_addFile, if_neg hne,
    Path.isAbove_iff_dropLast (by omega)]
  obtain ⟨hsame, hthere⟩ | ⟨hnone, hmem, stamp, -, -, hfolder⟩ := m.ensureFolders_cases path other
  · rw [hsame]
    exact .inl ⟨rfl, fun habove htwo ↦ Option.isSome_map.trans (hthere (mem_foldersAbove.mpr ⟨habove, htwo⟩))⟩
  · rw [hnone, hfolder]
    obtain ⟨habove, htwo⟩ := mem_foldersAbove.mp hmem
    exact .inr ⟨rfl, habove, htwo, rfl⟩

theorem Accounts.write (h : m.Accounts written) (hwrite : m.write path contents = .ok m') :
    m'.Accounts (path :: written) := by
  obtain ⟨hdeep, rfl⟩ := write_eq_addFile hwrite
  have hself := kind?_addFile_self m path contents
  have hprojects : (m.addFile path contents).projects = m.projects := (write_eq_ok hwrite).1
  refine ⟨List.forall_mem_cons.mpr ⟨hdeep, h.deep⟩, hprojects ▸ h.flat, List.forall_mem_cons.mpr ⟨hself, ?_⟩,
    fun other hother htwo habove ↦ ?_, ?_, fun other hother ↦ ?_⟩
  · intro other hmem
    by_cases hne : path = other
    · rw [← hne, hself]
    · have hfile := h.file other hmem
      obtain ⟨hsame, -⟩ | ⟨hnone, -⟩ := kind?_addFile_other contents hdeep hne
      · rw [hsame, hfile]
      · rw [Workspace.hasResource, hfile] at hnone
        cases hnone
  · obtain ⟨hne, hnew⟩ := not_or.mp (mt List.mem_cons.mpr hother)
    obtain ⟨hsame, hthere⟩ | ⟨-, -, -, hfolder⟩ := kind?_addFile_other contents hdeep (Ne.symm hne)
    · rw [hsame]
      by_cases hold : ∃ file ∈ written, other.isAbove file
      · exact h.folder other hnew htwo hold
      · -- something was there, but neither a project nor a file nor anything above one
        obtain ⟨file, hfile, habove⟩ := habove
        rcases List.mem_cons.mp hfile with rfl | hfile
        · rcases h.only other (hthere habove htwo) with ⟨name, hcontains, rfl⟩ | ⟨-, file, hfile, hbelow⟩
          · have hflat := h.flat name hcontains
            omega
          · rcases Path.isPrefixOf_iff_eq_or_isAbove.mp hbelow with rfl | habove
            · exact absurd hfile hnew
            · exact absurd ⟨file, hfile, habove⟩ hold
        · exact absurd ⟨file, hfile, habove⟩ hold
    · exact hfolder
  · rw [hprojects]
    intro name hcontains
    have hproject := h.project name hcontains
    have hflat := h.flat name hcontains
    have hne : path ≠ projectPath name := by
      rintro rfl
      omega
    obtain ⟨hsame, -⟩ | ⟨-, -, htwo, -⟩ := kind?_addFile_other contents hdeep hne
    · rw [hsame, hproject]
    · omega
  · rw [hprojects]
    by_cases hne : path = other
    · exact .inr ⟨hne ▸ hdeep, path, List.mem_cons_self, hne ▸ path.isPrefixOf_refl⟩
    · obtain ⟨hsame, -⟩ | ⟨-, habove, htwo, -⟩ := kind?_addFile_other contents hdeep hne
      · rw [Workspace.hasResource, hsame] at hother
        refine (h.only other hother).imp_right ?_
        rintro ⟨htwo, file, hfile, hbelow⟩
        exact ⟨htwo, file, List.mem_cons_of_mem path hfile, hbelow⟩
      · exact .inr ⟨htwo, path, List.mem_cons_self, (Path.isAbove_iff_lt.mp habove).1⟩

theorem Grown.accounts (h : Grown written m) : m.Accounts written := by
  induction h with
  | empty root =>
    refine ⟨nofun, fun _ hcontains ↦ ?_, nofun, ?_, fun _ hcontains ↦ ?_, fun _ hpath ↦ ?_⟩
    · cases hcontains
    · rintro path - - ⟨file, hfile, -⟩
      cases hfile
    · cases hcontains
    · cases hpath
  | addProject _ name nature hsingle ih => exact ih.addProject hsingle nature
  | write _ hwrite ih => exact ih.write hwrite

/-! ### What makes a tree -/

/-- Whether files lie below the paths of projects, and none of them above another one. -/
structure Nested (m : Memory) (written : List Path) : Prop where
  owned : ∀ path ∈ written, ∃ name, m.projects.contains name ∧ (projectPath name).isPrefixOf path
  apart : ∀ path ∈ written, ∀ other ∈ written, ¬ path.isAbove other

/-- What is above a file is there, if it lies below a project. -/
theorem Accounts.hasResource_upTo (h : m.Accounts written) (hpath : path ∈ written) {count : Nat} (htwo : 2 ≤ count)
    (hcount : count ≤ path.segmentCount) : (Workspace.memory m).hasResource (path.upTo count) := by
  have hsegments := Path.segmentCount_upTo hcount
  rw [Workspace.hasResource]
  by_cases hwritten : path.upTo count ∈ written
  · rw [h.file _ hwritten]
    rfl
  · have habove : (path.upTo count).isAbove path := by
      rcases Path.isPrefixOf_iff_eq_or_isAbove.mp (path.isPrefixOf_upTo count) with heq | habove
      · exact absurd (heq ▸ hpath) hwritten
      · exact habove
    rw [h.folder _ hwritten (by omega) ⟨path, hpath, habove⟩]
    rfl

/-- What has more than one segment is a written file or above one. -/
theorem Accounts.exists_file (h : m.Accounts written) (hpath : (Workspace.memory m).hasResource path)
    (htwo : 2 ≤ path.segmentCount) : ∃ file ∈ written, path.isPrefixOf file := by
  rcases h.only path hpath with ⟨name, hcontains, rfl⟩ | ⟨-, hfile⟩
  · have hflat := h.flat name hcontains
    omega
  · exact hfile

/-- What lies below a project is in a folder or a project, unless a file was put at the path above, or this is the
path of no project. -/
theorem Accounts.isContainer_iff (h : m.Accounts written) (hpath : (Workspace.memory m).hasResource path)
    (htwo : 2 ≤ path.segmentCount) :
    (Workspace.memory m).isContainer (path.dropLast 1) ↔ path.dropLast 1 ∉ written ∧
      (path.segmentCount = 2 → ∃ name, m.projects.contains name ∧ projectPath name = path.dropLast 1) := by
  have hcount := path.segmentCount_dropLast
  obtain ⟨file, hfile, hbelow⟩ := h.exists_file hpath htwo
  have habove : (path.dropLast 1).isAbove file := by
    have hle := Path.segmentCount_le hbelow
    exact Path.isAbove_iff_lt.mpr ⟨Path.isPrefixOf_trans (path.isPrefixOf_dropLast 1) hbelow, by omega⟩
  rw [Workspace.isContainer]
  by_cases hwritten : path.dropLast 1 ∈ written
  · rw [h.file _ hwritten]
    exact ⟨nofun, fun hnot ↦ absurd hwritten hnot.1⟩
  by_cases hflat : path.segmentCount = 2
  · constructor
    · intro hcontainer
      refine ⟨hwritten, fun _ ↦ ?_⟩
      have hthere : (Workspace.memory m).hasResource (path.dropLast 1) := by
        rw [Workspace.hasResource]
        cases hkind : (Workspace.memory m).kind? (path.dropLast 1) with
        | some kind => rfl
        | none =>
          rw [hkind] at hcontainer
          cases hcontainer
      refine (h.only _ hthere).resolve_right fun hdeep ↦ ?_
      have := hdeep.1
      omega
    · rintro ⟨-, hproject⟩
      obtain ⟨name, hcontains, hsame⟩ := hproject hflat
      rw [← hsame, h.project name hcontains]
      rfl
  · rw [h.folder _ hwritten (by omega) ⟨file, hfile, habove⟩]
    exact ⟨fun _ ↦ ⟨hwritten, fun hflat' ↦ absurd hflat' hflat⟩, fun _ ↦ rfl⟩

/-- In a tree, files lie below the paths of projects and none above another one. -/
theorem Accounts.nested (h : m.Accounts written) (htree : (Workspace.memory m).IsTree) : m.Nested written := by
  refine ⟨fun path hpath ↦ ?_, fun path hpath other hother habove ↦ ?_⟩
  · have hcount := Path.segmentCount_upTo (h.deep path hpath)
    have hthere := h.hasResource_upTo hpath (Nat.le_refl 2) (h.deep path hpath)
    have htwo := Nat.le_of_eq hcount.symm
    obtain ⟨name, hcontains, hsame⟩ := ((h.isContainer_iff hthere htwo).mp (htree _ hthere htwo)).2 hcount
    refine ⟨name, hcontains, ?_⟩
    rw [hsame]
    exact Path.isPrefixOf_trans ((path.upTo 2).isPrefixOf_dropLast 1) (path.isPrefixOf_upTo 2)
  · -- the first resource on the way to the other file lies in this one
    have hdeep := h.deep path hpath
    have hle : path.segmentCount + 1 ≤ other.segmentCount := (Path.isAbove_iff_lt.mp habove).2
    have hcount := Path.segmentCount_upTo hle
    have hthere := h.hasResource_upTo hother (by omega) hle
    have htwo : 2 ≤ (other.upTo (path.segmentCount + 1)).segmentCount := by omega
    have hparent := ((h.isContainer_iff hthere htwo).mp (htree _ hthere htwo)).1
    exact hparent ((Path.dropLast_upTo_succ habove).symm ▸ hpath)

/-- Files that lie below the paths of projects, none of them above another one, make a tree. -/
theorem Accounts.isTree (h : m.Accounts written) (hnested : m.Nested written) : (Workspace.memory m).IsTree := by
  intro path hpath htwo
  have hcount := path.segmentCount_dropLast
  obtain ⟨file, hfile, hbelow⟩ := h.exists_file hpath htwo
  have hle := Path.segmentCount_le hbelow
  have hupper := Path.isPrefixOf_trans (path.isPrefixOf_dropLast 1) hbelow
  refine (h.isContainer_iff hpath htwo).mpr ⟨fun hwritten ↦ ?_, fun hflat ↦ ?_⟩
  · exact hnested.apart _ hwritten file hfile (Path.isAbove_iff_lt.mpr ⟨hupper, by omega⟩)
  · obtain ⟨name, hcontains, howns⟩ := hnested.owned file hfile
    have hsame : (projectPath name).segmentCount = (path.dropLast 1).segmentCount := by
      rw [h.flat name hcontains]
      omega
    exact ⟨name, hcontains,
      Path.eq_of_isPrefixOf (Path.isPrefixOf_of_le howns hupper (Nat.le_of_eq hsame)) hsame⟩

/-- A workspace to which projects with paths of one segment were added, and to which files were written in any order,
is a tree exactly if every file lies below the path of a project and none of them lies above another one. Otherwise,
the resources that lie in nothing, or in a file, are those below a written file and those below the path of no
project. -/
theorem isTree_iff (h : Grown written m) :
    ((Workspace.memory m).IsTree ↔ m.Nested written) ∧
      ∀ path, (Workspace.memory m).hasResource path → 2 ≤ path.segmentCount →
        ((Workspace.memory m).isContainer (path.dropLast 1) ↔ path.dropLast 1 ∉ written ∧
          (path.segmentCount = 2 → ∃ name, m.projects.contains name ∧ projectPath name = path.dropLast 1)) := by
  have haccounts := h.accounts
  exact ⟨⟨haccounts.nested, haccounts.isTree⟩, fun path ↦ haccounts.isContainer_iff⟩

/-- A workspace with one project and nothing in it. -/
def bareProject : Memory := addProject {} "p" none

/-- The file `/p/a/b`, which lies below the path `/p/a`. -/
def innerFile : Path := ⟨none, true, ["p", "a", "b"]⟩

private theorem single_p : (projectPath "p").segmentCount = 1 := by decide +kernel

/-- Two files in a project, one of them in a folder. -/
theorem isTree_of_files : ∃ m, Grown [⟨none, true, ["p", "c"]⟩, innerFile] m ∧ (Workspace.memory m).IsTree := by
  have hgrown : Grown [⟨none, true, ["p", "c"]⟩, innerFile]
      ((bareProject.addFile innerFile .empty).addFile ⟨none, true, ["p", "c"]⟩ .empty) :=
    .write (.write (.addProject (.empty _) "p" none single_p) rfl) rfl
  have hcontains : ((bareProject.addFile innerFile .empty).addFile ⟨none, true, ["p", "c"]⟩
      .empty).projects.contains "p" := rfl
  refine ⟨_, hgrown, (isTree_iff hgrown).1.mpr ⟨fun path hpath ↦ ⟨"p", hcontains, ?_⟩, ?_⟩⟩
  · revert path
    decide +kernel
  · decide +kernel

/-- A file that is written below another one lies in no folder, and both are written. -/
theorem file_below_file : ∃ m m' : Memory, Grown [innerFile, noteFile] m' ∧
    bareProject.write noteFile .empty = .ok m ∧ m.write innerFile .empty = .ok m' ∧
    ¬ (Workspace.memory m').IsTree := by
  refine ⟨_, _, .write (.write (.addProject (.empty _) "p" none single_p) rfl) rfl, rfl, rfl, fun htree ↦ ?_⟩
  have hcontainer := htree innerFile (by decide +kernel) (by decide)
  exact absurd hcontainer (by decide +kernel)

end Memory

end Buildpath
