import Buildpath.Proofs.Path
import Buildpath.Proofs.Resource.Saved
import Buildpath.Proofs.Resource.Stamps

/-!
# Files of other projects

A file that is written to a workspace in memory leaves what other paths hold as it is, apart from folders
that are made above the file (`Memory.find?_write`). So a saved project file leaves the files of the projects
alone that have other paths (`ProjectFile.save_apart`).
-/

namespace Buildpath

/-! ### Workspaces in memory -/

namespace Memory

variable {m m' : Memory} {path other : Path} {contents : ByteArray}

private theorem mem_foldersFrom {n : Nat} {start folder : Path} (h : start.segmentCount < n) :
    folder ∈ foldersFrom false n start ↔ folder.isPrefixOf start ∧ 2 ≤ folder.segmentCount := by
  induction n generalizing start with
  | zero => exact absurd h (Nat.not_lt_zero _)
  | succ n ih =>
    rw [foldersFrom]
    split
    · next hflat =>
      have hlt : start.segmentCount < 2 := by simp at hflat; omega
      refine iff_of_false List.not_mem_nil ?_
      rintro ⟨hbelow, htwo⟩
      have hle := Path.segmentCount_le hbelow
      omega
    · next hdeep =>
      have htwo : 2 ≤ start.segmentCount := by simp at hdeep; omega
      have hcount := start.segmentCount_dropLast
      rw [List.mem_cons, ih (by omega)]
      constructor
      · rintro (rfl | ⟨hbelow, h⟩)
        · exact ⟨Path.isPrefixOf_refl _, htwo⟩
        · exact ⟨Path.isPrefixOf_trans hbelow (start.isPrefixOf_dropLast 1), h⟩
      · rintro ⟨hbelow, h⟩
        rcases Nat.lt_or_eq_of_le (Path.segmentCount_le hbelow) with hlt | heq
        · exact .inr ⟨Path.isPrefixOf_of_le hbelow (start.isPrefixOf_dropLast 1) (by omega), h⟩
        · exact .inl (Path.eq_of_isPrefixOf hbelow heq)

/-- The folders that a resource of the workspace needs are those above it that lie below a project. -/
theorem mem_foldersAbove {folder : Path} :
    folder ∈ foldersAbove false path ↔ folder.isPrefixOf (path.dropLast 1) ∧ 2 ≤ folder.segmentCount := by
  rw [foldersAbove, Path.parent?]
  by_cases hempty : path.segments.isEmpty
  · rw [if_pos hempty]
    refine iff_of_false List.not_mem_nil ?_
    rintro ⟨hbelow, htwo⟩
    have hle := Path.segmentCount_le (Path.isPrefixOf_trans hbelow (path.isPrefixOf_dropLast 1))
    have hzero : path.segmentCount = 0 := by simpa [Path.segmentCount] using hempty
    omega
  · rw [if_neg hempty]
    exact mem_foldersFrom (Nat.lt_succ_self _)

/-- Making folders puts a folder at a path at most, if nothing is there and something is to be put below. -/
theorem find?_ensureFolders (m : Memory) (path other : Path) :
    (m.ensureFolders false path).resources.find? other = m.resources.find? other ∨
      m.resources.find? other = none ∧ other.isPrefixOf (path.dropLast 1) ∧
        ∃ stamp, (m.ensureFolders false path).resources.find? other =
          some { kind := .folder, stamp } := by
  obtain ⟨hsame, -⟩ | ⟨hnone, hmem, stamp, -, -, hfolder⟩ := m.ensureFolders_cases path other
  · exact .inl hsame
  · exact .inr ⟨hnone, (mem_foldersAbove.mp hmem).1, stamp, hfolder⟩

/-- Writing a file leaves what other paths hold as it is, apart from folders that are made above the file. -/
theorem find?_write (h : m.write path contents = .ok m') (hne : path ≠ other) :
    m'.resources.find? other = m.resources.find? other ∨
      m.resources.find? other = none ∧ other.isPrefixOf (path.dropLast 1) ∧
        ∃ stamp, m'.resources.find? other = some { kind := .folder, stamp } := by
  rw [write] at h
  split at h
  · cases h
  · split at h
    · cases h
    · obtain rfl := Except.ok.inj h
      have hput : (m.putFile false path contents).resources.find? other =
          (m.ensureFolders false path).resources.find? other :=
        (Table.find?_insert _ path other _).trans (if_neg hne)
      rw [hput]
      exact m.find?_ensureFolders path other

end Memory

/-- Writing a file of a workspace in memory. -/
theorem Workspace.write_memory {memory : Memory} {w : Workspace} {path : Path} {contents : ByteArray}
    (h : (Workspace.memory memory).write path contents = .ok w) :
    ∃ memory', memory.write path contents = .ok memory' ∧ Workspace.memory memory' = w :=
  map_eq_ok.mp h

/-- Writing a file leaves the projects and what is read at other paths as they are, and it makes nothing at other
paths but folders above the file. -/
theorem Workspace.write_apart {memory : Memory} {w : Workspace} {path other : Path} {contents : ByteArray}
    (h : (Workspace.memory memory).write path contents = .ok w) (hne : path ≠ other) :
    w.projectExists = (Workspace.memory memory).projectExists ∧
      w.read other = (Workspace.memory memory).read other ∧
      ((Workspace.memory memory).hasResource other ∨ ¬ other.isPrefixOf (path.dropLast 1) →
        w.hasResource other = (Workspace.memory memory).hasResource other) := by
  obtain ⟨memory', hwritten, rfl⟩ := write_memory h
  refine ⟨congrArg Table.contains (Memory.write_eq_ok hwritten).1, ?_⟩
  change Memory.readFrom memory'.resources other = Memory.readFrom memory.resources other ∧
    (((memory.resources.find? other).map Resource.kind).isSome ∨ _ →
      ((memory'.resources.find? other).map Resource.kind).isSome =
        ((memory.resources.find? other).map Resource.kind).isSome)
  rw [Memory.readFrom, Memory.readFrom]
  rcases Memory.find?_write hwritten hne with hsame | ⟨hnone, habove, stamp, hfolder⟩
  · rw [hsame]
    exact ⟨rfl, fun _ ↦ rfl⟩
  · rw [hnone, hfolder]
    exact ⟨rfl, fun h ↦ h.elim Bool.false_ne_true.elim (absurd habove)⟩

/-! ### Project files -/

/-- The path of a project is in normal form. -/
theorem canonical_projectPath (project : String) : (projectPath project).Canonical :=
  Path.canonical_append ⟨0, [], rfl, fun _ ↦ rfl, nofun⟩ (Path.canonical_parse project)

/-- The path of a project file is that of the project with one more segment. -/
theorem projectFilePath_eq (project : String) :
    projectFilePath project = { projectPath project with
      segments := (projectPath project).segments ++ [".buildpath"] } := by
  have hcanonical := canonical_projectPath project
  have hname : (Path.parse ".buildpath").segments = [".buildpath"] := by decide +kernel
  rw [projectFilePath, Path.appendText, Path.append, hname]
  generalize projectPath project = path at hcanonical ⊢
  have happended : Path.Canonical { path with segments := path.segments ++ [".buildpath"] } := by
    obtain ⟨ups, names, hsegments, hups, hnames⟩ := hcanonical
    refine ⟨ups, names ++ [".buildpath"], by rw [hsegments, List.append_assoc], hups, ?_⟩
    intro name hname
    rcases List.mem_append.mp hname with hname | hname
    · exact hnames name hname
    · obtain rfl := List.mem_singleton.mp hname
      exact ⟨by decide, by decide, by decide, by decide, by decide⟩
  rw [Path.canonicalSegments_of_canonical happended]

theorem projectFilePath_ne {project other : String} (h : projectPath project ≠ projectPath other) :
    projectFilePath project ≠ projectFilePath other := by
  rw [projectFilePath_eq, projectFilePath_eq]
  intro heq
  have hdevice := congrArg Path.device heq
  have habsolute := congrArg Path.absolute heq
  have hsegments := List.append_cancel_right (congrArg Path.segments heq)
  generalize projectPath project = path at *
  generalize projectPath other = path' at *
  cases path
  cases path'
  cases hdevice
  cases habsolute
  cases hsegments
  exact h rfl

/-- The folder of a project file is the project. -/
theorem dropLast_projectFilePath (project : String) :
    (projectFilePath project).dropLast 1 = projectPath project := by
  rw [projectFilePath_eq]
  generalize projectPath project = path
  simp [Path.dropLast]

/-- Saving the file of a project leaves the projects and what the files of projects at other paths hold as they
are. Only a file that is not there and that lies above the saved one comes to be a folder. -/
theorem ProjectFile.save_apart {memory : Memory} {w : Workspace} {project other : String} {es : List Entry}
    {isWritten : Bool} (h : save (.memory memory) project es = .ok (isWritten, w))
    (hne : projectPath project ≠ projectPath other) :
    w.projectExists = (Workspace.memory memory).projectExists ∧
      w.read (projectFilePath other) = (Workspace.memory memory).read (projectFilePath other) ∧
      ((Workspace.memory memory).hasResource (projectFilePath other) ∨
        ¬ (projectFilePath other).isPrefixOf (projectPath project) →
          load w other = load (.memory memory) other) := by
  obtain ⟨-, rfl⟩ | ⟨-, hwrite⟩ := save_eq_ok h
  · exact ⟨rfl, rfl, fun _ ↦ rfl⟩
  · obtain ⟨hexists, hread, hresource⟩ := Workspace.write_apart hwrite (projectFilePath_ne hne)
    rw [dropLast_projectFilePath] at hresource
    exact ⟨hexists, hread, fun h ↦ by rw [load, load, hread, hresource h]⟩

end Buildpath
