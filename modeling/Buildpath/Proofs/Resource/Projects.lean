import Buildpath.Proofs.Resource.Places

/-!
# The projects of a workspace

A workspace has no more projects than walks through it are allowed to nest
(`Workspace.exists_projectPaths`): they are resources at the ends of paths.
-/

namespace Buildpath

namespace Workspace

/-- In a directory, only paths of one name lead to projects. -/
private theorem ne_root_of_project {d : Directory} {path : Path} (h : d.kind? path = some .project) :
    path.segments ≠ [] := by
  intro hroot
  have hnone : d.filePath? path = none := by
    rw [Directory.filePath?, if_pos (by simp [hroot])]
  rw [Directory.kind?, hnone] at h
  cases h

/-- There are no more projects than there may be paths to resources. -/
theorem exists_projectPaths (w : Workspace) : ∃ paths : List Path, paths.length ≤ w.pathBound ∧
    ∀ path : Path, path.InWorkspace → w.kind? path = some .project → path ∈ paths := by
  cases w with
  | memory m =>
    refine ⟨m.resources.keys, ?_, fun path _ h ↦ ?_⟩
    · rw [Table.keys, List.length_map]
      exact Nat.le_add_right _ _
    · obtain ⟨resource, hfind, -⟩ := Option.map_eq_some_iff.mp h
      exact (Table.mem_keys _ _).mpr (Option.isSome_of_eq_some hfind)
  | directory d =>
    obtain ⟨paths, hlength, hpaths⟩ := (directory d).exists_paths false none
    exact ⟨paths, hlength, fun path hp h ↦ hpaths path hp.canonical hp.absolute hp.device
      (ne_root_of_project h) (Option.isSome_of_eq_some h)⟩

end Workspace

end Buildpath
