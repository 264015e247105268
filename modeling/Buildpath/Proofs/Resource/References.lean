import Buildpath.Proofs.Resource.Saved

/-!
# References of projects

References can be set for each project that exists. Setting those of one project leaves the others alone,
and so does writing files.
-/

namespace Buildpath

namespace Workspace

variable {w w' : Workspace} {name : String} {names : List String}

theorem exists_setReferences (h : w.projectExists name) (names : List String) :
    ∃ w', w.setReferences name names = .ok w' := by
  cases w with
  | memory m =>
    obtain ⟨record, hrecord⟩ := Option.isSome_iff_exists.mp h
    refine ⟨memory { m with projects := m.projects.insert name { record with references := names } }, ?_⟩
    rw [setReferences, Memory.setReferences, hrecord]
    rfl
  | directory d =>
    refine ⟨directory { d with references := d.references.insert name names }, ?_⟩
    rw [setReferences, Directory.setReferences, if_pos (show d.projectExists name from h)]
    rfl

/-- References that were set are those of the project; other projects keep theirs. -/
theorem references_setReferences (h : w.setReferences name names = .ok w') (other : String) :
    w'.references other = if name = other then names else w.references other := by
  cases w with
  | memory m =>
    obtain ⟨m', hset, rfl⟩ := map_eq_ok.mp h
    rw [Memory.setReferences] at hset
    split at hset
    · cases hset
    · obtain rfl := Except.ok.inj hset
      rw [references, Table.find?_insert]
      split <;> rfl
  | directory d =>
    obtain ⟨d', hset, rfl⟩ := map_eq_ok.mp h
    rw [Directory.setReferences] at hset
    split at hset
    · obtain rfl := Except.ok.inj hset
      rw [references, Table.find?_insert]
      split <;> rfl
    · cases hset

/-- Writing a file keeps references. -/
theorem references_write {path : Path} {contents : ByteArray} (h : w.write path contents = .ok w')
    (project : String) : w'.references project = w.references project := by
  cases w with
  | memory m =>
    obtain ⟨m', hwrite, rfl⟩ := map_eq_ok.mp h
    rw [references, references, (Memory.write_eq_ok hwrite).1]
  | directory d =>
    obtain ⟨d', hwrite, rfl⟩ := map_eq_ok.mp h
    obtain ⟨_, -, hwrite⟩ := bind_eq_ok.mp hwrite
    obtain ⟨_, -, hwrite⟩ := bind_eq_ok.mp hwrite
    obtain ⟨_, -, hwrite⟩ := bind_eq_ok.mp hwrite
    rw [← Except.ok.inj hwrite]
    rfl

end Workspace

/-- Saving a project file keeps references. -/
theorem ProjectFile.references_save {w w' : Workspace} {project : String} {es : List Entry} {isWritten : Bool}
    (h : save w project es = .ok (isWritten, w')) (q : String) : w'.references q = w.references q := by
  obtain ⟨-, rfl⟩ | ⟨-, hwrite⟩ := save_eq_ok h
  · rfl
  · exact Workspace.references_write hwrite q

end Buildpath
