import Buildpath.Proofs.Document.Format
import Buildpath.Proofs.Resource.Written

/-!
# Saved project files

What a project file holds after entries were saved in it: the entries, if they survive being written
and the foreign content of the file needs nothing that surrounded it.
-/

namespace Buildpath

theorem Text.decodeUtf8_toUTF8 (text : String) : Text.decodeUtf8 text.toUTF8 = .ok text := by
  rw [decodeUtf8, String.toUTF8_eq_toByteArray, String.fromUTF8?, dif_pos text.isValidUTF8]
  rfl

/-- The path of a project that is one segment, its name. -/
def HasPlainName (project : String) : Prop := projectPath project = ⟨none, true, [project]⟩

namespace Path

private theorem ordinary_of_mem_canonicalSegments {parts : List String} {segment : String}
    (h : segment ∈ canonicalSegments true parts) :
    segment ≠ "" ∧ segment ≠ "." ∧ segment ≠ parentSegment := by
  have pushed : ∀ (parts stack : List String),
      (∀ s ∈ stack, s ≠ "" ∧ s ≠ "." ∧ s ≠ parentSegment) →
        ∀ s ∈ parts.foldl (pushSegment true) stack, s ≠ "" ∧ s ≠ "." ∧ s ≠ parentSegment := by
    intro parts
    induction parts with
    | nil => exact fun stack hstack ↦ hstack
    | cons part parts ih =>
      refine fun stack hstack ↦ ih _ fun s hs ↦ ?_
      unfold pushSegment at hs
      split at hs
      · exact hstack s hs
      next hpart =>
      split at hs
      · split at hs
        · cases hs
        · next last rest =>
          split at hs
          · exact hstack s (List.mem_cons_of_mem last hs)
          · exact hstack s hs
      · next hparent =>
        rcases List.mem_cons.mp hs with rfl | hs
        · exact ⟨fun he ↦ hpart (.inl he), fun he ↦ hpart (.inr he), hparent⟩
        · exact hstack s hs
  exact pushed parts [] nofun segment (List.mem_reverse.mp h)

end Path

/-- The file of a project with a plain name lies in the project. -/
theorem segmentCount_projectFilePath {project : String} (hp : HasPlainName project) :
    (projectFilePath project).segmentCount ≠ 1 := by
  unfold HasPlainName at hp
  have hmem : project ∈ Path.canonicalSegments true (Path.parse project).segments := by
    have hsegments : (projectPath project).segments =
        Path.canonicalSegments true (Path.parse project).segments := by
      simp only [projectPath, Path.appendText, Path.append, Path.root, List.nil_append]
    rw [← hsegments, hp]
    exact List.mem_singleton_self project
  obtain ⟨hempty, hdot, hparent⟩ := Path.ordinary_of_mem_canonicalSegments hmem
  have hsegments : (projectFilePath project).segments =
      Path.canonicalSegments true ([project] ++ [".buildpath"]) := by
    have hname : (Path.parse ".buildpath").segments = [".buildpath"] := by decide
    simp only [projectFilePath, hp, Path.appendText, Path.append, hname]
  -- the name of the project is kept, and so is what is appended to it
  have hpush : Path.pushSegment true [] project = [project] := by
    rw [Path.pushSegment, if_neg (by simp [hempty, hdot]), if_neg hparent]
  simp only [Path.segmentCount, hsegments, Path.canonicalSegments, List.foldl_append,
    List.foldl_cons, List.foldl_nil, hpush]
  exact (by decide : (2 : Nat) ≠ 1)

namespace ProjectFile

variable {w w' w'' : Workspace} {project : String} {es : List Entry} {isWritten : Bool}

/-- The foreign content of a project file is as it was found in a document. -/
theorem kept_foreign (w : Workspace) (project : String) : (load w project).foreign.Kept := by
  unfold load
  dsimp only
  split
  · exact kept_nil
  · split
    · exact kept_nil
    · unfold ofBytes
      split
      · exact kept_nil
      · split
        · exact kept_nil
        · next hd => exact kept_of_decode hd

theorem holds_eq_true {file : ProjectFile} :
    file.holds es ↔ ∃ d, file = .valid d ∧ d.entries = es := by
  cases file with
  | missing => exact iff_of_false nofun nofun
  | invalid problem => exact iff_of_false nofun nofun
  | valid d =>
    constructor
    · exact fun h ↦ ⟨d, rfl, of_decide_eq_true h⟩
    · rintro ⟨_, hd, h⟩
      cases hd
      exact decide_eq_true h

/-- The bytes of a written document hold what the document is read as. -/
theorem ofBytes_toUTF8 (project : String) (text : String) :
    ofBytes project text.toUTF8 =
      match Document.decode (projectPath project) text with
      | .error error => invalid (.invalidFile project error.message)
      | .ok document => valid document := by
  cases h : Document.decode (projectPath project) text <;>
    simp only [ofBytes, Text.decodeUtf8_toUTF8, h]

/-- A document that was written is read with its entries exactly if they survive and the foreign
content is independent. -/
theorem ofBytes_encode {foreign : Foreign} (hk : foreign.Kept) :
    (∃ d, ofBytes project
        (Document.encode (projectPath project) { entries := es, foreign }).toUTF8 = .valid d ∧
      d.entries = es) ↔
    (∀ e ∈ es, e.Survives (projectPath project)) ∧ foreign.Independent es := by
  have hiff : _ ↔ (∀ e ∈ es, e.Survives (projectPath project)) ∧ foreign.Independent es :=
    @decode_encode_entries_iff (projectPath project) { entries := es, foreign } hk
  rw [ofBytes_toUTF8, ← hiff]
  cases Document.decode (projectPath project) _ with
  | error error => exact iff_of_false nofun nofun
  | ok d =>
    constructor
    · rintro ⟨_, hd, hes⟩
      cases hd
      exact ⟨d, rfl, hes⟩
    · rintro ⟨_, hd, hes⟩
      cases hd
      exact ⟨d, rfl, hes⟩

/-- What saving comes to: the file holds the entries already and stays, or it holds the document that was
written. -/
theorem save_eq_ok (h : save w project es = .ok (isWritten, w')) :
    (load w project).holds es ∧ w' = w ∨
      ¬ (load w project).holds es ∧ w.write (projectFilePath project) (Document.encode
        (projectPath project) { entries := es, foreign := (load w project).foreign }).toUTF8 = .ok w' := by
  rw [save] at h
  dsimp only at h
  split at h
  · next hholds =>
    obtain ⟨-, rfl⟩ := Prod.mk.inj (Except.ok.inj h)
    exact .inl ⟨hholds, rfl⟩
  · next hlacks =>
    split at h
    · cases h
    · next hwrite =>
      obtain ⟨-, rfl⟩ := Prod.mk.inj (Except.ok.inj h)
      exact .inr ⟨hlacks, hwrite⟩

/-- The document that was written is what the file holds. -/
theorem load_of_write {bytes : ByteArray} (h : w.write (projectFilePath project) bytes = .ok w')
    (hp : HasPlainName project) : load w' project = ofBytes project bytes := by
  obtain ⟨hresource, hread, -⟩ := Workspace.write_eq_ok h
  rw [load, hresource (segmentCount_projectFilePath hp), hread]
  rfl

private theorem isOk_save_files (w : Workspace) (project : String) (es : List Entry) :
    (save w.files project es).isOk = (save w project es).isOk := by
  have hwrite := w.isOk_write_files (projectFilePath project) (Document.encode (projectPath project)
    { entries := es, foreign := (load w project).foreign }).toUTF8
  rw [save, save, load_files]
  dsimp only
  split
  · rfl
  · revert hwrite
    cases w.files.write _ _ <;> cases w.write _ _ <;> exact id

private theorem save_files (h : (save w project es).isOk) (hfiles : w'.files = w.files) :
    ∃ r, save w' project es = .ok r := by
  rw [← isOk_save_files, ← hfiles, isOk_save_files] at h
  cases hsave : save w' project es with
  | ok r => exact ⟨r, rfl⟩
  | error failure =>
    rw [hsave] at h
    cases h

/-- A file that was written can be saved, also if references were set since. -/
theorem save_of_write {bytes : ByteArray} (h : w.write (projectFilePath project) bytes = .ok w')
    (hfiles : w''.files = w'.files) : ∃ r, save w'' project es = .ok r := by
  refine save_files ?_ hfiles
  rw [save]
  dsimp only
  split
  · rfl
  · obtain ⟨-, -, -, -, hagain⟩ := Workspace.write_eq_ok h
    obtain ⟨w₁, hw₁⟩ := hagain (Document.encode (projectPath project)
      { entries := es, foreign := (load w' project).foreign }).toUTF8
    rw [hw₁]
    rfl

/-- What was saved can be saved again, also if references were set since. -/
theorem save_again (h : save w project es = .ok (isWritten, w')) (hfiles : w''.files = w'.files) :
    ∃ r, save w'' project es = .ok r := by
  obtain ⟨hholds, rfl⟩ | ⟨-, hwrite⟩ := save_eq_ok h
  · refine save_files ?_ hfiles
    rw [save]
    dsimp only
    rw [if_pos hholds]
    rfl
  · exact save_of_write hwrite hfiles

end ProjectFile

namespace Workspace

variable {w w' w'' : Workspace} {project : String}

/-- The workspaces that saving the buildpath of a project leads to: its file is written, and references
are set. -/
inductive Saves (project : String) (w : Workspace) : Workspace → Prop where
  | refl : Saves project w w
  | write {w' w'' : Workspace} {contents : ByteArray} (saves : Saves project w w')
    (written : w'.write (projectFilePath project) contents = .ok w'') : Saves project w w''
  | references {w' w'' : Workspace} {name : String} {names : List String}
    (saves : Saves project w w') (set : w'.setReferences name names = .ok w'') : Saves project w w''

theorem Saves.trans (h : w.Saves project w') (h' : w'.Saves project w'') : w.Saves project w'' := by
  induction h' with
  | refl => exact h
  | write _ hwrite ih => exact .write ih hwrite
  | references _ hset ih => exact .references ih hset

/-- Saving keeps the projects, at their places. -/
theorem Saves.projects (h : w.Saves project w') :
    (∀ name, w.projectExists name → w'.projectExists name) ∧
      ∀ path, w'.location? path = w.location? path := by
  induction h with
  | refl => exact ⟨fun _ h ↦ h, fun _ ↦ rfl⟩
  | write _ hwrite ih =>
    obtain ⟨-, -, hexists, hlocation, -⟩ := write_eq_ok hwrite
    exact ⟨fun name h ↦ hexists name (ih.1 name h), fun path ↦ (hlocation path).trans (ih.2 path)⟩
  | @references w₁ w₂ name names _ hset ih =>
    have hfiles := files_setReferences hset
    refine ⟨fun name h ↦ ?_, fun path ↦ ?_⟩
    · rw [← projectExists_files, hfiles, projectExists_files]
      exact ih.1 name h
    · rw [← location?_files, hfiles, location?_files]
      exact ih.2 path

theorem Saves.of_save {es : List Entry} {isWritten : Bool}
    (h : ProjectFile.save w project es = .ok (isWritten, w')) : w.Saves project w' := by
  obtain ⟨-, rfl⟩ | ⟨-, hwrite⟩ := ProjectFile.save_eq_ok h
  · exact .refl
  · exact .write .refl hwrite

end Workspace

end Buildpath
