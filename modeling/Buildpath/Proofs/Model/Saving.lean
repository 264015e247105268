import Buildpath.Proofs.Model.Frames
import Buildpath.Proofs.Model.Runs
import Buildpath.Proofs.Resource.Saved

/-!
# Saving raw buildpaths

Replacing the raw buildpath of a project writes the project file after everything else; until then no
file changes, whatever the initializers of containers do. So what is read back depends on the entries
and on the foreign content of the file only (`setRawBuildpath_reads_back`).
-/

namespace Buildpath

/-- Whether two models have the same files and projects. -/
def Model.SameFiles (m m' : Model) : Prop := m'.workspace.files = m.workspace.files

instance : OpenFrame Model.SameFiles where
  refl _ := rfl
  trans h h' := h'.trans h
  volatile _ _ _ _ _ := rfl
  caches _ _ _ _ _ _ _ := rfl
  clearRoots _ := rfl
  cells _ _ _ := rfl
  noted _ _ := rfl
  issued _ _ := rfl
  resolving _ _ _ h := h

instance : Deaf Model.SameFiles where
  announced _ _ _ := rfl
  references _ _ _ _ h := Workspace.files_setReferences h

/-- A raw buildpath that is not remembered comes from the files. -/
theorem Model.raw_of_files {m m' : Model} {project : String}
    (hfiles : m'.workspace.files = m.workspace.files)
    (hraw : (m'.cell project).raw = (m.cell project).raw) : m'.raw project = m.raw project := by
  rw [raw, raw, hraw, fileRaw, fileRaw, ProjectFile.load_of_files hfiles]

namespace ModelM

variable {R : Model → Model → Prop} {m m' : Model} {project : String} {es : List Entry}
  {g : GeneratedDelta}

/-- Looks at a project before its raw buildpath is replaced: its fragments, if they are known. -/
def inspect (project : String) : ModelM (Option (List Fragment)) := do
  flushMarkers project false false
  let _ ← loadRaw project
  let _ ← (resolution project).run
  knownFragments project

/-- Replaces the entries of the raw buildpath that is remembered for a project. -/
def replaceEntries (project : String) (entries : List Entry) (fragments : Option (List Fragment)) :
    ModelM Change := do
  let resolved := (← cell project).issued?
  let change ← changeBy project (·.setRaw entries) fragments resolved
  modify Model.clearRoots
  return change

/-- Replaces the raw buildpath of a project in the model, before its file is written. -/
def replaceRaw (project : String) (entries : List Entry) (saves : Bool) : ModelM GeneratedDelta := do
  applyChange (← replaceEntries project entries (← inspect project)) saves

/-- The steps of saving a raw buildpath. -/
theorem setRawBuildpath_eq (project : String) (entries : List Entry) :
    setRawBuildpath project entries true =
      holding [.project project, .externalFolders] (verify project entries >>= fun _ ↦
        monadLift (replaceRaw project entries true) >>= fun g ↦
        saveFile project entries >>= fun _ ↦ pure g) := by
  rfl

theorem moves_inspect [OpenFrame R] (hres : ∀ project, Action.Moves R (resolution project))
    (project : String) : (inspect project).Moves R :=
  .bind (moves_flushMarkers _ _ _) fun _ ↦ .bind (moves_loadRaw _) fun _ ↦
    .bind (hres project) fun _ ↦ moves_knownFragments hres project

theorem moves_replaceEntries [OpenFrame R] (project : String) (entries : List Entry)
    (fragments : Option (List Fragment)) : (replaceEntries project entries fragments).Moves R :=
  .bind (moves_cell project) fun _ ↦
    .bind (.bind (moves_cell project) fun _ ↦ .bind (moves_modifyCell project _) fun _ ↦ .pure _)
      fun _ ↦ .bind (.modify fun m ↦ Ground.clearRoots m) fun _ ↦ .pure _

theorem moves_replaceRaw [OpenFrame R] [Deaf R]
    (hres : ∀ project, Action.Moves R (resolution project))
    (hreset : ∀ (m : Model) path project, R m { m with registry := m.registry.reset path project })
    (project : String) (entries : List Entry) (saves : Bool) :
    (replaceRaw project entries saves).Moves R :=
  .bind (moves_inspect hres project) fun fragments ↦
    .bind (moves_replaceEntries project entries fragments) fun change ↦
    moves_applyChange hres hreset change saves

/-- Replacing a raw buildpath in the model changes no file. -/
theorem files_replaceRaw (m : Model) (project : String) (entries : List Entry) (saves : Bool) :
    m.SameFiles ((replaceRaw project entries saves).run m).2 :=
  moves_replaceRaw (R := Model.SameFiles)
    (moves_resolutionBy (moves_findContainer fun _ _ ↦ rfl)) (fun _ _ _ ↦ rfl) project entries saves m

/-- What saving a raw buildpath comes to: the project exists and the buildpath is valid; it is replaced in
the model, and its file is saved. -/
theorem setRawBuildpath_eq_ok : (setRawBuildpath project es true).runOn m = (.ok g, m') ↔
    m.workspace.projectExists project ∧ validate (projectPath project) es = .ok () ∧ ∃ m₁ m₂,
      (replaceRaw project es true).run
        { m with held := (m.held.acquire [.project project, .externalFolders]).2 } = (g, m₁) ∧
      (saveFile project es).runOn m₁ = (.ok (), m₂) ∧ m' =
        { m₂ with held := m₂.held.release (m.held.acquire [.project project, .externalFolders]).1 } := by
  rw [setRawBuildpath_eq, holding_eq]
  constructor
  · rintro ⟨m₂, hact, rfl⟩
    obtain ⟨⟨⟩, _, hverify, hact⟩ := Action.bind_eq_ok.mp hact
    obtain ⟨g', m₁, hreplace, hact⟩ := Action.bind_eq_ok.mp hact
    obtain ⟨⟨⟩, _, hsave, hact⟩ := Action.bind_eq_ok.mp hact
    cases hact
    obtain ⟨rfl, hexists, hvalid⟩ := verify_eq_ok.mp hverify
    cases hreplace
    exact ⟨hexists, hvalid, _, m₂, rfl, hsave, rfl⟩
  · rintro ⟨hexists, hvalid, m₁, m₂, hreplace, hsave, rfl⟩
    refine ⟨m₂, Action.bind_eq_ok.mpr ⟨(), _, verify_eq_ok.mpr ⟨rfl, hexists, hvalid⟩, ?_⟩, rfl⟩
    refine Action.bind_eq_ok.mpr ⟨g, m₁, ?_, Action.bind_eq_ok.mpr ⟨(), m₂, hsave, rfl⟩⟩
    rw [Action.runOn_lift, hreplace]

private theorem steps_cases (m : Model) (project : String) (es : List Entry) :
    let m₂ := ((verify project es >>= fun _ ↦ monadLift (replaceRaw project es true) >>= fun g ↦
      saveFile project es >>= fun _ ↦ pure g : Action GeneratedDelta).runOn m).2
    m₂ = m ∨ m.workspace.projectExists project ∧ (m₂ = ((replaceRaw project es true).run m).2 ∨
      (saveFile project es).runOn ((replaceRaw project es true).run m).2 = (.ok (), m₂)) := by
  dsimp only
  have hunchanged := verify_runOn m project es
  rw [Action.bind_runOn]
  rcases hverify : (verify project es).runOn m with ⟨failure | ⟨⟩, m₀⟩
  · rw [hverify] at hunchanged
    exact .inl hunchanged
  · obtain ⟨rfl, hexists, -⟩ := verify_eq_ok.mp hverify
    refine .inr ⟨hexists, ?_⟩
    dsimp only
    rw [Action.bind_runOn, Action.runOn_lift]
    dsimp only
    rw [Action.bind_runOn]
    rcases saveFile_cases ((replaceRaw project es true).run m₀).2 project es with
      ⟨failure, hsave⟩ | ⟨m₂, hsave⟩
    · rw [hsave]
      exact .inl rfl
    · rw [hsave]
      exact .inr rfl

/-- Where saving a raw buildpath leads, whether it succeeds or not: nothing changes, or the raw buildpath is
replaced in the model, and its file is saved if that is possible. -/
theorem setRawBuildpath_cases (m : Model) (project : String) (es : List Entry) :
    ∃ (begun m₂ : Model) (held : HeldRules),
      begun = { m with held := (m.held.acquire [.project project, .externalFolders]).2 } ∧
      ((setRawBuildpath project es true).runOn m).2 = { m₂ with held } ∧
      (m₂ = begun ∨ m.workspace.projectExists project ∧
        (m₂ = ((replaceRaw project es true).run begun).2 ∨
          (saveFile project es).runOn ((replaceRaw project es true).run begun).2 = (.ok (), m₂))) := by
  rw [setRawBuildpath_eq, holding_runOn]
  exact ⟨_, _, _, rfl, rfl, steps_cases _ project es⟩

/-- A raw buildpath is saved to a workspace with the same files. -/
theorem save_of_setRawBuildpath (h : (setRawBuildpath project es true).runOn m = (.ok g, m')) :
    ∃ w isWritten, w.files = m.workspace.files ∧
      ProjectFile.save w project es = .ok (isWritten, m'.workspace) := by
  obtain ⟨-, -, m₁, m₂, hreplace, hsave, rfl⟩ := setRawBuildpath_eq_ok.mp h
  have hfiles := files_replaceRaw
    { m with held := (m.held.acquire [.project project, .externalFolders]).2 } project es true
  rw [hreplace] at hfiles
  obtain ⟨isWritten, w, hsaved, rfl⟩ := saveFile_eq_ok hsave
  exact ⟨m₁.workspace, isWritten, hfiles, hsaved⟩

/-- The project of a saved buildpath exists afterwards. -/
theorem projectExists_of_setRawBuildpath
    (h : (setRawBuildpath project es true).runOn m = (.ok g, m')) :
    m'.workspace.projectExists project := by
  obtain ⟨w, isWritten, hfiles, hsave⟩ := save_of_setRawBuildpath h
  refine (Workspace.Saves.of_save hsave).projects.1 project ?_
  rw [← Workspace.projectExists_files, hfiles, Workspace.projectExists_files]
  exact (setRawBuildpath_eq_ok.mp h).1

/-- A valid raw buildpath is saved if its file can be. -/
private theorem setRawBuildpath_succeeds (hexists : m.workspace.projectExists project)
    (hvalid : validate (projectPath project) es = .ok ())
    (hsave : ∀ w : Workspace, w.files = m.workspace.files → ∃ r, ProjectFile.save w project es = .ok r) :
    ∃ (g : GeneratedDelta) (m' : Model), (setRawBuildpath project es true).runOn m = (.ok g, m') := by
  obtain ⟨⟨isWritten, w⟩, hsaved⟩ := hsave _ (files_replaceRaw
    { m with held := (m.held.acquire [.project project, .externalFolders]).2 } project es true)
  exact ⟨_, _, setRawBuildpath_eq_ok.mpr ⟨hexists, hvalid, _, _, rfl, saveFile_runOn hsaved, rfl⟩⟩

/-- A raw buildpath that was saved can be saved again. -/
theorem setRawBuildpath_succeeds_again
    (h : (setRawBuildpath project es true).runOn m = (.ok g, m')) :
    ∃ (g' : GeneratedDelta) (m'' : Model),
      (setRawBuildpath project es true).runOn m' = (.ok g', m'') := by
  obtain ⟨w, isWritten, -, hsave⟩ := save_of_setRawBuildpath h
  exact setRawBuildpath_succeeds (projectExists_of_setRawBuildpath h) (setRawBuildpath_eq_ok.mp h).2.1
    fun _ hfiles ↦ ProjectFile.save_again hsave hfiles

/-- Any valid raw buildpath can be saved after one that was written. -/
theorem setRawBuildpath_succeeds_after {m₁ : Model} {es' : List Entry}
    (h : (setRawBuildpath project es true).runOn m = (.ok g, m'))
    (hlacks : ¬ (ProjectFile.load m.workspace project).holds es)
    (hvalid : validate (projectPath project) es' = .ok ()) (hw : m₁.workspace = m'.workspace) :
    ∃ (g' : GeneratedDelta) (m'' : Model),
      (setRawBuildpath project es' true).runOn m₁ = (.ok g', m'') := by
  obtain ⟨w, isWritten, hfiles, hsave⟩ := save_of_setRawBuildpath h
  have hload : ProjectFile.load w project = ProjectFile.load m.workspace project := by
    rw [← ProjectFile.load_files w, hfiles, ProjectFile.load_files]
  obtain ⟨hholds, -⟩ | ⟨-, hwrite⟩ := ProjectFile.save_eq_ok hsave
  · exact absurd (hload ▸ hholds) hlacks
  · exact setRawBuildpath_succeeds (hw ▸ projectExists_of_setRawBuildpath h) hvalid
      fun _ hfiles ↦ ProjectFile.save_of_write hwrite (hw ▸ hfiles)

/-! ### Reading a saved buildpath -/

theorem readRawBuildpath_runOn (hexists : m.workspace.projectExists project) :
    (readRawBuildpath project).runOn m =
      (match (ProjectFile.load m.workspace project).problem? with
        | some problem => throw (.status problem)
        | none => return (ProjectFile.load m.workspace project).entries (projectPath project) :
          Action (List Entry)).runOn m := by
  rw [readRawBuildpath, Action.bind_runOn, requireProject_runOn hexists]
  rfl

/-- What is read from a project file. -/
theorem readRawBuildpath_eq_ok (hexists : m.workspace.projectExists project) :
    ((readRawBuildpath project).runOn m).1 = .ok es ↔
      (ProjectFile.load m.workspace project).problem? = none ∧
        (ProjectFile.load m.workspace project).entries (projectPath project) = es := by
  rw [readRawBuildpath_runOn hexists]
  cases (ProjectFile.load m.workspace project).problem? with
  | some problem => exact iff_of_false (fun h ↦ by cases h) fun h ↦ absurd h.1 (Option.some_ne_none _)
  | none => exact ⟨fun h ↦ ⟨rfl, Except.ok.inj h⟩, fun h ↦ congrArg Except.ok h.2⟩

/-- What a model that does not know of a project shows of a project file that holds a document. -/
theorem rawBuildpath_runOn {d : Document} (hexists : m.workspace.projectExists project)
    (hcells : m.cells = .empty) (hload : ProjectFile.load m.workspace project = .valid d) :
    ((rawBuildpath project).runOn m).1 = .ok d.entries := by
  have hraw : m.raw project = m.fileRaw project := by
    rw [Model.raw, Model.cell, hcells]
    rfl
  obtain ⟨cells, hrun, -⟩ := loadRaw_run m project
  have hread : (rawBuildpath project).runOn m = (.ok d.entries, { m with cells }) := by
    refine Action.bind_eq_ok.mpr ⟨(), m, requireProject_runOn hexists, ?_⟩
    refine Action.bind_eq_ok.mpr ⟨m.raw project, { m with cells }, ?_, ?_⟩
    · rw [Action.runOn_lift, hrun]
    · rw [hraw, Model.fileRaw, hload]
      rfl
  rw [hread]

/-- What the project file holds after a raw buildpath was saved: what it held, if that was the raw
buildpath already, or the document that was written. -/
theorem load_of_setRawBuildpath (hp : HasPlainName project)
    (h : (setRawBuildpath project es true).runOn m = (.ok g, m')) :
    (ProjectFile.load m.workspace project).holds es ∧
        ProjectFile.load m'.workspace project = ProjectFile.load m.workspace project ∨
      ¬ (ProjectFile.load m.workspace project).holds es ∧
        ProjectFile.load m'.workspace project = ProjectFile.ofBytes project
          (Document.encode (projectPath project)
            { entries := es, foreign := (ProjectFile.load m.workspace project).foreign }).toUTF8 := by
  obtain ⟨w, isWritten, hfiles, hsave⟩ := save_of_setRawBuildpath h
  have hload : ProjectFile.load w project = ProjectFile.load m.workspace project := by
    rw [← ProjectFile.load_files w, hfiles, ProjectFile.load_files]
  rw [← hload]
  obtain ⟨hholds, hw⟩ | ⟨hlacks, hwrite⟩ := ProjectFile.save_eq_ok hsave
  · exact .inl ⟨hholds, congrArg (ProjectFile.load · project) hw⟩
  · exact .inr ⟨hlacks, ProjectFile.load_of_write hwrite hp⟩

/-- There is a project file after a raw buildpath was saved. -/
theorem load_ne_missing (hp : HasPlainName project)
    (h : (setRawBuildpath project es true).runOn m = (.ok g, m')) :
    ProjectFile.load m'.workspace project ≠ .missing := by
  intro hmissing
  obtain ⟨hholds, hsame⟩ | ⟨-, hwritten⟩ := load_of_setRawBuildpath hp h
  · rw [← hsame, hmissing] at hholds
    cases hholds
  · rw [hmissing, ProjectFile.ofBytes_toUTF8] at hwritten
    split at hwritten <;> cases hwritten

/-- The project file holds a raw buildpath after it was saved exactly if it held it before, or its
entries survive and the foreign content of the file is independent. -/
theorem holds_of_setRawBuildpath (hp : HasPlainName project)
    (h : (setRawBuildpath project es true).runOn m = (.ok g, m')) :
    (∃ d, ProjectFile.load m'.workspace project = .valid d ∧ d.entries = es) ↔
      (ProjectFile.load m.workspace project).holds es ∨
        (∀ e ∈ es, e.Survives (projectPath project)) ∧
          (ProjectFile.load m.workspace project).foreign.Independent es := by
  obtain ⟨hholds, hsame⟩ | ⟨hlacks, hwritten⟩ := load_of_setRawBuildpath hp h
  · exact iff_of_true (hsame ▸ ProjectFile.holds_eq_true.mp hholds) (.inl hholds)
  · rw [hwritten, or_iff_right hlacks]
    exact ProjectFile.ofBytes_encode (ProjectFile.kept_foreign m.workspace project)

/-- A workspace in memory with one project `p`. -/
def onlyProject : Model := { workspace := .memory (Memory.addProject {} "p" (some defaultNature)) }

theorem hasPlainName_p : HasPlainName "p" := by
  unfold HasPlainName
  decide

end ModelM

end Buildpath
