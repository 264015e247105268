import Buildpath.Proofs.Model.FileMarkers
import Buildpath.Proofs.Resource.Apart

/-!
# Edits of project files

Others may edit the file of a project while its raw buildpath is asked for and set (`Model.FileRun`). The times
of changes tell an edit from what is remembered of the file (`Memory.Dated`), unless a raw buildpath was saved
since, which remembers the time, too. So an edit that is taken over leaves an unreadable file shown only if the
file cannot be used, and saving leaves shown what was shown (`ModelM.unreadable_file_is_shown`).
-/

namespace Buildpath

/-! ### Times of changes -/

namespace Memory

variable {m m' : Memory} {path : Path} {contents : ByteArray}

theorem Dated.addProject (h : m.Dated) (name : String) (nature : Option String) :
    (m.addProject name nature).Dated :=
  (m.ages_addProject name nature).dated h

/-- A file that is put is younger than all that was there. -/
theorem Dated.addFile (h : m.Dated) (path : Path) (contents : ByteArray) :
    (m.addFile path contents).Dated ∧ m.clock < (m.addFile path contents).clock ∧
      (m.addFile path contents).stamp? path = some (m.addFile path contents).clock := by
  refine ⟨(m.ages_putFile false path contents).dated h, ?_, ?_⟩
  · exact Nat.lt_succ_of_le (m.ages_ensureFolders false path).clock
  · rw [stamp?, find?_addFile, if_pos rfl]
    rfl

theorem Dated.write (h : m.Dated) (hwrite : m.write path contents = .ok m') :
    m'.Dated ∧ m.clock ≤ m'.clock := by
  rcases m.write_cases path contents with heq | heq
  · cases heq.symm.trans hwrite
    exact (h.addFile path contents).imp_right fun hput ↦ Nat.le_of_lt hput.1
  · cases heq.symm.trans hwrite

theorem Dated.remove (h : m.Dated) (path : Path) :
    (m.remove path).Dated ∧ (m.remove path).stamp? path = none := by
  have hself := path.isPrefixOf_refl
  refine ⟨(m.ages_filterKeys _ _).dated h, ?_⟩
  rw [stamp?, find?_remove, if_pos hself]
  rfl

end Memory

variable {m m' m₀ : Model} {project : String} {failure : Failure}

namespace Model

/-! ### Steps that leave files alone -/

/-- The time of the last change of the file of a project. -/
def fileStamp (m : Model) (project : String) : Option Nat :=
  m.workspace.stamp? (projectFilePath project)

/-- Steps that leave files alone. The project stays known, remembers the time of its file only when it is
read for the first time, and takes over no problem but that of its file. -/
structure Heeds (project : String) (m m' : Model) : Prop where
  files : m'.workspace.files = m.workspace.files
  known : (m'.cell project).raw = none → (m.cell project).raw = none
  stamp : (m'.cell project).stamp = (m.cell project).stamp ∨
    (m.cell project).raw = none ∧ (m'.cell project).stamp = m.fileStamp project
  problem : (m'.raw project).formatProblem = none ∨
    (m'.raw project).formatProblem = (m.raw project).formatProblem

theorem fileStamp_of_files (h : m'.workspace.files = m.workspace.files) :
    m'.fileStamp project = m.fileStamp project :=
  Workspace.stamp?_of_files h _

/-- Steps that keep the raw buildpath and the time. -/
theorem Heeds.of_same (hfiles : m'.workspace.files = m.workspace.files)
    (hraw : (m'.cell project).raw = (m.cell project).raw)
    (hstamp : (m'.cell project).stamp = (m.cell project).stamp) : m.Heeds project m' :=
  ⟨hfiles, hraw ▸ id, .inl hstamp, .inr (congrArg _ (raw_of_files hfiles hraw))⟩

private theorem Heeds.of_cells (hfiles : m'.workspace.files = m.workspace.files)
    (hcells : m'.cells = m.cells) : m.Heeds project m' := by
  have hcell : m'.cell project = m.cell project := by rw [cell, hcells, cell]
  exact .of_same hfiles (by rw [hcell]) (by rw [hcell])

private theorem Heeds.setCell {other : String} {c : Cell} (hraw : c.raw = (m.cell other).raw)
    (hstamp : c.stamp = (m.cell other).stamp) : m.Heeds project (m.setCell other c) := by
  have hcell := m.cell_setCell other project c
  by_cases heq : other = project
  · rw [if_pos heq] at hcell
    exact .of_same rfl (by rw [hcell, hraw, heq]) (by rw [hcell, hstamp, heq])
  · rw [if_neg heq] at hcell
    exact .of_same rfl (by rw [hcell]) (by rw [hcell])

private theorem Heeds.trans {m'' : Model} (h : m.Heeds project m') (h' : m'.Heeds project m'') :
    m.Heeds project m'' where
  files := h'.files.trans h.files
  known := h.known ∘ h'.known
  stamp := by
    rcases h'.stamp with hsame | ⟨hnone, hread⟩
    · rw [hsame]
      exact h.stamp
    · exact .inr ⟨h.known hnone, hread.trans (fileStamp_of_files h.files)⟩
  problem := by
    rcases h'.problem with hnone | hsame
    · exact .inl hnone
    · rw [hsame]
      exact h.problem

/-- Putting a cell with a raw buildpath that has no problem, or that of the file. -/
private theorem Heeds.setKnown {other : String} {c : Cell} {raw : RawBuildpath}
    (hraw : c.raw = some raw) (hstamp : c.stamp = (m.cell other).stamp ∨
      (m.cell other).raw = none ∧ c.stamp = m.fileStamp other)
    (hproblem : raw.formatProblem = none ∨ raw.formatProblem = (m.raw other).formatProblem) :
    m.Heeds project (m.setCell other c) := by
  have hcell := m.cell_setCell other project c
  by_cases heq : other = project
  · subst heq
    rw [if_pos rfl] at hcell
    have hset : (m.setCell other c).raw other = raw := by
      rw [Model.raw, hcell, hraw]
      rfl
    refine ⟨rfl, fun hnone ↦ ?_, by rw [hcell]; exact hstamp, by rw [hset]; exact hproblem⟩
    rw [hcell, hraw] at hnone
    cases hnone
  · rw [if_neg heq] at hcell
    exact .of_same rfl (by rw [hcell]) (by rw [hcell])

instance : OperationFrame (fun _ _ ↦ True) (Heeds project) where
  refl _ := .of_cells rfl rfl
  trans := .trans
  volatile _ _ _ _ _ := .of_cells rfl rfl
  touched _ _ := .setCell rfl rfl
  clearRoots m := by
    have hcell := m.cell_clearRoots project
    exact .of_same rfl (by rw [hcell]; rfl) (by rw [hcell]; rfl)
  noted _ _ := .of_cells rfl rfl
  registry _ _ := .of_cells rfl rfl
  issued _ := .of_cells rfl rfl
  fragments _ _ _ := .setCell rfl rfl
  loads m other hnone := .setKnown (m.raw_loaded other) (.inr ⟨hnone, by
    rw [loaded, Cell.storeRaw, hnone]
    rfl⟩) (.inr rfl)
  begins _ _ _ _ _ _ := .setCell rfl rfl
  completes := by
    intro m m' other raw r _ _ _ _ h
    have hbegun : m.Heeds project m' := ⟨h.files, h.known, h.stamp, h.problem⟩
    have hcompleted : m'.Heeds project (m'.setCell other
        ((m'.cell other).complete (m.cell other).generation ⟨m'.issued, r⟩)) := by
      refine .setCell ?_ ?_ <;> rw [Cell.complete] <;> split <;> rfl
    exact hbegun.trans (hcompleted.trans (.of_cells rfl rfl))
  replaces m other entries _ := .setKnown rfl (.inl rfl) (.inl rfl)
  announced _ _ _ := .of_cells rfl rfl
  references _ _ _ _ h := .of_cells (Workspace.files_setReferences h) rfl
  bindsVariables _ _ := .of_cells rfl rfl
  invalidates _ _ := .setCell rfl rfl

/-! ### Invariants -/

/-- What holds of a project in memory whose file may be edited at any time: it is not shown as unreadable before
it was read, and no time is remembered that lies ahead. -/
structure Watched (project : String) (m : Model) : Prop where
  onlyUnbound : m.OnlyUnbound
  tidy : m.markers.Tidy
  unread : (m.cell project).raw = none → m.markers.showsFormat project = false
  dated : ∃ memory, m.workspace = .memory memory ∧ memory.Dated ∧
    ∀ stamp, (m.cell project).stamp = some stamp → stamp ≤ memory.clock

/-- Whether a file that can be used is not shown as unreadable if it was not read or has the time that is
remembered. This is said of files that are there. -/
def ShowsTruly (project : String) (m : Model) : Prop :=
  (ProjectFile.load m.workspace project).problem? = none →
    ((m.cell project).raw = none ∨
      (m.cell project).stamp = m.fileStamp project ∧ m.fileStamp project ≠ none) →
      m.markers.showsFormat project = false ∧ (m.raw project).formatProblem = none

theorem stamp_le_of_fileStamp {memory : Memory} (hmemory : m.workspace = .memory memory)
    (hdated : memory.Dated) {stamp : Nat} (h : m.fileStamp project = some stamp) :
    stamp ≤ memory.clock := by
  rw [fileStamp, hmemory] at h
  obtain ⟨resource, hfind, rfl⟩ := Option.map_eq_some_iff.mp h
  exact hdated _ resource hfind

/-- A file that is there has a time. -/
theorem fileStamp_ne_none (h : m.Watched project)
    (hthere : m.workspace.hasResource (projectFilePath project)) : m.fileStamp project ≠ none := by
  obtain ⟨memory, hmemory, -⟩ := h.dated
  rw [hmemory] at hthere
  rw [fileStamp, hmemory]
  change ((memory.resources.find? (projectFilePath project)).map Resource.kind).isSome at hthere
  change (memory.resources.find? (projectFilePath project)).map Resource.stamp ≠ none
  cases hfind : memory.resources.find? (projectFilePath project) with
  | none =>
    rw [hfind] at hthere
    cases hthere
  | some resource => exact Option.some_ne_none _

theorem Watched.of_heeds (h : m.Watched project) (hheeds : m.Heeds project m')
    (hspares : m.SparesFormats m') : m'.Watched project := by
  obtain ⟨hunbound, hformats⟩ := hspares h.onlyUnbound
  obtain ⟨memory, hmemory, hdated, hpast⟩ := h.dated
  obtain ⟨memory', hmemory', hresources, hclock⟩ :=
    Workspace.exists_memory_of_files hheeds.files hmemory
  refine ⟨hunbound, hformats.tidy h.tidy, fun hnone ↦ ?_, memory', hmemory', ?_, fun stamp hstamp ↦ ?_⟩
  · rw [hformats.shows]
    exact h.unread (hheeds.known hnone)
  · rw [Memory.Dated, hresources, hclock]
    exact hdated
  · rw [hclock]
    rcases hheeds.stamp with hsame | ⟨-, hread⟩
    · exact hpast stamp (hsame ▸ hstamp)
    · exact stamp_le_of_fileStamp hmemory hdated (hread ▸ hstamp)

theorem ShowsTruly.of_heeds (h : m.ShowsTruly project) (hheeds : m.Heeds project m')
    (hformats : m.markers.SameFormats m'.markers) : m'.ShowsTruly project := by
  intro husable hseen
  rw [ProjectFile.load_of_files hheeds.files] at husable
  rw [fileStamp_of_files hheeds.files] at hseen
  have hseen' : (m.cell project).raw = none ∨
      (m.cell project).stamp = m.fileStamp project ∧ m.fileStamp project ≠ none := by
    rcases hseen with hnone | ⟨hstamp, hthere⟩
    · exact .inl (hheeds.known hnone)
    · exact hheeds.stamp.elim (fun hsame ↦ .inr ⟨hsame ▸ hstamp, hthere⟩) fun hread ↦ .inl hread.1
  obtain ⟨hshows, hproblem⟩ := h husable hseen'
  exact ⟨(hformats.shows project).trans hshows, hheeds.problem.elim id fun hsame ↦ hsame.trans hproblem⟩

/-- Remembering the time of the file. -/
theorem Watched.setStamp (h : m.Watched project) :
    (m.setCell project ((m.cell project).setStamp (m.fileStamp project))).Watched project := by
  have hcell := m.cell_setCell project project ((m.cell project).setStamp (m.fileStamp project))
  rw [if_pos rfl] at hcell
  obtain ⟨memory, hmemory, hdated, -⟩ := h.dated
  refine ⟨KeepsOnlyUnbound.setCell (fun _ ↦ .inl) h.onlyUnbound, h.tidy, fun hnone ↦ ?_,
    memory, hmemory, hdated, fun stamp hstamp ↦ ?_⟩
  · rw [hcell] at hnone
    exact h.unread hnone
  · rw [hcell] at hstamp
    exact stamp_le_of_fileStamp hmemory hdated hstamp

/-- Changing the resources in memory, while the clock goes on. -/
theorem Watched.setMemory (h : m.Watched project) {memory memory' : Memory}
    (hmemory : m.workspace = .memory memory) (hdated : memory'.Dated)
    (hclock : memory.clock ≤ memory'.clock) :
    ({ m with workspace := .memory memory' } : Model).Watched project := by
  obtain ⟨memory₀, hmemory₀, -, hpast⟩ := h.dated
  obtain rfl := Workspace.memory.inj (hmemory₀.symm.trans hmemory)
  exact ⟨h.onlyUnbound, h.tidy, h.unread, memory', rfl, hdated, fun stamp hstamp ↦
    Nat.le_trans (hpast stamp hstamp) hclock⟩

/-- Changing the markers of a project that was read. -/
theorem Watched.setMarkers (h : m.Watched project) (hraw : (m.cell project).raw ≠ none)
    {markers : MarkerStore} (htidy : markers.Tidy) : ({ m with markers } : Model).Watched project :=
  ⟨h.onlyUnbound, htidy, fun hnone ↦ absurd hnone hraw, h.dated⟩

end Model

namespace ModelM

open Model

variable {g : GeneratedDelta} {es : List Entry}

/-! ### Asking for the raw buildpath and setting it -/

/-- Asking for a raw buildpath reads the file if that was not done, and shows the problem that it had. -/
private theorem rawBuildpath_steps (m : Model) (project : String) :
    ∃ m₁, m.Heeds project m₁ ∧ m.SparesFormats m₁ ∧
      (((rawBuildpath project).runOn m).2 = m₁ ∨
        ∃ problem, (m₁.raw project).formatProblem = some problem ∧ (m₁.cell project).raw ≠ none ∧
          ((rawBuildpath project).runOn m).2 =
            { m₁ with markers := m₁.markers.create project problem (m₁.optionsOf project) }) := by
  by_cases hexists : m.workspace.projectExists project
  · obtain ⟨cells, hload, hcells⟩ := loadRaw_run m project
    have hheeds : m.Heeds project ((loadRaw project).run m).2 :=
      (moves_loadRaw_tame (R := Heeds project) project m m.tame).1
    have hspares := sparesFormats_loadRaw project m
    rw [hload] at hheeds hspares
    have hraw : (({ m with cells } : Model).cell project).raw = some (m.raw project) := by
      rw [hcells, if_pos rfl, m.raw_loaded]
    refine ⟨{ m with cells }, hheeds, hspares, ?_⟩
    rw [rawBuildpath, Action.bind_runOn, requireProject_runOn hexists]
    dsimp only
    rw [Action.bind_runOn, Action.runOn_lift, hload]
    dsimp only
    cases hproblem : (m.raw project).formatProblem with
    | none => exact .inl rfl
    | some problem =>
      refine .inr ⟨problem, ?_, hraw ▸ Option.some_ne_none _, rfl⟩
      rw [Model.raw, hraw]
      exact hproblem
  · refine ⟨m, Chained.refl m, Chained.refl m, .inl ?_⟩
    rw [rawBuildpath, Action.bind_runOn, requireProject_missing hexists]

theorem watched_rawBuildpath (h : m.Watched project) :
    ((rawBuildpath project).runOn m).2.Watched project := by
  obtain ⟨m₁, hheeds, hspares, hm' | ⟨problem, -, hraw, hm'⟩⟩ := rawBuildpath_steps m project
  · exact hm' ▸ h.of_heeds hheeds hspares
  · have hm₁ := h.of_heeds hheeds hspares
    exact hm' ▸ hm₁.setMarkers hraw (hm₁.tidy.create project problem _)

theorem showsTruly_rawBuildpath (h : m.Watched project) (htruly : m.ShowsTruly project) :
    ((rawBuildpath project).runOn m).2.ShowsTruly project := by
  obtain ⟨m₁, hheeds, hspares, hm' | ⟨problem, hproblem, -, hm'⟩⟩ := rawBuildpath_steps m project
  · exact hm' ▸ htruly.of_heeds hheeds (hspares h.onlyUnbound).2
  · -- a problem is shown, so the file cannot be used or has changed
    have hm₁ := htruly.of_heeds hheeds (hspares h.onlyUnbound).2
    intro husable hseen
    rw [hm'] at husable hseen
    have hnone := (hm₁ husable hseen).2
    rw [hproblem] at hnone
    cases hnone

private theorem heeds_replaceRaw (m : Model) (other : String) (entries : List Entry) (saves : Bool) :
    m.Heeds project ((replaceRaw other entries saves).run m).2 :=
  (moves_replaceRaw_tame (R := Heeds project) trivial saves m m.tame).1

/-- A raw buildpath that is not saved is set without touching files. -/
private theorem heeds_setRaw (m : Model) (other : String) (entries : List Entry) :
    m.Heeds project ((setRawBuildpath other entries false).runOn m).2 := by
  obtain ⟨begun, m₂, held, held', rfl, hm', hcases⟩ := setRaw_cases m other entries false
  have hbegun : m.Heeds project { m with held } := Ground.unheld m held m.folders
  have hend : m₂.Heeds project { m₂ with held := held' } :=
    Ground.unheld m₂ held' m₂.folders
  rw [hm']
  rcases hcases with rfl | rfl | ⟨hsaves, -⟩
  · exact Chained.trans hbegun hend
  · exact Chained.trans hbegun (Chained.trans (heeds_replaceRaw _ other entries false) hend)
  · cases hsaves

/-- A raw buildpath that cannot be saved leaves files alone. -/
theorem heeds_failed (h : (setRawBuildpath project es true).runOn m = (.error failure, m')) :
    m.Heeds project m' := by
  rw [setRawBuildpath_eq, holding_eq] at h
  obtain ⟨m₁, h, rfl⟩ := h
  generalize hheld : (m.held.acquire [.project project, .externalFolders]).2 = held at h
  have hbegun : m.Heeds project { m with held } := Ground.unheld m held m.folders
  have hend : ∀ held', m₁.Heeds project { m₁ with held := held' } := fun held' ↦
    Ground.unheld m₁ held' m₁.folders
  suffices hm₁ : Heeds project { m with held } m₁ from
    Chained.trans hbegun (Chained.trans hm₁ (hend _))
  obtain hverify | ⟨⟨⟩, m₂, hverify, h⟩ := Action.bind_eq_error.mp h
  · obtain rfl : m₁ = { m with held } := (congrArg Prod.snd hverify).symm.trans (verify_runOn _ _ _)
    exact Chained.refl _
  · obtain ⟨rfl, -, -⟩ := verify_eq_ok.mp hverify
    obtain hreplace | ⟨g, m₃, hreplace, h⟩ := Action.bind_eq_error.mp h
    · cases hreplace
    · have hm₃ : Heeds project { m with held } _ := heeds_replaceRaw { m with held } project es true
      rw [show ((replaceRaw project es true).run { m with held }).2 = m₃ from
        congrArg Prod.snd hreplace] at hm₃
      obtain hsave | ⟨⟨⟩, m₄, -, h⟩ := Action.bind_eq_error.mp h
      · obtain ⟨failure', hfails⟩ | ⟨m₄, hsaved⟩ := saveFile_cases m₃ project es
        · rw [hfails] at hsave
          cases hsave
          exact hm₃
        · rw [hsaved] at hsave
          cases hsave
      · cases h

private theorem watched_saveFile (h : m.Watched project)
    (hsave : (saveFile project es).runOn m = (.ok (), m')) : m'.Watched project := by
  obtain ⟨isWritten, w, hsaved, rfl⟩ := saveFile_eq_ok hsave
  obtain ⟨memory, hmemory, hdated, -⟩ := h.dated
  have hwritten : ({ m with workspace := w } : Model).Watched project := by
    rw [hmemory] at hsaved
    obtain ⟨-, rfl⟩ | ⟨-, hwrite⟩ := ProjectFile.save_eq_ok hsaved
    · exact h.setMemory hmemory hdated (Nat.le_refl _)
    · obtain ⟨memory', hwrite', rfl⟩ := Workspace.write_memory hwrite
      obtain ⟨hdated', hclock⟩ := hdated.write hwrite'
      exact h.setMemory hmemory hdated' hclock
  exact hwritten.setStamp

/-- Saving a raw buildpath remembers the time of the file. -/
theorem watched_setRawBuildpath (h : m.Watched project)
    (hset : (setRawBuildpath project es true).runOn m = (.ok g, m')) : m'.Watched project := by
  obtain ⟨-, -, m₁, m₂, hreplace, hsave, rfl⟩ := setRawBuildpath_eq_ok.mp hset
  generalize (m.held.acquire [.project project, .externalFolders]).2 = held at hreplace
  have hbegun : ({ m with held } : Model).Watched project :=
    h.of_heeds (Ground.unheld m held m.folders)
      (Ground.unheld m held m.folders)
  have hreplaced : Model.Watched project m₁ := by
    have hwatched := hbegun.of_heeds (heeds_replaceRaw _ project es true)
      (sparesFormats_replaceRaw project es true _)
    rwa [hreplace] at hwatched
  have hsaved := watched_saveFile hreplaced hsave
  exact hsaved.of_heeds (Ground.unheld m₂ _ m₂.folders)
    (Ground.unheld m₂ _ m₂.folders)

/-! ### Taking over an edit -/

/-- Takes over an edited file that can be used: it is not shown as unreadable any longer, and its entries are
set if they are others. -/
def adopt (project : String) (raw : RawBuildpath) (entries : List Entry) (stamp : Option Nat) :
    Action (Option GeneratedDelta) := do
  flushMarkers project false true
  if raw.entries = entries then
    modifyCell project (·.setStamp stamp)
    return none
  let g ← setRawBuildpath project entries false
  modifyCell project (·.setStamp stamp)
  return some g

theorem fileChanged_runOn (hexists : m.workspace.projectExists project) :
    (fileChanged project).runOn m = (match (m.cell project).raw with
      | none => pure none
      | some raw =>
        if (m.cell project).stamp = m.fileStamp project then pure none
        else
          match (ProjectFile.load m.workspace project).problem? with
          | some problem => do
            createMarker project problem
            modifyCell project (·.setStamp (m.fileStamp project))
            return none
          | none => adopt project raw ((ProjectFile.load m.workspace project).entries (projectPath project))
              (m.fileStamp project) : Action (Option GeneratedDelta)).runOn
        (m.setCell project (m.cell project)) := by
  rw [fileChanged, Action.bind_runOn, requireProject_runOn hexists]
  dsimp only
  change ((match (m.cell project).raw with
    | none => pure none
    | some raw => _ : Action (Option GeneratedDelta)).runOn (m.setCell project (m.cell project))) = _
  have hworkspace : (m.setCell project (m.cell project)).workspace = m.workspace := rfl
  cases (m.cell project).raw with
  | none => rfl
  | some raw =>
    unfold Model.fileStamp
    dsimp only
    rw [hworkspace]
    split
    · rfl
    · cases (ProjectFile.load m.workspace project).problem? <;> rfl

private theorem watched_adopt (h : m.Watched project) (hraw : (m.cell project).raw ≠ none)
    (raw : RawBuildpath) (entries : List Entry) :
    let m' := ((adopt project raw entries (m.fileStamp project)).runOn m).2
    m'.Watched project ∧ m'.workspace.files = m.workspace.files ∧
      m'.markers.showsFormat project = false := by
  let m₁ : Model := { m with markers := m.markers.flush project false true }
  have hm₁ : m₁.Watched project := h.setMarkers hraw (h.tidy.flush project false true)
  have hshows : m₁.markers.showsFormat project = false :=
    MarkerStore.showsFormat_flush_formats h.tidy project
  have hstamped : ∀ m₂ : Model, m₂.Watched project → m₂.workspace.files = m.workspace.files →
      m₂.markers.showsFormat project = false → ∀ m', m' = m₂.setCell project
        ((m₂.cell project).setStamp (m.fileStamp project)) → m'.Watched project ∧
          m'.workspace.files = m.workspace.files ∧ m'.markers.showsFormat project = false := by
    rintro m₂ hm₂ hfiles hshows m' rfl
    rw [← fileStamp_of_files hfiles]
    exact ⟨hm₂.setStamp, hfiles, hshows⟩
  have hfiles₁ : m₁.workspace.files = m.workspace.files := rfl
  intro m'
  have hm' : m' = ((do
      if raw.entries = entries then
        modifyCell project (·.setStamp (m.fileStamp project))
        return none
      let g ← setRawBuildpath project entries false
      modifyCell project (·.setStamp (m.fileStamp project))
      return some g : Action (Option GeneratedDelta)).runOn m₁).2 := rfl
  clear_value m₁
  by_cases hsame : raw.entries = entries
  · rw [if_pos hsame] at hm'
    exact hstamped m₁ hm₁ hfiles₁ hshows m' hm'
  · rw [if_neg hsame, Action.bind_runOn] at hm'
    have hheeds : m₁.Heeds project _ := heeds_setRaw m₁ project entries
    have hspares : m₁.SparesFormats ((setRawBuildpath project entries false).runOn m₁).2 :=
      sparesFormats_setRaw project entries false m₁
    rcases hset : (setRawBuildpath project entries false).runOn m₁ with ⟨r, m₂⟩
    rw [hset] at hm' hheeds hspares
    have hm₂ := hm₁.of_heeds hheeds hspares
    have hfiles₂ := hheeds.files.trans hfiles₁
    have hshows₂ := ((hspares hm₁.onlyUnbound).2.shows project).trans hshows
    cases r with
    | error failure => exact hm' ▸ ⟨hm₂, hfiles₂, hshows₂⟩
    | ok g => exact hstamped m₂ hm₂ hfiles₂ hshows₂ m' hm'

/-- Taking over an edit looks at the file if it has another time than is remembered. Then it is shown as
unreadable only if it cannot be used. -/
theorem watched_fileChanged (h : m.Watched project) :
    let m' := ((fileChanged project).runOn m).2
    m'.Watched project ∧ m'.workspace.files = m.workspace.files ∧
      (m.workspace.projectExists project → (ProjectFile.load m.workspace project).problem? = none →
        m'.markers.showsFormat project → m.markers.showsFormat project ∧
          ((m.cell project).raw = none ∨ (m.cell project).stamp = m.fileStamp project)) := by
  intro m'
  by_cases hexists : m.workspace.projectExists project
  · have hm' : m' = _ := congrArg Prod.snd (fileChanged_runOn hexists)
    have htouched := h.of_heeds (Ground.touched m project) (Ground.touched m project)
    have hcell := m.cell_touched project project
    generalize htouch : m.setCell project (m.cell project) = m₁ at hm' htouched hcell
    have hfiles : m₁.workspace.files = m.workspace.files := htouch ▸ rfl
    have hmarkers : m₁.markers = m.markers := htouch ▸ rfl
    rw [← fileStamp_of_files hfiles] at hm' ⊢
    cases hraw : (m.cell project).raw with
    | none =>
      rw [hraw] at hm'
      exact hm' ▸ ⟨htouched, hfiles, fun _ _ hshows ↦ ⟨hmarkers ▸ hshows, .inl rfl⟩⟩
    | some raw =>
      have hread : (m₁.cell project).raw ≠ none := by rw [hcell, hraw]; exact Option.some_ne_none raw
      rw [hraw] at hm'
      dsimp only at hm'
      by_cases hstamp : (m.cell project).stamp = m₁.fileStamp project
      · rw [if_pos hstamp] at hm'
        exact hm' ▸ ⟨htouched, hfiles, fun _ _ hshows ↦ ⟨hmarkers ▸ hshows, .inr hstamp⟩⟩
      · rw [if_neg hstamp] at hm'
        cases hproblem : (ProjectFile.load m.workspace project).problem? with
        | some problem =>
          rw [hproblem] at hm'
          have hshown := htouched.setMarkers hread
            (htouched.tidy.create project problem (m₁.optionsOf project))
          exact hm' ▸ ⟨hshown.setStamp, hfiles, fun _ ↦ nofun⟩
        | none =>
          rw [hproblem] at hm'
          obtain ⟨hwatched, hfiles', hshows'⟩ := watched_adopt htouched hread raw
            ((ProjectFile.load m.workspace project).entries (projectPath project))
          rw [← hm'] at hwatched hfiles' hshows'
          exact ⟨hwatched, hfiles'.trans hfiles, fun _ _ hshows ↦ by rw [hshows'] at hshows; cases hshows⟩
  · have hm' : m' = m := by
      have hrun : (fileChanged project).runOn m = (.error (.projectNotFound project), m) := by
        rw [fileChanged, Action.bind_runOn, requireProject_missing hexists]
      exact congrArg Prod.snd hrun
    rw [hm']
    exact ⟨h, rfl, fun hthere ↦ absurd hthere hexists⟩

end ModelM

/-! ### Runs -/

namespace Model

/-- The raw buildpath of a project is asked for and set, its file is edited and removed by others, and edits are
taken over. The flag tells whether others changed the file since the raw buildpath was saved or edits were taken
over. -/
inductive FileRun (project : String) (m₀ : Model) : Bool → Model → Prop where
  | start : FileRun project m₀ false m₀
  | ask {isEdited : Bool} {m : Model} (run : FileRun project m₀ isEdited m) :
    FileRun project m₀ isEdited ((ModelM.rawBuildpath project).runOn m).2
  | save {isEdited : Bool} {m m' : Model} {entries : List Entry} {g : GeneratedDelta}
    (run : FileRun project m₀ isEdited m)
    (saved : (ModelM.setRawBuildpath project entries true).runOn m = (.ok g, m')) :
    FileRun project m₀ false m'
  | fail {isEdited : Bool} {m m' : Model} {entries : List Entry} {failure : Failure}
    (run : FileRun project m₀ isEdited m)
    (failed : (ModelM.setRawBuildpath project entries true).runOn m = (.error failure, m')) :
    FileRun project m₀ isEdited m'
  | edit {isEdited : Bool} {m : Model} {memory : Memory} (run : FileRun project m₀ isEdited m)
    (inMemory : m.workspace = .memory memory) (contents : ByteArray) :
    FileRun project m₀ true
      { m with workspace := .memory (memory.addFile (projectFilePath project) contents) }
  | remove {isEdited : Bool} {m : Model} {memory : Memory} (run : FileRun project m₀ isEdited m)
    (inMemory : m.workspace = .memory memory) :
    FileRun project m₀ true { m with workspace := .memory (memory.remove (projectFilePath project)) }
  | takeOver {isEdited : Bool} {m : Model} (run : FileRun project m₀ isEdited m) :
    FileRun project m₀ false ((ModelM.fileChanged project).runOn m).2

theorem Watched.of_empty {memory : Memory} (hmemory : m.workspace = .memory memory)
    (hdated : memory.Dated) (hcells : m.cells = .empty) (hmarkers : m.markers = {}) :
    m.Watched project := by
  have hcell : ∀ q, m.cell q = {} := fun q ↦ by rw [cell, hcells]; rfl
  refine ⟨fun q i hi ↦ ?_, hmarkers ▸ fun _ _ hin ↦ absurd hin List.not_mem_nil,
    fun _ ↦ hmarkers ▸ rfl, memory, hmemory, hdated, fun stamp hstamp ↦ ?_⟩
  · rw [hcell] at hi
    cases hi
  · rw [hcell] at hstamp
    cases hstamp

/-- A file that others changed cannot have the time that is remembered. -/
private theorem showsTruly_setMemory {memory memory' : Memory} (h : m.Watched project)
    (hmemory : m.workspace = .memory memory)
    (hnew : ∀ stamp, memory'.stamp? (projectFilePath project) = some stamp → memory.clock < stamp) :
    ({ m with workspace := .memory memory' } : Model).ShowsTruly project := by
  obtain ⟨memory₀, hmemory₀, -, hpast⟩ := h.dated
  obtain rfl := Workspace.memory.inj (hmemory₀.symm.trans hmemory)
  intro husable hseen
  have hnone : (m.cell project).raw = none := by
    rcases hseen with hnone | ⟨hsame, hthere⟩
    · exact hnone
    · obtain ⟨stamp, hstamp⟩ := Option.ne_none_iff_exists'.mp hthere
      exact absurd (hpast stamp (hsame.trans hstamp)) (Nat.not_le_of_lt (hnew stamp hstamp))
  refine ⟨h.unread hnone, ?_⟩
  have hraw : (({ m with workspace := .memory memory' } : Model).cell project).raw = none := hnone
  rw [raw, hraw]
  exact husable

/-- Runs keep watch over the file, and what others changed is shown truly. -/
theorem FileRun.watched {isEdited : Bool} (h : m₀.FileRun project isEdited m)
    (hm₀ : m₀.Watched project) : m.Watched project ∧ (isEdited → m.ShowsTruly project) := by
  induction h with
  | start => exact ⟨hm₀, nofun⟩
  | ask _ ih => exact ⟨ModelM.watched_rawBuildpath ih.1, fun hedited ↦
      ModelM.showsTruly_rawBuildpath ih.1 (ih.2 hedited)⟩
  | save _ hsaved ih => exact ⟨ModelM.watched_setRawBuildpath ih.1 hsaved, nofun⟩
  | @fail isEdited m m' entries failure _ hfailed ih =>
    have hheeds := ModelM.heeds_failed hfailed
    have hspares : m.SparesFormats ((ModelM.setRawBuildpath project entries true).runOn m).2 :=
      ModelM.sparesFormats_setRaw project entries true m
    rw [hfailed] at hspares
    exact ⟨ih.1.of_heeds hheeds hspares, fun hedited ↦
      (ih.2 hedited).of_heeds hheeds (hspares ih.1.onlyUnbound).2⟩
  | @edit _ m memory _ hmemory contents ih =>
    obtain ⟨memory₀, hmemory₀, hdated, -⟩ := ih.1.dated
    obtain rfl := Workspace.memory.inj (hmemory₀.symm.trans hmemory)
    obtain ⟨hdated', hclock, hstamp⟩ := hdated.addFile (projectFilePath project) contents
    refine ⟨ih.1.setMemory hmemory hdated' (Nat.le_of_lt hclock), fun _ ↦
      showsTruly_setMemory ih.1 hmemory fun stamp hfound ↦ ?_⟩
    obtain rfl := Option.some.inj (hstamp.symm.trans hfound)
    exact hclock
  | @remove _ m memory _ hmemory ih =>
    obtain ⟨memory₀, hmemory₀, hdated, -⟩ := ih.1.dated
    obtain rfl := Workspace.memory.inj (hmemory₀.symm.trans hmemory)
    obtain ⟨hdated', hstamp⟩ := hdated.remove (projectFilePath project)
    refine ⟨ih.1.setMemory hmemory hdated' (Nat.le_refl _), fun _ ↦
      showsTruly_setMemory ih.1 hmemory fun stamp hfound ↦ ?_⟩
    cases hstamp.symm.trans hfound
  | takeOver _ ih => exact ⟨(ModelM.watched_fileChanged ih.1).1, nofun⟩

end Model

namespace ModelM

open Model

/-- From a model that knows nothing yet and shows nothing, whatever happened to the buildpath of a project and its
file: a raw buildpath that is saved leaves the file shown as unreadable if it was, and only then. After an edit
by others that was not followed by saving is taken over, the file is shown as unreadable only if it cannot be
used, provided that it is there or was when it was looked at last. -/
theorem unreadable_file_is_shown {memory : Memory} {isEdited : Bool}
    (hmemory : m₀.workspace = .memory memory) (hdated : memory.Dated) (hcells : m₀.cells = .empty)
    (hmarkers : m₀.markers = {}) (hrun : m₀.FileRun project isEdited m) :
    (∀ entries g m', (setRawBuildpath project entries true).runOn m = (.ok g, m') →
      m'.markers.showsFormat project = m.markers.showsFormat project) ∧
    ∀ g? m', (fileChanged project).runOn m = (.ok g?, m') → isEdited →
      m.workspace.hasResource (projectFilePath project) ∨ (m.cell project).stamp ≠ none →
        m'.markers.showsFormat project →
          ∃ problem, ProjectFile.load m'.workspace project = .invalid problem := by
  obtain ⟨hwatched, htruly⟩ := hrun.watched (.of_empty hmemory hdated hcells hmarkers)
  refine ⟨fun entries g m' hset ↦ ?_, fun g? m' hchanged hedited hthere hshows ↦ ?_⟩
  · have hspares : m.SparesFormats ((setRawBuildpath project entries true).runOn m).2 :=
      sparesFormats_setRaw project entries true m
    rw [hset] at hspares
    exact (hspares hwatched.onlyUnbound).2.shows project
  · obtain ⟨-, hfiles, hshown⟩ := watched_fileChanged hwatched
    rw [hchanged] at hfiles hshown
    rw [ProjectFile.load_of_files hfiles]
    obtain ⟨⟨⟩, _, hproject, -⟩ := Action.bind_eq_ok.mp hchanged
    have husable : (ProjectFile.load m.workspace project).problem? ≠ none := by
      intro husable
      obtain ⟨hbefore, hseen⟩ := hshown (requireProject_eq_ok hproject).2 husable hshows
      refine absurd hbefore (Bool.not_eq_true _ ▸ (htruly hedited husable ?_).1)
      refine hseen.imp_right fun hsame ↦ ⟨hsame, ?_⟩
      exact hthere.elim (fileStamp_ne_none hwatched) fun hstamp ↦ hsame ▸ hstamp
    cases hload : ProjectFile.load m.workspace project with
    | invalid problem => exact ⟨problem, rfl⟩
    | missing => exact absurd (congrArg ProjectFile.problem? hload) husable
    | valid document => exact absurd (congrArg ProjectFile.problem? hload) husable

/-- The bytes of a file that is no text. -/
def noText : ByteArray := ⟨#[255]⟩

/-- A project whose raw buildpath was asked for before there was a file. -/
def askedProject : Model := ((rawBuildpath "p").runOn onlyProject).2

/-- The memory of a project with a file that is no text. -/
def withNoText : Memory :=
  (Memory.addProject {} "p" (some defaultNature)).addFile (projectFilePath "p") noText

private theorem dated_onlyProject : (Memory.addProject {} "p" (some defaultNature)).Dated :=
  Memory.Dated.addProject (fun _ _ hfind ↦ by cases hfind) _ _

/-- Others make a file that is no text, and it is shown as unreadable once the edit is taken over. -/
theorem edited_file_is_shown : ∃ (edited m' : Model) (g? : Option GeneratedDelta),
    edited = { askedProject with workspace := .memory withNoText } ∧
    onlyProject.FileRun "p" true edited ∧ (fileChanged "p").runOn edited = (.ok g?, m') ∧
    edited.workspace.hasResource (projectFilePath "p") ∧ m'.markers.showsFormat "p" ∧
    ∃ problem, ProjectFile.load m'.workspace "p" = .invalid problem := by
  have hrun : onlyProject.FileRun "p" true { askedProject with workspace := .memory withNoText } :=
    .edit (.ask .start) rfl noText
  have hshows : ((fileChanged "p").runOn
      { askedProject with workspace := .memory withNoText }).2.markers.showsFormat "p" := by
    decide +kernel
  obtain ⟨g?, hchanged⟩ := Action.runOn_eq_ok (fileChanged "p")
    { askedProject with workspace := .memory withNoText } (by decide +kernel)
  have hthere : (Workspace.memory withNoText).hasResource (projectFilePath "p") := by decide +kernel
  exact ⟨_, _, g?, rfl, hrun, hchanged, hthere, hshows,
    (unreadable_file_is_shown rfl dated_onlyProject rfl rfl hrun).2 g? _ hchanged rfl (.inl hthere) hshows⟩

/-- A project with a file that is no text, once its raw buildpath was asked for. -/
def unreadableProject : Model :=
  ((rawBuildpath "p").runOn { onlyProject with workspace := .memory withNoText }).2

/-- Saving replaces a file that is no text by one that can be used, but it is still shown as unreadable. -/
theorem saved_file_stays_unreadable : ∃ (g : GeneratedDelta) (m' : Model),
    onlyProject.FileRun "p" true unreadableProject ∧
    (setRawBuildpath "p" [.source (.parse "/p/src")] true).runOn unreadableProject = (.ok g, m') ∧
    m'.markers.showsFormat "p" ∧ ∃ document, ProjectFile.load m'.workspace "p" = .valid document := by
  obtain ⟨g, h⟩ := Action.runOn_eq_ok (setRawBuildpath "p" [.source (.parse "/p/src")] true)
    unreadableProject (by decide +kernel)
  have hforeign : (ProjectFile.load unreadableProject.workspace "p").foreign = {} := by
    have hproblem : (ProjectFile.load unreadableProject.workspace "p").problem?.isSome := by
      decide +kernel
    cases hload : ProjectFile.load unreadableProject.workspace "p" with
    | valid document =>
      rw [hload] at hproblem
      cases hproblem
    | missing => rfl
    | invalid problem => rfl
  obtain ⟨document, hload, -⟩ := (holds_of_setRawBuildpath hasPlainName_p h).mpr (.inr ⟨by
    intro e he
    obtain rfl := List.mem_singleton.mp he
    exact ⟨⟨nofun, nofun, nofun⟩, by decide, by decide⟩, by
    rw [hforeign]
    exact ⟨nofun, by decide, fun _ _ ↦ nofun⟩⟩)
  exact ⟨g, _, .ask (.edit .start rfl noText), h, by decide +kernel, document, hload⟩

end ModelM

end Buildpath
