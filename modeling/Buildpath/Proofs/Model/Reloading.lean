import Buildpath.Proofs.Model.FileEdits
import Buildpath.Proofs.Model.Repeating

/-!
# Edits and reloads

A model that takes over an edit of a project file shows the raw buildpath that a model without any memory
reads from the file, if the entries of the file are those that are remembered or form a valid buildpath
(`ModelM.fileChanged_reloads`). Entries that are refused are read by such a model all the same, since
reading a file does not validate it, so then the two differ. No file is touched in either case.
-/

namespace Buildpath

variable {m m' : Model} {project : String} {es : List Entry}

namespace Model

/-- Steps that keep a raw buildpath that is remembered for a project. -/
def HoldsRaw (project : String) (m m' : Model) : Prop :=
  ∀ raw, (m.cell project).raw = some raw → (m'.cell project).raw = some raw

theorem HoldsRaw.of_cells (h : m'.cells = m.cells) : m.HoldsRaw project m' := by
  have hcell : m'.cell project = m.cell project := by rw [cell, h, cell]
  exact fun raw hraw ↦ hcell ▸ hraw

/-- Changing a cell keeps the raw buildpath of the project if the new cell has it. -/
theorem HoldsRaw.setCell {other : String} {c : Cell}
    (h : other = project → ∀ raw, (m.cell project).raw = some raw → c.raw = some raw) :
    m.HoldsRaw project (m.setCell other c) := by
  intro raw hraw
  rw [cell_setCell]
  split
  · next heq => exact h heq raw hraw
  · exact hraw

theorem HoldsRaw.trans {m'' : Model} (h : m.HoldsRaw project m') (h' : m'.HoldsRaw project m'') :
    m.HoldsRaw project m'' :=
  fun raw hraw ↦ h' raw (h raw hraw)

instance : OperationFrame (fun other _ ↦ other ≠ project) (HoldsRaw project) where
  refl _ _ h := h
  trans := .trans
  volatile _ _ _ _ _ := .of_cells rfl
  touched _ _ := .setCell fun heq _ hraw ↦ heq ▸ hraw
  clearRoots m raw hraw := by
    rw [cell_clearRoots]
    exact hraw
  noted _ _ := .of_cells rfl
  registry _ _ := .of_cells rfl
  issued _ := .of_cells rfl
  fragments _ _ _ := .setCell fun heq _ hraw ↦ heq ▸ hraw
  loads m other hnone := .setCell fun heq raw hraw ↦ by rw [← heq, hnone] at hraw; cases hraw
  begins _ _ _ _ _ _ := .setCell fun heq _ hraw ↦ heq ▸ hraw
  completes := by
    intro m m' other raw r _ _ _ _ h
    have hbegun : m.HoldsRaw project m' := h
    have hcompleted : m'.HoldsRaw project (m'.setCell other
        ((m'.cell other).complete (m.cell other).generation ⟨m'.issued, r⟩)) := by
      refine .setCell fun heq raw hraw ↦ ?_
      rw [Cell.complete]
      split <;> exact heq ▸ hraw
    exact hbegun.trans (hcompleted.trans (.of_cells rfl))
  replaces _ _ _ hne := .setCell fun heq ↦ absurd heq hne
  announced _ _ _ := .of_cells rfl
  references _ _ _ _ _ := .of_cells rfl
  bindsVariables _ _ := .of_cells rfl
  invalidates _ _ := .setCell fun heq _ hraw ↦ heq ▸ hraw

end Model

namespace ModelM

/-- A raw buildpath that was replaced stays what it was set to, unless an initializer replaces it. -/
theorem raw_replaceRaw (htame : m.Tame fun other _ ↦ other ≠ project) (es : List Entry) (saves : Bool) :
    ∃ raw, (((replaceRaw project es saves).run m).2.cell project).raw = some raw ∧ raw.entries = es := by
  obtain ⟨m₁, cells, change, hinspect, hrun, -, -, -, -, hcell, -⟩ := replaceRaw_run m project es saves
  have htame₁ := (moves_inspect_tame (R := Model.HoldsRaw project) project m htame).2
  rw [hinspect] at htame₁
  have happlied := (moves_applyChange_tame (R := Model.HoldsRaw project) change saves
    { m₁ with cells } htame₁).1
  rw [hrun]
  exact ⟨_, happlied _ (by rw [hcell]; rfl), rfl⟩

/-- A valid raw buildpath is set, and it stays unless an initializer replaces it. -/
theorem setRawBuildpath_unsaved_valid (htame : m.Tame fun other _ ↦ other ≠ project)
    (hexists : m.workspace.projectExists project) (hvalid : validate (projectPath project) es = .ok ()) :
    ∃ (g : GeneratedDelta) (m' : Model), (setRawBuildpath project es false).runOn m = (.ok g, m') ∧
      m'.workspace.files = m.workspace.files ∧
      ∃ raw, (m'.cell project).raw = some raw ∧ raw.entries = es := by
  let begun : Model := { m with held := (m.held.acquire [.project project]).2 }
  have hverify : (verify project es).runOn begun = (.ok (), begun) := verify_eq_ok.mpr ⟨rfl, hexists, hvalid⟩
  have hreplaced := raw_replaceRaw (m := begun) (htame.of_initializers rfl) es false
  have hfiles : begun.SameFiles _ := files_replaceRaw begun project es false
  rcases hrun : (replaceRaw project es false).run begun with ⟨g, m₁⟩
  rw [hrun] at hreplaced hfiles
  refine ⟨g, { m₁ with held := m₁.held.release (m.held.acquire [.project project]).1 }, ?_, hfiles,
    hreplaced⟩
  rw [setRawBuildpath_unsaved, holding_eq]
  refine ⟨m₁, Action.bind_eq_ok.mpr ⟨(), begun, hverify, ?_⟩, rfl⟩
  refine Action.bind_eq_ok.mpr ⟨g, m₁, ?_, rfl⟩
  rw [Action.runOn_lift, hrun]

/-- A raw buildpath that is not valid is refused. -/
theorem setRawBuildpath_unsaved_refused {problem : Status} (hexists : m.workspace.projectExists project)
    (hinvalid : validate (projectPath project) es = .error problem) :
    ∃ held : HeldRules,
      (setRawBuildpath project es false).runOn m = (.error (.status problem), { m with held }) := by
  let begun : Model := { m with held := (m.held.acquire [.project project]).2 }
  have hverify : (verify project es).runOn begun = (.error (.status problem), begun) := by
    rw [verify, Action.bind_runOn, requireProject_runOn (m := begun) hexists, hinvalid]
    rfl
  refine ⟨begun.held.release (m.held.acquire [.project project]).1, ?_⟩
  rw [setRawBuildpath_unsaved, holding_eq]
  exact ⟨begun, Action.bind_eq_error.mpr (.inl hverify), rfl⟩

/-- What a model shows of a project whose raw buildpath it remembers. -/
theorem rawBuildpath_of_raw {raw : RawBuildpath} (hexists : m.workspace.projectExists project)
    (hraw : (m.cell project).raw = some raw) : ((rawBuildpath project).runOn m).1 = .ok raw.entries := by
  obtain ⟨cells, hload, -⟩ := loadRaw_run m project
  have hshown : m.raw project = raw := by rw [Model.raw, hraw, Option.getD_some]
  rw [rawBuildpath, Action.bind_runOn, requireProject_runOn hexists]
  dsimp only
  rw [Action.bind_runOn, Action.runOn_lift, hload, hshown]
  dsimp only
  cases raw.formatProblem <;> rfl

/-- Adopting an edit: the entries are shown if they are the remembered ones or form a valid buildpath.
Otherwise they are refused, and what is remembered stays. -/
theorem adopt_cases {raw : RawBuildpath} (htame : m.Tame fun other _ ↦ other ≠ project)
    (hexists : m.workspace.projectExists project) (hraw : (m.cell project).raw = some raw)
    (es : List Entry) (stamp : Option Nat) :
    ∃ (r : Except Failure (Option GeneratedDelta)) (m' : Model),
      (adopt project raw es stamp).runOn m = (r, m') ∧ m'.workspace.files = m.workspace.files ∧
      ∃ raw', (m'.cell project).raw = some raw' ∧
        ((raw.entries = es ∨ validate (projectPath project) es = .ok ()) ∧ r.isOk ∧ raw'.entries = es ∨
          ∃ problem, raw.entries ≠ es ∧ validate (projectPath project) es = .error problem ∧
            r = .error (.status problem) ∧ raw' = raw) := by
  let m₁ : Model := { m with markers := m.markers.flush project false true }
  have hflushed : (adopt project raw es stamp).runOn m = (do
      if raw.entries = es then
        modifyCell project (·.setStamp stamp)
        return none
      let g ← setRawBuildpath project es false
      modifyCell project (·.setStamp stamp)
      return some g : Action (Option GeneratedDelta)).runOn m₁ := rfl
  have hraw₁ : (m₁.cell project).raw = some raw := hraw
  have htame₁ : m₁.Tame fun other _ ↦ other ≠ project := htame.of_initializers rfl
  have hworkspace : m₁.workspace = m.workspace := rfl
  rw [hflushed, ← hworkspace]
  rw [← hworkspace] at hexists
  clear_value m₁
  -- remembering the time of the file keeps the raw buildpath
  have hstamped : ∀ (m₂ : Model) (raw' : RawBuildpath), (m₂.cell project).raw = some raw' →
      ((m₂.setCell project ((m₂.cell project).setStamp stamp)).cell project).raw = some raw' := by
    intro m₂ raw' hraw'
    rw [Model.cell_setCell, if_pos rfl]
    exact hraw'
  by_cases hsame : raw.entries = es
  · rw [if_pos hsame]
    exact ⟨_, _, rfl, rfl, raw, hstamped m₁ raw hraw₁, .inl ⟨.inl hsame, rfl, hsame⟩⟩
  · rw [if_neg hsame, Action.bind_runOn]
    cases hvalid : validate (projectPath project) es with
    | ok _ =>
      obtain ⟨g, m₂, hset, hfiles, raw', hraw', hentries⟩ :=
        setRawBuildpath_unsaved_valid htame₁ hexists hvalid
      rw [hset]
      exact ⟨_, _, rfl, hfiles, raw', hstamped m₂ raw' hraw', .inl ⟨.inr rfl, rfl, hentries⟩⟩
    | error problem =>
      obtain ⟨held, hset⟩ := setRawBuildpath_unsaved_refused hexists hvalid
      rw [hset]
      exact ⟨_, _, rfl, rfl, raw, hraw₁, .inr ⟨problem, hsame, rfl, rfl, rfl⟩⟩

/-- After a file that can be used was edited, taking over the edit touches no file, and a model without any
memory shows the entries of the file. So does the model itself if they are those that it remembers or form a
valid buildpath. Otherwise it says why they are refused, and shows what it remembers. -/
theorem fileChanged_reloads {raw : RawBuildpath} {d : Document}
    (htame : m.Tame fun other _ ↦ other ≠ project) (hexists : m.workspace.projectExists project)
    (hraw : (m.cell project).raw = some raw) (hload : ProjectFile.load m.workspace project = .valid d)
    (hedited : (m.cell project).stamp ≠ m.workspace.stamp? (projectFilePath project)) :
    ∃ (r : Except Failure (Option GeneratedDelta)) (m' : Model),
      (fileChanged project).runOn m = (r, m') ∧
      (∀ path, m'.workspace.read path = m.workspace.read path) ∧
      ∀ fresh : Model, fresh.workspace = m'.workspace → fresh.cells = .empty →
        ((rawBuildpath project).runOn fresh).1 = .ok d.entries ∧
        ((raw.entries = d.entries ∨ validate (projectPath project) d.entries = .ok ()) ∧ r.isOk ∧
            ((rawBuildpath project).runOn m').1 = ((rawBuildpath project).runOn fresh).1 ∨
          ∃ problem, raw.entries ≠ d.entries ∧
            validate (projectPath project) d.entries = .error problem ∧ r = .error (.status problem) ∧
            ((rawBuildpath project).runOn m').1 = .ok raw.entries) := by
  have hadopt : (fileChanged project).runOn m =
      (adopt project raw d.entries (m.fileStamp project)).runOn (m.setCell project (m.cell project)) := by
    rw [fileChanged_runOn hexists, hraw, hload]
    dsimp only [ProjectFile.problem?, ProjectFile.entries]
    rw [if_neg (show (m.cell project).stamp ≠ m.fileStamp project from hedited)]
  have hcell := m.cell_touched project project
  obtain ⟨r, m', hrun, hfiles, raw', hraw', hcases⟩ := adopt_cases
    (m := m.setCell project (m.cell project)) (htame.of_initializers rfl) hexists (hcell ▸ hraw)
    d.entries (m.fileStamp project)
  refine ⟨r, m', hadopt.trans hrun, Workspace.read_of_files hfiles, fun fresh hworkspace hcells ↦ ?_⟩
  have hexists' : m'.workspace.projectExists project := by
    rw [Workspace.projectExists_of_files hfiles]
    exact hexists
  have hload' : ProjectFile.load m'.workspace project = .valid d :=
    (ProjectFile.load_of_files hfiles project).trans hload
  have hfresh := rawBuildpath_runOn (hworkspace ▸ hexists') hcells (hworkspace ▸ hload')
  have hshown := rawBuildpath_of_raw hexists' hraw'
  refine ⟨hfresh, hcases.imp ?_ ?_⟩
  · rintro ⟨haccepted, hok, hentries⟩
    exact ⟨haccepted, hok, by rw [hshown, hentries, hfresh]⟩
  · rintro ⟨problem, hother, hinvalid, hrefused, rfl⟩
    exact ⟨problem, hother, hinvalid, hrefused, hshown⟩

/-- The memory of a project with a file. -/
def withFile (content : String) : Memory :=
  (Memory.addProject {} "p" (some defaultNature)).addFile (projectFilePath "p") content.toUTF8

/-- A project whose raw buildpath was asked for before its file was written by others. -/
def editedProject (content : String) : Model :=
  { askedProject with workspace := .memory (withFile content) }

/-- The text of a project file with some elements. -/
def fileText (elements : String) : String := "<buildpath>" ++ elements ++ "</buildpath>"

/-- The element of a source folder. -/
def sourceElement : String := "<buildpathentry kind=\"src\" path=\"src\"/>"

/-- The text of a project file with one source folder. -/
def oneSourceFolder : String := fileText sourceElement

/-- An edit of a project without a file is taken over, and a model without any memory shows the same. -/
theorem edited_source_folder_is_reloaded :
    ∃ (d : Document) (raw : RawBuildpath) (r : Except Failure (Option GeneratedDelta)) (m' : Model),
      ProjectFile.load (editedProject oneSourceFolder).workspace "p" = .valid d ∧
      d.entries = [.source (.parse "/p/src")] ∧
      ((editedProject oneSourceFolder).cell "p").raw = some raw ∧ raw.entries ≠ d.entries ∧
      ((editedProject oneSourceFolder).cell "p").stamp ≠
        (editedProject oneSourceFolder).workspace.stamp? (projectFilePath "p") ∧
      (fileChanged "p").runOn (editedProject oneSourceFolder) = (r, m') ∧ r.isOk ∧
      ((rawBuildpath "p").runOn m').1 =
        ((rawBuildpath "p").runOn { workspace := m'.workspace }).1 := by
  obtain ⟨d, hload, hd⟩ : ∃ d,
      ProjectFile.load (editedProject oneSourceFolder).workspace "p" = .valid d ∧
        d.entries = [.source (.parse "/p/src")] :=
    ProjectFile.holds_eq_true.mp (by decide +kernel)
  obtain ⟨raw, hraw⟩ : ∃ raw, ((editedProject oneSourceFolder).cell "p").raw = some raw :=
    Option.isSome_iff_exists.mp (by decide +kernel)
  have hremembered : (((editedProject oneSourceFolder).cell "p").raw.map RawBuildpath.entries) =
      some [.source (.parse "/p")] := by decide +kernel
  have hother : raw.entries ≠ d.entries := by
    rw [hraw] at hremembered
    rw [Option.some.inj hremembered, hd]
    decide +kernel
  have hedited : ((editedProject oneSourceFolder).cell "p").stamp ≠
      (editedProject oneSourceFolder).workspace.stamp? (projectFilePath "p") := by decide +kernel
  obtain ⟨r, m', hrun, -, hreload⟩ := fileChanged_reloads (Model.Tame.of_empty rfl)
    (by decide +kernel) hraw hload hedited
  obtain ⟨-, ⟨-, hok, hsame⟩ | ⟨problem, -, hinvalid, -⟩⟩ := hreload { workspace := m'.workspace } rfl rfl
  · exact ⟨d, raw, r, m', hload, hd, hraw, hother, hedited, hrun, hok, hsame⟩
  · have hvalid : (validate (projectPath "p") [.source (.parse "/p/src")]).isOk := by decide +kernel
    rw [← hd, hinvalid] at hvalid
    cases hvalid

/-- The text of a project file that lists a source folder twice. -/
def twiceOneFolder : String := fileText (sourceElement ++ sourceElement)

/-- The text of a project file with a container. -/
def oneContainer : String := fileText "<buildpathentry kind=\"con\" path=\"C\"/>"

/-- An initializer that empties the raw buildpath of the project before it makes a container. -/
def emptying : Initializer := fun path project ↦
  .ask (.setRaw project []) fun _ ↦ .done (some (.ofEntries path .application []))

/-- An edit that lists a folder twice is refused, but read by a model without any memory. And an edit may have a
container whose initializer replaces the raw buildpath. -/
theorem edit_is_not_reloaded :
    (∃ m' : Model, m' = ((fileChanged "p").runOn (editedProject twiceOneFolder)).2 ∧
      ProjectFile.holds [.source (.parse "/p/src"), .source (.parse "/p/src")]
        (ProjectFile.load (editedProject twiceOneFolder).workspace "p") ∧
      ((editedProject twiceOneFolder).cell "p").raw.isSome ∧
      ((editedProject twiceOneFolder).cell "p").stamp ≠
        (editedProject twiceOneFolder).workspace.stamp? (projectFilePath "p") ∧
      ((rawBuildpath "p").runOn m').1.toOption = some [.source (.parse "/p")] ∧
      ((rawBuildpath "p").runOn { workspace := m'.workspace }).1.toOption =
        some [.source (.parse "/p/src"), .source (.parse "/p/src")]) ∧
    ∃ m m' : Model,
      m = { editedProject oneContainer with initializers := Table.empty.insert "C" emptying } ∧
      m' = ((fileChanged "p").runOn m).2 ∧ (m.cell "p").raw.isSome ∧
      (m.cell "p").stamp ≠ m.workspace.stamp? (projectFilePath "p") ∧
      ((rawBuildpath "p").runOn m').1.toOption = some [] ∧
      ((rawBuildpath "p").runOn { m with workspace := m'.workspace, cells := .empty }).1.toOption =
        some [{ kind := .container, path := .parse "C" }] :=
  ⟨⟨_, rfl, by decide +kernel, by decide +kernel, by decide +kernel, by decide +kernel, by decide +kernel⟩,
    _, _, rfl, rfl, by decide +kernel, by decide +kernel, by decide +kernel, by decide +kernel⟩

end ModelM

end Buildpath
