import Buildpath.Model.Operations

/-!
# Single runs

What steps come to on one model: the outcome of steps that can fail, and the spec of each step that
reads or changes one cell, one file or the held rules.
-/

namespace Buildpath

/-- The outcome of steps that can fail, and the model after them. -/
def Action.runOn {α : Type} (act : Action α) (m : Model) : Except Failure α × Model := act.run.run m

namespace Action

variable {α β : Type} {m m' : Model}

theorem bind_runOn (act : Action α) (f : α → Action β) (m : Model) :
    (act >>= f).runOn m = match act.runOn m with
      | (.ok a, m₁) => (f a).runOn m₁
      | (.error failure, m₁) => (.error failure, m₁) := by
  rw [Action.runOn, ExceptT.run_bind, StateT.run_bind]
  unfold Action.runOn
  cases act.run.run m with
  | mk r m₁ => cases r <;> rfl

theorem bind_eq_ok {act : Action α} {f : α → Action β} {b : β} :
    (act >>= f).runOn m = (.ok b, m') ↔
      ∃ a m₁, act.runOn m = (.ok a, m₁) ∧ (f a).runOn m₁ = (.ok b, m') := by
  rw [bind_runOn]
  cases act.runOn m with
  | mk r m₁ =>
    cases r with
    | ok a => exact ⟨fun h ↦ ⟨a, m₁, rfl, h⟩, fun ⟨_, _, ha, h⟩ ↦ by cases ha; exact h⟩
    | error failure => exact ⟨nofun, fun ⟨_, _, ha, _⟩ ↦ by cases ha⟩

/-- Steps fail at the first one that fails. -/
theorem bind_eq_error {act : Action α} {f : α → Action β} {failure : Failure} :
    (act >>= f).runOn m = (.error failure, m') ↔ act.runOn m = (.error failure, m') ∨
      ∃ a m₁, act.runOn m = (.ok a, m₁) ∧ (f a).runOn m₁ = (.error failure, m') := by
  rw [bind_runOn]
  rcases act.runOn m with ⟨failure' | a, m₁⟩
  · refine ⟨fun h ↦ .inl ?_, fun h ↦ ?_⟩
    · obtain ⟨hfailure, hm⟩ := Prod.mk.inj h
      exact Prod.ext (congrArg Except.error (Except.error.inj hfailure)) hm
    · obtain hfailure | ⟨_, _, hok, -⟩ := h
      · obtain ⟨hfailure, hm⟩ := Prod.mk.inj hfailure
        exact Prod.ext (congrArg Except.error (Except.error.inj hfailure)) hm
      · cases hok
  · refine ⟨fun h ↦ .inr ⟨a, m₁, rfl, h⟩, fun h ↦ ?_⟩
    obtain hfailure | ⟨_, _, hok, h⟩ := h
    · cases hfailure
    · cases hok
      exact h

theorem runOn_lift (x : ModelM α) (m : Model) :
    (monadLift x : Action α).runOn m = (.ok (x.run m).1, (x.run m).2) := rfl

/-- Steps that succeed have an outcome. -/
theorem runOn_eq_ok (act : Action α) (m : Model) (h : (act.runOn m).1.isOk) :
    ∃ a, act.runOn m = (.ok a, (act.runOn m).2) := by
  rcases hact : act.runOn m with ⟨r, m'⟩
  rw [hact] at h
  cases r with
  | ok a => exact ⟨a, rfl⟩
  | error failure => cases h

/-- Steps that do not succeed have a failure. -/
theorem runOn_eq_error (act : Action α) (m : Model) (h : (act.runOn m).1.isOk = false) :
    ∃ failure, act.runOn m = (.error failure, (act.runOn m).2) := by
  rcases hact : act.runOn m with ⟨r, m'⟩
  rw [hact] at h
  cases r with
  | ok a => cases h
  | error failure => exact ⟨failure, rfl⟩

end Action

namespace Model

/-! ### Cells -/

theorem cell_setCell (m : Model) (project other : String) (c : Cell) :
    (m.setCell project c).cell other = if project = other then c else m.cell other := by
  rw [cell, setCell, Table.find?_insert]
  split <;> rfl

theorem cell_clearRoots (m : Model) (project : String) :
    m.clearRoots.cell project = (m.cell project).clearRoots := by
  have hfind : m.clearRoots.cells.find? project = (m.cells.find? project).map Cell.clearRoots := by
    rw [clearRoots, Table.find?, Table.find?, List.find?_map, Option.map_map, Option.map_map]
    rfl
  rw [cell, cell, hfind]
  cases m.cells.find? project <;> rfl

/-- The raw buildpath that the file of a project holds. -/
def fileRaw (m : Model) (project : String) : RawBuildpath :=
  { entries := (ProjectFile.load m.workspace project).entries (projectPath project)
    foreign := (ProjectFile.load m.workspace project).foreign
    formatProblem := (ProjectFile.load m.workspace project).problem? }

/-- The cell of a project once its raw buildpath was asked for. -/
def loaded (m : Model) (project : String) : Cell :=
  (m.cell project).storeRaw (m.fileRaw project) (m.workspace.stamp? (projectFilePath project))

/-- The raw buildpath of a project. -/
def raw (m : Model) (project : String) : RawBuildpath :=
  (m.cell project).raw.getD (m.fileRaw project)

theorem raw_loaded (m : Model) (project : String) :
    (m.loaded project).raw = some (m.raw project) := by
  unfold loaded raw Cell.storeRaw
  cases h : (m.cell project).raw with
  | some raw => exact h
  | none => rfl

/-- A cell with a raw buildpath stays as it is. -/
theorem loaded_of_raw {m : Model} {project : String} {raw : RawBuildpath}
    (h : (m.cell project).raw = some raw) : m.loaded project = m.cell project := by
  unfold loaded Cell.storeRaw
  rw [h]

/-- A cell that gets its raw buildpath keeps nothing that was computed. -/
theorem loaded_of_none {m : Model} {project : String} (h : (m.cell project).raw = none) :
    (m.loaded project).issued? = none ∧ (m.loaded project).roots = none := by
  unfold loaded Cell.storeRaw
  rw [h]
  exact ⟨rfl, rfl⟩

end Model

namespace ModelM

variable {m m' : Model} {project : String} {es : List Entry}

theorem loadRaw_run_eq (m : Model) (project : String) : (loadRaw project).run m =
    StateT.run (match (m.cell project).raw with
      | some raw => pure raw
      | none => do
        let w := (← get).workspace
        let file := ProjectFile.load w project
        let raw : RawBuildpath :=
          { entries := file.entries (projectPath project), foreign := file.foreign
            formatProblem := file.problem? }
        modifyCell project (·.storeRaw raw (w.stamp? (projectFilePath project)))
        pure raw : ModelM RawBuildpath) (m.setCell project (m.cell project)) := rfl

/-- Asking for a raw buildpath fills the cell of the project. -/
theorem loadRaw_run (m : Model) (project : String) :
    ∃ cells, (loadRaw project).run m = (m.raw project, { m with cells }) ∧
      ∀ other, ({ m with cells } : Model).cell other =
        if project = other then m.loaded project else m.cell other := by
  have hkept := m.cell_setCell project (c := m.cell project)
  cases hraw : (m.cell project).raw with
  | some raw =>
    refine ⟨(m.setCell project (m.cell project)).cells, ?_, fun other ↦ ?_⟩
    · rw [loadRaw_run_eq, hraw, Model.raw, hraw]
      rfl
    · rw [Model.loaded_of_raw hraw]
      exact hkept other
  | none =>
    refine ⟨((m.setCell project (m.cell project)).setCell project (m.loaded project)).cells, ?_,
      fun other ↦ ?_⟩
    · rw [loadRaw_run_eq, hraw, Model.raw, hraw]
      have hcell : (m.setCell project (m.cell project)).cell project = m.cell project := by
        rw [hkept, if_pos rfl]
      have hstore : (modifyCell project (·.storeRaw (m.fileRaw project)
          (m.workspace.stamp? (projectFilePath project)))).run (m.setCell project (m.cell project)) =
          ((), (m.setCell project (m.cell project)).setCell project (m.loaded project)) := by
        change ((), (m.setCell project (m.cell project)).setCell project
          (((m.setCell project (m.cell project)).cell project).storeRaw _ _)) = _
        rw [hcell]
        rfl
      exact congrArg (fun r : Unit × Model ↦ (m.fileRaw project, r.2)) hstore
    · exact (Model.cell_setCell _ project other _).trans (by
        split
        · rfl
        · next h => rw [hkept, if_neg h])

theorem requireProject_runOn (hexists : m.workspace.projectExists project) :
    (requireProject project).runOn m = (.ok (), m) := by
  refine Action.bind_eq_ok.mpr ⟨m, m, rfl, ?_⟩
  rw [if_neg (by simp [hexists])]
  rfl

theorem requireProject_missing (h : ¬ m.workspace.projectExists project) :
    (requireProject project).runOn m = (.error (.projectNotFound project), m) := by
  rw [requireProject, Action.bind_runOn]
  change (if !m.workspace.projectExists project then throw _ else pure () : Action Unit).runOn m = _
  rw [if_pos (by simpa using h)]
  rfl

theorem requireProject_eq_ok (h : (requireProject project).runOn m = (.ok (), m')) :
    m' = m ∧ m.workspace.projectExists project := by
  obtain ⟨m₁, m₂, hget, h⟩ := Action.bind_eq_ok.mp h
  cases hget
  split at h
  · cases h
  · next hexists =>
    cases h
    exact ⟨rfl, by simpa using hexists⟩

/-- A raw buildpath is accepted for a project that exists if it is valid. -/
theorem verify_eq_ok : (verify project es).runOn m = (.ok (), m') ↔
    m' = m ∧ m.workspace.projectExists project ∧ validate (projectPath project) es = .ok () := by
  constructor
  · intro h
    obtain ⟨⟨⟩, m₁, hproject, hrest⟩ := Action.bind_eq_ok.mp h
    obtain ⟨rfl, hexists⟩ := requireProject_eq_ok hproject
    split at hrest
    · next hvalid =>
      cases hrest
      exact ⟨rfl, hexists, hvalid⟩
    · cases hrest
  · rintro ⟨rfl, hexists, hvalid⟩
    refine Action.bind_eq_ok.mpr ⟨(), m', requireProject_runOn hexists, ?_⟩
    rw [hvalid]
    rfl

/-- Verifying a raw buildpath changes nothing. -/
theorem verify_runOn (m : Model) (project : String) (es : List Entry) :
    ((verify project es).runOn m).2 = m := by
  rw [verify, Action.bind_runOn]
  by_cases hexists : m.workspace.projectExists project
  · rw [requireProject_runOn hexists]
    dsimp only
    cases validate (projectPath project) es <;> rfl
  · rw [requireProject_missing hexists]

private theorem holding_runOn_eq {α : Type} (rules : List Rule) (act : Action α) (m : Model) :
    (holding rules act).runOn m =
      (match (act.runOn { m with held := (m.held.acquire rules).2 }).1 with
        | .ok a => pure a
        | .error failure => throw failure : Action α).runOn
          { (act.runOn { m with held := (m.held.acquire rules).2 }).2 with
            held := (act.runOn { m with held := (m.held.acquire rules).2 }).2.held.release
              (m.held.acquire rules).1 } := rfl

/-- An operation runs once the rules are held, and they are free again after it. -/
theorem holding_runOn {α : Type} (rules : List Rule) (act : Action α) (m : Model) :
    (holding rules act).runOn m =
      ((act.runOn { m with held := (m.held.acquire rules).2 }).1,
        { (act.runOn { m with held := (m.held.acquire rules).2 }).2 with
          held := (act.runOn { m with held := (m.held.acquire rules).2 }).2.held.release
            (m.held.acquire rules).1 }) := by
  rw [holding_runOn_eq]
  cases (act.runOn { m with held := (m.held.acquire rules).2 }).1 <;> rfl

/-- An operation ends under rules as it ends once they are held. -/
theorem holding_eq {α : Type} {rules : List Rule} {act : Action α} {r : Except Failure α} :
    (holding rules act).runOn m = (r, m') ↔ ∃ m₁,
      act.runOn { m with held := (m.held.acquire rules).2 } = (r, m₁) ∧
      m' = { m₁ with held := m₁.held.release (m.held.acquire rules).1 } := by
  rw [holding_runOn]
  constructor
  · intro h
    obtain ⟨hr, rfl⟩ := Prod.mk.inj h
    exact ⟨_, Prod.ext hr rfl, rfl⟩
  · rintro ⟨m₁, hact, rfl⟩
    rw [hact]

/-- Saving a project file changes the workspace, and the time that the cell remembers. -/
theorem saveFile_eq_ok (h : (saveFile project es).runOn m = (.ok (), m')) :
    ∃ isWritten w, ProjectFile.save m.workspace project es = .ok (isWritten, w) ∧
      m' = ({ m with workspace := w } : Model).setCell project
        ((m.cell project).setStamp (w.stamp? (projectFilePath project))) := by
  obtain ⟨m₁, m₂, hget, h⟩ := Action.bind_eq_ok.mp h
  cases hget
  cases hsave : ProjectFile.save m.workspace project es with
  | error failure =>
    rw [hsave] at h
    cases h
  | ok r =>
    obtain ⟨isWritten, w⟩ := r
    rw [hsave] at h
    cases h
    exact ⟨isWritten, w, rfl, rfl⟩

theorem saveFile_runOn {isWritten : Bool} {w : Workspace}
    (h : ProjectFile.save m.workspace project es = .ok (isWritten, w)) :
    (saveFile project es).runOn m = (.ok (), ({ m with workspace := w } : Model).setCell project
      ((m.cell project).setStamp (w.stamp? (projectFilePath project)))) := by
  refine Action.bind_eq_ok.mpr ⟨m, m, rfl, ?_⟩
  rw [h]
  rfl

/-- A project file that cannot be saved changes nothing. -/
theorem saveFile_cases (m : Model) (project : String) (es : List Entry) :
    (∃ failure, (saveFile project es).runOn m = (.error failure, m)) ∨
      ∃ m', (saveFile project es).runOn m = (.ok (), m') := by
  cases hsave : ProjectFile.save m.workspace project es with
  | ok r => exact .inr ⟨_, saveFile_runOn hsave⟩
  | error failure =>
    have hget : (get : Action Model).runOn m = (.ok m, m) := rfl
    refine .inl ⟨failure, ?_⟩
    rw [saveFile, Action.bind_runOn, hget]
    dsimp only
    rw [hsave]
    rfl

end ModelM

end Buildpath
