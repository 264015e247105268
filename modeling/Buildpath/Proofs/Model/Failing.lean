import Buildpath.Proofs.Model.Saving
import Buildpath.Proofs.Scheduling

/-!
# Saves that fail

Saving a raw buildpath fails before anything is changed if there is no such project or the buildpath is
not valid. Its last step is to write the project file: if that fails, no file has changed, but the
buildpath was replaced in the model and everything that follows from it has happened.
-/

namespace Buildpath

theorem ProjectFile.save_eq_error {w : Workspace} {project : String} {es : List Entry} {failure : Failure}
    (h : save w project es = .error failure) : ∃ error contents,
      failure = .access (projectFilePath project).toString error ∧
      w.write (projectFilePath project) contents = .error error := by
  rw [save] at h
  dsimp only at h
  split at h
  · cases h
  · split at h
    · next error hwrite => exact ⟨error, _, (Except.error.inj h).symm, hwrite⟩
    · cases h

namespace ModelM

variable {m m' : Model} {project : String} {es : List Entry} {failure : Failure}

/-- Why a raw buildpath is not accepted. Nothing changes then. -/
theorem verify_eq_error (h : (verify project es).runOn m = (.error failure, m')) :
    m' = m ∧ (failure = .projectNotFound project ∧ ¬ m.workspace.projectExists project ∨
      ∃ problem, failure = .status problem ∧ validate (projectPath project) es = .error problem) := by
  have hunchanged := verify_runOn m project es
  rw [h] at hunchanged
  refine ⟨hunchanged, ?_⟩
  obtain hmissing | ⟨⟨⟩, m₁, -, hinvalid⟩ := Action.bind_eq_error.mp h
  · by_cases hexists : m.workspace.projectExists project
    · rw [requireProject_runOn hexists] at hmissing
      cases hmissing
    · rw [requireProject_missing hexists] at hmissing
      exact .inl ⟨(Except.error.inj (Prod.mk.inj hmissing).1).symm, hexists⟩
  · cases hvalid : validate (projectPath project) es with
    | ok _ =>
      rw [hvalid] at hinvalid
      cases hinvalid
    | error problem =>
      rw [hvalid] at hinvalid
      exact .inr ⟨problem, (Except.error.inj (Prod.mk.inj hinvalid).1).symm, rfl⟩

/-- A project file that cannot be saved changes nothing. -/
theorem saveFile_eq_error (h : (saveFile project es).runOn m = (.error failure, m')) :
    m' = m ∧ ProjectFile.save m.workspace project es = .error failure := by
  obtain hget | ⟨m₀, m₁, hget, h⟩ := Action.bind_eq_error.mp h
  · cases hget
  · cases hget
    cases hsave : ProjectFile.save m.workspace project es with
    | ok r =>
      rw [hsave] at h
      cases h
    | error failure' =>
      rw [hsave] at h
      obtain ⟨hfailure, hm⟩ := Prod.mk.inj h
      exact ⟨hm.symm, congrArg Except.error (Except.error.inj hfailure)⟩

/-- A save that fails changes nothing if the project is missing or the buildpath is not valid. Otherwise
the project file cannot be written, and no file has changed. -/
theorem setRawBuildpath_fails
    (h : (setRawBuildpath project es true).runOn m = (.error failure, m')) :
    ((failure = .projectNotFound project ∧ ¬ m.workspace.projectExists project ∨
        ∃ problem, failure = .status problem ∧ validate (projectPath project) es = .error problem) ∧
      { m' with held := m.held } = m ∧ (HeldRules.Positive m.held.counts → m' = m)) ∨
    (∃ error contents, failure = .access (projectFilePath project).toString error ∧
        m'.workspace.write (projectFilePath project) contents = .error error) ∧ m.SameFiles m' := by
  rw [setRawBuildpath_eq, holding_eq] at h
  obtain ⟨m₁, h, rfl⟩ := h
  obtain hverify | ⟨⟨⟩, m₂, hverify, h⟩ := Action.bind_eq_error.mp h
  · obtain ⟨rfl, hreason⟩ := verify_eq_error hverify
    refine .inl ⟨hreason, rfl, fun hpositive ↦ ?_⟩
    dsimp only
    rw [HeldRules.release_acquire _ _ hpositive]
  · obtain ⟨rfl, -⟩ := verify_eq_ok.mp hverify
    obtain hreplace | ⟨g, m₃, hreplace, h⟩ := Action.bind_eq_error.mp h
    · rw [Action.runOn_lift] at hreplace
      cases hreplace
    · rw [Action.runOn_lift] at hreplace
      cases hreplace
      obtain hsave | ⟨⟨⟩, m₄, -, h⟩ := Action.bind_eq_error.mp h
      · obtain ⟨rfl, hfailure⟩ := saveFile_eq_error hsave
        exact .inr ⟨ProjectFile.save_eq_error hfailure, files_replaceRaw { m with held := _ } project es true⟩
      · cases h

/-- A source folder of another project is not accepted, and nothing changes. -/
theorem foreign_source_changes_nothing : ∃ problem m', validate (projectPath "p")
      [.source (.parse "/q/src")] = .error problem ∧
    (setRawBuildpath "p" [.source (.parse "/q/src")] true).runOn onlyProject =
      (.error (.status problem), m') ∧ m' = onlyProject := by
  have hfailure : ((setRawBuildpath "p" [.source (.parse "/q/src")] true).runOn onlyProject).1 =
      .error (.status (.invalidPath (.parse "/q/src") "source folder must be inside the project")) := by
    rfl
  have hrun := Prod.ext (y := (_, ((setRawBuildpath "p" [.source (.parse "/q/src")] true).runOn
    onlyProject).2)) hfailure rfl
  refine ⟨_, _, by rfl, hrun, ?_⟩
  obtain ⟨-, -, hsame⟩ | ⟨⟨_, _, haccess, -⟩, -⟩ := setRawBuildpath_fails hrun
  · exact hsame nofun
  · cases haccess

/-- A project in a directory, with a listener. Its project file cannot be written: there is a directory
in its place. -/
def blockedProject : Model :=
  { listeners := 1
    workspace := .directory
      { root := "/ws"
        tree :=
          { nodes := ⟨[(["ws"], .directory 1), (["ws", "p"], .directory 1),
              (["ws", "p", ".buildpath"], .directory 1)]⟩ } } }

/-- A raw buildpath whose file cannot be written is remembered all the same, and the listener is told. -/
theorem failed_write_is_announced : ∃ failure m',
    (setRawBuildpath "p" [.source (.parse "/p/src")] true).runOn blockedProject = (.error failure, m') ∧
    ((rawBuildpath "p").runOn blockedProject).1.toOption = some [.source (.parse "/p")] ∧
    ((rawBuildpath "p").runOn m').1.toOption = some [.source (.parse "/p/src")] ∧
    blockedProject.log.length = 0 ∧ m'.log.length = 1 := by
  obtain ⟨failure, hrun⟩ := Action.runOn_eq_error
    (setRawBuildpath "p" [.source (.parse "/p/src")] true) blockedProject (by decide +kernel)
  exact ⟨failure, _, hrun, by decide +kernel, by decide +kernel, rfl, by decide +kernel⟩

end ModelM

end Buildpath
