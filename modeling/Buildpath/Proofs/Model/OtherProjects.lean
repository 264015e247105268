import Buildpath.Proofs.Model.Histories
import Buildpath.Proofs.Resource.Apart

/-!
# What other projects keep

Setting the raw buildpath of a project touches the file of that project only: the project files at other
paths keep their contents, and they are read as before (`ModelM.setRawBuildpath_apart`). Names of projects
that stand for the same path share their file, and a file that is not there may come to be a folder above a
project that lies below it.
-/

namespace Buildpath

namespace ModelM

variable {m m' : Model} {project other : String}

/-- What is read from a project file depends on whether there is the project and on what its file holds. -/
theorem readRawBuildpath_congr
    (hexists : m'.workspace.projectExists project = m.workspace.projectExists project)
    (hload : ProjectFile.load m'.workspace project = ProjectFile.load m.workspace project) :
    ((readRawBuildpath project).runOn m').1 = ((readRawBuildpath project).runOn m).1 := by
  by_cases hproject : m.workspace.projectExists project
  · rw [readRawBuildpath_runOn hproject, readRawBuildpath_runOn (hexists ▸ hproject), hload]
    cases (ProjectFile.load m.workspace project).problem? <;> rfl
  · have hproject' : ¬ m'.workspace.projectExists project := hexists ▸ hproject
    rw [readRawBuildpath, Action.bind_runOn, Action.bind_runOn, requireProject_missing hproject,
      requireProject_missing hproject']

/-- Setting a raw buildpath, whether it succeeds or not, leaves what the files of projects at other paths hold as
it is. They are read as before if they are there or do not lie above the project. -/
theorem setRawBuildpath_apart {memory : Memory} (hmemory : m.workspace = .memory memory)
    (hne : projectPath project ≠ projectPath other) (entries : List Entry) (saves : Bool) :
    let m' := ((setRawBuildpath project entries saves).runOn m).2
    m'.workspace.read (projectFilePath other) = m.workspace.read (projectFilePath other) ∧
      (m.workspace.hasResource (projectFilePath other) ∨
        ¬ (projectFilePath other).isPrefixOf (projectPath project) →
          ((readRawBuildpath other).runOn m').1 = ((readRawBuildpath other).runOn m).1) := by
  intro m'
  obtain ⟨begun, m₂, held, held', rfl, hm', hcases⟩ := setRaw_cases m project entries saves
  have hworkspace : m'.workspace = m₂.workspace := by
    rw [show m' = { m₂ with held := held' } from hm']
  generalize hreplaced : ((replaceRaw project entries saves).run { m with held }).2 = m₁ at hcases
  have hfiles : m₁.workspace.files = m.workspace.files := by
    rw [← hreplaced]
    exact files_replaceRaw { m with held } project entries saves
  have hsame : ∀ m₂ : Model, m₂.workspace.files = m.workspace.files → m'.workspace = m₂.workspace →
      m'.workspace.read (projectFilePath other) = m.workspace.read (projectFilePath other) ∧
        ((readRawBuildpath other).runOn m').1 = ((readRawBuildpath other).runOn m).1 := by
    intro m₂ hfiles hworkspace
    rw [← hworkspace] at hfiles
    exact ⟨Workspace.read_of_files hfiles _, readRawBuildpath_congr
      (Workspace.projectExists_of_files hfiles other) (ProjectFile.load_of_files hfiles other)⟩
  rcases hcases with rfl | rfl | ⟨-, hsave⟩
  · exact (hsame _ rfl hworkspace).imp_right fun h _ ↦ h
  · exact (hsame _ hfiles hworkspace).imp_right fun h _ ↦ h
  · obtain ⟨isWritten, w, hsaved, rfl⟩ := saveFile_eq_ok hsave
    -- the project file is written in the workspace that the model had, but for references
    obtain ⟨memory₁, hmemory₁, -⟩ := Workspace.exists_memory_of_files hfiles hmemory
    rw [hmemory₁] at hsaved
    obtain ⟨hexists, hread, hload⟩ := ProjectFile.save_apart hsaved hne
    rw [← hmemory₁] at hexists hread hload
    have hkind := Workspace.kind?_of_files hfiles (projectFilePath other)
    have hfound : m₁.workspace.hasResource (projectFilePath other) =
        m.workspace.hasResource (projectFilePath other) := congrArg Option.isSome hkind
    change m'.workspace = w at hworkspace
    rw [hworkspace, ← Workspace.read_of_files hfiles, ← hfound]
    refine ⟨hread, fun hspared ↦ readRawBuildpath_congr ?_ ?_⟩
    · rw [hworkspace, hexists]
      exact Workspace.projectExists_of_files hfiles other
    · rw [hworkspace, hload hspared]
      exact ProjectFile.load_of_files hfiles other

/-- Two script projects without files. -/
def twoProjects (first second : String) : Model :=
  { workspace := .memory
      ((Memory.addProject {} first (some defaultNature)).addProject second (some defaultNature)) }

/-- The file of a project is written beside another project, which is read as before. -/
theorem other_project_is_apart : ∃ m' : Model,
    m' = ((setRawBuildpath "p" [.source (.parse "/p/src")] true).runOn (twoProjects "p" "q")).2 ∧
    projectPath "p" ≠ projectPath "q" ∧ ¬ (projectFilePath "q").isPrefixOf (projectPath "p") ∧
    m'.workspace.hasResource (projectFilePath "p") ∧
    m'.workspace.read (projectFilePath "q") =
      (twoProjects "p" "q").workspace.read (projectFilePath "q") ∧
    ((readRawBuildpath "q").runOn m').1 = ((readRawBuildpath "q").runOn (twoProjects "p" "q")).1 := by
  have hne : projectPath "p" ≠ projectPath "q" := by decide +kernel
  have habove : ¬ (projectFilePath "q").isPrefixOf (projectPath "p") := by decide +kernel
  have hapart := setRawBuildpath_apart (m := twoProjects "p" "q") rfl hne
    [.source (.parse "/p/src")] true
  exact ⟨_, rfl, hne, habove, by decide +kernel, hapart.1, hapart.2 (.inr habove)⟩

/-- Two names of projects may stand for one path, so that the file of one is that of the other. And the file of a
project that is not there comes to be a folder, which cannot be read, above another project. -/
theorem other_project_is_changed :
    (∃ m' : Model,
      m' = ((setRawBuildpath "p" [.source (.parse "/p/src")] true).runOn (twoProjects "p" "p/")).2 ∧
      ((twoProjects "p" "p/").workspace.read (projectFilePath "p/")).toOption = none ∧
      (m'.workspace.read (projectFilePath "p/")).isOk) ∧
    ∃ m' : Model,
      m' = ((setRawBuildpath "p/.buildpath/q" [] true).runOn (twoProjects "p" "p/.buildpath/q")).2 ∧
      ((readRawBuildpath "p").runOn (twoProjects "p" "p/.buildpath/q")).1.toOption =
        some [.source (.parse "/p")] ∧
      ((readRawBuildpath "p").runOn m').1.toOption = none :=
  ⟨⟨_, rfl, by decide +kernel, by decide +kernel⟩, _, rfl, by decide +kernel, by decide +kernel⟩

end ModelM

end Buildpath
