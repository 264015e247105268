import Buildpath.Proofs.Model.FileEdits
import Buildpath.Proofs.Model.ListingHistories

/-!
# Children along runs

A run does operations while others edit project files, and takes over what they edit (`Model.Passes`). The
children of a source folder that is told of a script project are those in its folder that the entry at its path
does not exclude, at any time (`ModelM.children_stay_fresh`).
-/

namespace Buildpath

variable {m m' m₀ : Model} {p project : String} {e : Entry} {es : List Entry} {w : Workspace}

namespace Model

/-! ### Project files -/

/-- Whether a workspace differs from that of a model by project files only, as far as this matters to a script
project: the project stays one, there are the same containers with the same children apart from project files,
its variables stand for the same, and libraries bring along the same. -/
structure Beside (m : Model) (project : String) (w : Workspace) : Prop where
  listed : project ∈ w.scriptProjects
  isThere : w.projectExists project
  location : w.projectLocation? project = m.workspace.projectLocation? project
  variableEntries : ∀ e, e.kind = .variableRef → (m.variableValues.entry? w e).map Entry.site =
    (m.variableValues.entry? m.workspace e).map Entry.site
  libraries : m.followsLibraries → ∀ path external,
    w.chainedLibraries path external = m.workspace.chainedLibraries path external
  isContainer : ∀ path, w.isContainer path = m.workspace.isContainer path
  children : ∀ path members, m.workspace.children path = .ok members → ∃ members',
    w.children path = .ok members' ∧ withoutProjectFiles members' = withoutProjectFiles members

theorem Beside.of_files (h : m.Beside project w) (hfiles : m'.workspace.files = m.workspace.files)
    (hvariables : m'.variableValues = m.variableValues)
    (hlibraries : m'.followsLibraries = m.followsLibraries) : m'.Beside project w where
  listed := h.listed
  isThere := h.isThere
  location := h.location.trans (Workspace.projectLocation?_of_files hfiles project).symm
  variableEntries e hkind := by
    rw [hvariables, entry?_of_files hfiles]
    exact h.variableEntries e hkind
  libraries hf := by
    rw [Workspace.chainedLibraries_of_files hfiles]
    exact h.libraries (hlibraries ▸ hf)
  isContainer path := (h.isContainer path).trans (Workspace.isContainer_of_files hfiles path).symm
  children path members hmembers := h.children path members
    ((Workspace.children_of_files hfiles path).symm.trans hmembers)

theorem Lists.beside {paths : List Path} (h : m.Lists e paths) (hbeside : m.Beside project w) :
    ({ m with workspace := w } : Model).Lists e paths := by
  obtain ⟨members, hmembers, hpaths⟩ := h
  obtain ⟨members', hmembers', hsame⟩ := hbeside.children e.path members hmembers
  refine ⟨members', hmembers', hpaths.trans ?_⟩
  simp only [hbeside.isContainer]
  exact (withoutProjectFiles_sort _ hsame).symm

/-- A workspace that differs by project files keeps children right. -/
theorem Coherent.beside (h : m.Coherent project) (hbeside : m.Beside project w) :
    ({ m with workspace := w } : Model).Coherent project := by
  have hinert : ({ m with workspace := w } : Model).Inert := h.inert.of_same rfl rfl rfl rfl
  refine ⟨hinert, hbeside.listed, hbeside.isThere, fun i hi ↦ ?_, h.known,
    fun path paths hkept e he hkind hpath ↦ ?_⟩
  · refine (h.backed i hi).imp_right fun hbrings fs hfs f hf hsource ↦ ?_
    obtain ⟨hproject, hthere, hentry⟩ := hbrings fs hfs f hf hsource
    exact ⟨hproject, (hbeside.isContainer f.path).trans hthere, hentry⟩
  · -- the raw buildpath is known, so it does not follow the file
    have hraw : ({ m with workspace := w } : Model).raw project = m.raw project := by
      obtain ⟨raw, hknown⟩ := Option.isSome_iff_exists.mp (h.known path paths hkept)
      rw [Model.raw, Model.raw, hknown]
      exact (congrArg (Option.getD · _) hknown).trans rfl
    have hshapes : ({ m with workspace := w } : Model).shapesOf project = m.shapesOf project :=
      ModelM.shapesOf_of_workspace h.inert.toBare (hbeside.isThere.trans h.isThere.symm) hbeside.location
        (by rw [issued?_loaded, issued?_loaded]; rfl) hraw (fun e _ ↦ hbeside.variableEntries e)
        hbeside.libraries
    rw [hshapes] at he
    exact (h.lists path paths hkept e he hkind hpath).beside hbeside

/-- Putting the file of a project with a plain name into a workspace in memory changes nothing else, if no variable
stands for the file. -/
theorem Beside.addFile {memory : Memory} (hmemory : m.workspace = .memory memory) (hp : HasPlainName p)
    (hlisted : project ∈ m.workspace.scriptProjects) (hexists : m.workspace.projectExists project)
    (hfile : m.workspace.isContainer (projectFilePath p) = false)
    (hvariables : ∀ e : Entry, e.kind = .variableRef →
      m.variableValues.path? e.path ≠ some (projectFilePath p))
    (hlibraries : m.followsLibraries = false) (contents : ByteArray) :
    m.Beside project (.memory (memory.addFile (projectFilePath p) contents)) := by
  rw [hmemory] at hlisted hexists hfile
  have hkind := Workspace.kind?_addFile hp memory contents
  have hchildren := fun path members ↦ @Workspace.children_addFile path p hp memory contents members hfile
  have hsame := Workspace.addFile_projectFile hp memory contents
  have hprojects : (memory.addFile (projectFilePath p) contents).projects = memory.projects := by rw [hsame]
  have hroot : (memory.addFile (projectFilePath p) contents).locationRoot = memory.locationRoot := by
    rw [hsame]
  generalize memory.addFile (projectFilePath p) contents = memory' at hkind hchildren hprojects hroot ⊢
  refine ⟨?_, ?_, ?_, fun e he ↦ congrArg (Option.map Entry.site) ?_, fun hf ↦ ?_,
    fun path ↦ ?_, fun path members hmembers ↦ ?_⟩
  · have hscript : (Workspace.memory memory').isScript = (Workspace.memory memory).isScript := by
      funext name
      simp only [Workspace.isScript, Workspace.nature?, hprojects]
    rwa [Workspace.scriptProjects, Workspace.projectNames, hprojects, hscript]
  · rwa [Workspace.projectExists, hprojects]
  · rw [hmemory, Workspace.projectLocation?, Workspace.location?, Memory.location?, hroot]
    rfl
  · rw [hmemory]
    unfold Variables.entry?
    rw [if_neg (by simp [he]), if_neg (by simp [he])]
    cases hpath : m.variableValues.path? e.path with
    | none => rfl
    | some path =>
      have hne : projectFilePath p ≠ path := fun heq ↦ hvariables e he (heq ▸ hpath)
      have hthere : (Workspace.memory memory').projectExists = (Workspace.memory memory).projectExists :=
        congrArg Table.contains hprojects
      simp only [Option.bind_eq_bind, Option.bind_some, Variables.isProjectPath, hthere,
        (hkind path).trans (if_neg hne)]
      rfl
  · rw [hlibraries] at hf
    cases hf
  · rw [hmemory, Workspace.isContainer, Workspace.isContainer, hkind]
    split
    · next heq => rw [← heq]; exact hfile.symm
    · rfl
  · rw [hmemory] at hmembers
    exact hchildren path members hmembers

end Model

namespace ModelM

open Model

/-- The time of a file does not matter to what is kept. -/
theorem keepsListings_setStamp (m : Model) (p : String) (stamp : Option Nat) :
    KeepsListings project m (m.setCell p ((m.cell p).setStamp stamp)) := by
  refine ⟨CacheFrame.caches m p _ rfl rfl rfl rfl, fun hm ↦ ?_⟩
  refine .of_less (hm.of_same rfl rfl rfl rfl) rfl (fun _ _ ↦ id) (.of_cell ?_ ?_)
  all_goals
    rw [cell_setCell]
    split
  · next hp => exact hp ▸ rfl
  · rfl
  · next hp => exact hp ▸ rfl
  · rfl

/-- Setting a raw buildpath keeps children right, whether the file is written or not. -/
private theorem coherent_setRaw (h : m.Coherent project) {saves : Bool}
    (hloses : p = project → m.LosesNothing p es) (hm' : m' = ((setRawBuildpath p es saves).runOn m).2)
    (hbeside : saves → m.Beside project m'.workspace) : m'.Coherent project := by
  obtain ⟨begun, m₂, held, held', rfl, hend, hcases⟩ := setRaw_cases m p es saves
  have hheld : m.Resembles { m with held } := .of_held held
  have hbegun := h.of_listings (Looks.holds (R := KeepsListings project) m held)
  rw [hend] at hm'
  subst hm'
  suffices hm₂ : m₂.Coherent project from
    hm₂.of_listings (Looks.holds (R := KeepsListings project) m₂ held')
  obtain ⟨hreplaced, hfiles⟩ := coherent_replaceRaw hbegun p es saves fun hp ↦ (hloses hp).of_resembles hheld
  rcases hcases with rfl | rfl | ⟨hsaves, hsave⟩
  · exact hbegun
  · exact hreplaced
  · have hsince : Model.Since p { m with held } ((replaceRaw p es saves).run { m with held }).2 :=
      moves_replaceRaw since_resolution (fun _ _ _ ↦ ⟨.refl, rfl, rfl, rfl, rfl, rfl, rfl⟩) p es saves
        { m with held }
    obtain ⟨isWritten, w, -, rfl⟩ := saveFile_eq_ok hsave
    have hwritten := (hbeside hsaves).of_files hfiles hsince.variableValues hsince.followsLibraries
    exact (hreplaced.beside hwritten).of_listings (keepsListings_setStamp _ p _)

/-- Closing a project forgets its cell, its bindings and the children of its fragments. -/
private theorem closeProject_run (m : Model) (p : String) : ∃ cells,
    ((closeProject p).run m).2 = { m with
      cells, registry := m.registry.removeProject p
      children := m.children.filterKeys fun key ↦ key.1 ≠ p } ∧
    ∀ q, ({ m with cells } : Model).cell q = if p = q then {} else (m.cell q).clearRoots :=
  ⟨_, rfl, cell_closeProject m p⟩

/-- Closing another project keeps shapes. -/
private theorem shapesOf_closed (hm : m.Bare) (hp : p ≠ project) {cells : Table String Cell}
    {children : Table (String × Path) (List Path)}
    (hcell : ({ m with cells } : Model).cell project = (m.cell project).clearRoots) :
    ({ m with cells, registry := m.registry.removeProject p, children } : Model).shapesOf project =
      m.shapesOf project := by
  have hbare : ({ m with cells, registry := m.registry.removeProject p, children } : Model).Bare :=
    ⟨hm.initializers, hm.isIdle, hm.nesting⟩
  have hraw : (({ m with cells } : Model).cell project).raw = (m.cell project).raw :=
    (congrArg Cell.raw hcell).trans rfl
  have hissued : (({ m with cells } : Model).cell project).issued? = (m.cell project).issued? :=
    (congrArg Cell.issued? hcell).trans rfl
  have hloaded : (({ m with cells } : Model).loaded project).issued? = (m.loaded project).issued? := by
    rw [issued?_loaded, issued?_loaded, hraw, hissued]
  rcases shapesOf_kept hm hbare rfl hloaded with hsame | ⟨hshapes', hshapes⟩
  · exact hsame
  · have hraw' : ({ m with cells, registry := m.registry.removeProject p, children } : Model).raw project =
        m.raw project := congrArg (Option.getD · (m.fileRaw project)) hraw
    rw [hshapes', hshapes, shapesAnew, shapesAnew, hbare.fresh_eq, hm.fresh_eq, hraw']
    refine shapes_of_bindings ⟨rfl, rfl, rfl, rfl, rfl⟩ (fun _ _ _ ↦ rfl) fun e _ _ ↦ ?_
    have hkept : (m.registry.removeProject p).bindings.find? (project, e.path) =
        m.registry.bindings.find? (project, e.path) :=
      (Table.find?_filterKeys _ _ _).trans (if_pos (decide_eq_true (Ne.symm hp)))
    exact congrArg containerEntries (by rw [Registry.container?, Registry.container?, hkept])

/-- Closing projects keeps children right. -/
private theorem coherent_closeProject (h : m.Coherent project) (p : String) :
    ((closeProject p).run m).2.Coherent project := by
  obtain ⟨cells, hrun, hcell⟩ := closeProject_run m p
  have hown := hcell project
  rw [hrun]
  have hfound : ∀ path paths, (m.children.filterKeys fun key ↦ key.1 ≠ p).find? (project, path) = some paths →
      p ≠ project ∧ m.children.find? (project, path) = some paths := by
    intro path paths hkept
    rw [Table.find?_filterKeys] at hkept
    split at hkept
    · next hne => exact ⟨Ne.symm (of_decide_eq_true hne), hkept⟩
    · cases hkept
  split at hown
  · next hp =>
    -- nothing is kept of the project itself
    refine ⟨h.inert.of_same rfl rfl rfl rfl, h.listed, h.isThere, fun i hi ↦ ?_,
      fun path paths hkept ↦ absurd hp (hfound path paths hkept).1,
      fun path paths hkept ↦ absurd hp (hfound path paths hkept).1⟩
    have hissued := congrArg Cell.issued? hown
    cases hissued.symm.trans hi
  · next hp =>
    rw [Coherent, shapesOf_closed h.inert.toBare hp hown]
    refine h.of_backs (.of_less (h.inert.of_same rfl rfl rfl rfl) rfl
      (fun path paths hkept ↦ (hfound path paths hkept).2) (.of_cell ((congrArg Cell.issued? hown).trans rfl)
        ((congrArg Cell.fragments hown).trans rfl))) fun hknown ↦ ?_
    have hraw := congrArg Cell.raw hown
    exact hraw ▸ hknown

/-- Taking over entries of a file keeps children right. -/
private theorem coherent_adopt (h : m.Coherent project) (raw : RawBuildpath) (stamp : Option Nat)
    (hloses : p = project → m.LosesNothing p es) :
    ((adopt p raw es stamp).runOn m).2.Coherent project := by
  let m₁ : Model := { m with markers := m.markers.flush p false true }
  have hflushed : KeepsListings project m m₁ := Scene.marked m _
  have hm₁ : m₁.Coherent project := h.of_listings hflushed
  have hloses₁ : p = project → m₁.LosesNothing p es := fun hp ↦
    (hloses hp).of_resembles (hflushed.1 h.inert.toBare).toResembles
  have hrun : ((adopt p raw es stamp).runOn m).2 = ((do
      if raw.entries = es then
        modifyCell p (·.setStamp stamp)
        return none
      let g ← setRawBuildpath p es false
      modifyCell p (·.setStamp stamp)
      return some g : Action (Option GeneratedDelta)).runOn m₁).2 := rfl
  rw [hrun]
  clear_value m₁
  split
  · exact hm₁.of_listings (keepsListings_setStamp m₁ p stamp)
  · have hset : ((setRawBuildpath p es false).runOn m₁).2.Coherent project :=
      coherent_setRaw hm₁ hloses₁ rfl nofun
    rw [Action.bind_runOn]
    rcases hrun₁ : (setRawBuildpath p es false).runOn m₁ with ⟨failure | g, m₂⟩
    · rw [hrun₁] at hset
      exact hset
    · rw [hrun₁] at hset
      exact hset.of_listings (keepsListings_setStamp m₂ p stamp)

/-- Taking over an edit keeps children right. -/
private theorem coherent_fileChanged (h : m.Coherent project) (hloses : p = project →
    m.LosesNothing p ((ProjectFile.load m.workspace p).entries (projectPath p))) :
    ((fileChanged p).runOn m).2.Coherent project := by
  by_cases hexists : m.workspace.projectExists p
  · have htouched : KeepsListings project m (m.setCell p (m.cell p)) := Ground.touched m p
    have hm₁ := h.of_listings htouched
    rw [fileChanged_runOn hexists]
    generalize m.setCell p (m.cell p) = m₁ at htouched hm₁ ⊢
    cases (m.cell p).raw with
    | none => exact hm₁
    | some raw =>
      dsimp only
      split
      · exact hm₁
      cases (ProjectFile.load m.workspace p).problem? with
      | none =>
        exact coherent_adopt hm₁ raw _ fun hp ↦
          (hloses hp).of_resembles (htouched.1 h.inert.toBare).toResembles
      | some problem =>
        have hshown := hm₁.of_listings (Scene.marked m₁ (m₁.markers.create p problem (m₁.optionsOf p)))
        exact hshown.of_listings (keepsListings_setStamp _ p _)
  · have hrun : (fileChanged p).runOn m = (.error (.projectNotFound p), m) := by
      rw [fileChanged, Action.bind_runOn, requireProject_missing hexists]
    rw [hrun]
    exact h

/-- Queries keep children right. -/
private theorem coherent_query (h : m.Coherent project) (query : Query)
    (hsuits : ∀ f, query = .children f → f.project = project → m.Suits f) :
    (query.steps.run m).2.Coherent project := by
  by_cases hown : ∃ f, query = .children f ∧ f.project = project
  · obtain ⟨f, rfl, rfl⟩ := hown
    exact coherent_fragmentChildren h (hsuits f rfl rfl)
  · exact h.of_listings (keepsListings_query query (fun f hf hproject ↦ hown ⟨f, hf, hproject⟩) m)

end ModelM

/-! ### Runs -/

/-- What happens along a run: an operation, a change of the workspace by others, or that an edit of the file of a
project is taken over. -/
inductive Incident where
  | operation (op : Operation)
  | edit (w : Workspace)
  | takeOver (project : String)

/-- The model after an incident. -/
def Incident.apply : Incident → Model → Model
  | operation op, m => op.apply m
  | edit w, m => { m with workspace := w }
  | takeOver project, m => ((ModelM.fileChanged project).runOn m).2

namespace Model

/-- Whether incidents lead from one model to another. Each has to be allowed where it happens. -/
inductive Passes (allowed : Model → Incident → Prop) (m₀ : Model) : Model → Prop where
  | start : Passes allowed m₀ m₀
  | next {m : Model} {incident : Incident} (passes : Passes allowed m₀ m)
    (isAllowed : allowed m incident) : Passes allowed m₀ (incident.apply m)

theorem Passes.operation {allowed : Model → Incident → Prop} (h : m₀.Passes allowed m) {op : Operation}
    (hop : allowed m (.operation op)) : m₀.Passes allowed (op.apply m) :=
  .next h hop

/-- Whether an incident does no harm to the children that are kept for a project. Nothing but project files may
change in the workspace. If the project gets another raw buildpath with an entry that has no binding, no binding
of a container may be dropped that it mentions and that holds anything. Children are asked for as those of a
source folder, unless the project is known to have no source entry at the path. -/
def DoesNoHarm (project : String) (m : Model) : Incident → Prop
  | .operation (.setRaw p entries saves) => (p = project → m.LosesNothing p entries) ∧
    (saves → m.Beside project ((Operation.setRaw p entries saves).apply m).workspace)
  | .operation (.setContainer _ _) | .operation (.setVariables _) | .operation (.close _) => True
  | .operation (.put _ _) => False
  | .operation (.ask query) => ∀ f, query = .children f → f.project = project → m.Suits f
  | .edit w => m.Beside project w
  | .takeOver p => p = project →
    m.LosesNothing p ((ProjectFile.load m.workspace p).entries (projectPath p))

/-- One incident keeps children right. -/
theorem Coherent.step (h : m.Coherent project) {incident : Incident} (hharm : m.DoesNoHarm project incident) :
    (incident.apply m).Coherent project := by
  cases incident with
  | operation op =>
    cases op with
    | setRaw p entries saves => exact ModelM.coherent_setRaw h hharm.1 rfl hharm.2
    | setContainer path containers => exact ModelM.coherent_setContainer h path containers
    | setVariables values => exact ModelM.coherent_setVariables h values
    | close p => exact ModelM.coherent_closeProject h p
    | put path containers => cases hharm
    | ask query => exact ModelM.coherent_query h query hharm
  | edit w => exact h.beside hharm
  | takeOver p => exact ModelM.coherent_fileChanged h hharm

/-- Before anything is known children are right. -/
theorem Coherent.of_empty (hm : m.Inert) (hcells : m.cells = .empty) (hchildren : m.children = .empty)
    (hlisted : project ∈ m.workspace.scriptProjects) (hexists : m.workspace.projectExists project) :
    m.Coherent project := by
  have hcell : m.cell project = {} := by rw [cell, hcells]; rfl
  have hclosed : ∀ path paths, m.children.find? (project, path) ≠ some paths := by
    intro path paths hkept
    rw [hchildren] at hkept
    cases hkept
  refine ⟨hm, hlisted, hexists, fun i hi ↦ ?_, fun path paths hkept ↦ absurd hkept (hclosed path paths),
    fun path paths hkept ↦ absurd hkept (hclosed path paths)⟩
  rw [hcell] at hi
  cases hi

end Model

namespace ModelM

open Model

/-- Where no initializer runs and no factory makes source folders, the children of each source folder among the
fragments of a script project are those in its folder that the entry at its path does not exclude, in ascending
order and apart from project files, after every run from a model that knows nothing yet. -/
theorem children_stay_fresh (hm : m₀.Inert) (hcells : m₀.cells = .empty) (hchildren : m₀.children = .empty)
    (hlisted : project ∈ m₀.workspace.scriptProjects) (hexists : m₀.workspace.projectExists project)
    (hpasses : m₀.Passes (DoesNoHarm project) m) :
    ∃ fs m', (fragments project).runOn m = (.ok fs, m') ∧ ∀ f ∈ fs, f.kind = .source →
      ∃ e paths, ((entryFor project f.path).runOn m').1 = .ok (some e) ∧ e.path = f.path ∧
        ((fragmentChildren f).runOn m').1 = .ok paths ∧ m'.Lists e paths := by
  suffices hcoherent : m.Coherent project from coherent_answers hcoherent
  induction hpasses with
  | start => exact .of_empty hm hcells hchildren hlisted hexists
  | next _ hharm ih => exact ih.step hharm

/-- A project with a folder that holds a file and a folder. -/
def folderMemory : Memory :=
  ((Memory.addProject {} "p" (some defaultNature)).addFile (.parse "/p/src/a") .empty).addFolder
    (.parse "/p/src/b")

/-- The project in a model that knows nothing yet. -/
def folderProject : Model := { workspace := .memory folderMemory, followsLibraries := false }

/-- The folder as a source folder. -/
def folderEntry : Entry := .source (.parse "/p/src")

/-- The source folder among the fragments of the project. -/
def folderFragment : Fragment := ⟨"p", .parse "/p/src", .source⟩

/-- A container that brings in the source folder, with some exclusions. -/
def folderContainer (exclusions : List String) : Container :=
  .ofEntries (.parse "X/x") .application [{ folderEntry with exclusions }]

/-- An entry of the container, the folder itself, and a variable that has no value. -/
def folderEntries (exported : Bool) : List Entry :=
  [{ kind := .container, path := .parse "X/x", exported }, folderEntry,
    { kind := .variableRef, path := .parse "V/v" }]

/-- The raw buildpath is set, and the project is bound to a container that excludes the folder below. -/
def boundFolder (m : Model) : Model :=
  (Operation.setContainer (.parse "X/x") [("p", some (folderContainer ["b"]))]).apply
    ((Operation.setRaw "p" (folderEntries false) false).apply m)

/-- The children of the source folder are asked for then. -/
def listedFolder (m : Model) : Model := (Operation.ask (.children folderFragment)).apply (boundFolder m)

/-- Others put a project file that is no text after the raw buildpath was asked for, and that is taken over. -/
def editedFolder : Model :=
  (Incident.takeOver "p").apply
    ((Incident.edit (.memory (folderMemory.addFile (projectFilePath "p") noText))).apply
      ((Operation.ask (.raw "p")).apply folderProject))

/-- The project is bound to a container that excludes nothing after the children were asked for. -/
def reboundFolder : Model :=
  (Operation.setContainer (.parse "X/x") [("p", some (folderContainer []))]).apply (listedFolder editedFolder)

/-- The container is exported after the children were asked for. -/
def exportedFolder : Model :=
  (Operation.setRaw "p" (folderEntries true) false).apply (listedFolder folderProject)

private theorem folderProject_starts : folderProject.Inert ∧ folderProject.cells = .empty ∧
    folderProject.children = .empty ∧ "p" ∈ folderProject.workspace.scriptProjects ∧
    folderProject.workspace.projectExists "p" := by
  refine ⟨⟨⟨rfl, rfl, by decide⟩, fun _ _ h ↦ by cases h⟩, rfl, rfl, ?_, by decide⟩
  simp only [Workspace.scriptProjects, projectNames_eq_insertionSort]
  decide

private theorem editedFolder_passes : folderProject.Passes (DoesNoHarm "p") editedFolder := by
  have hasked : folderProject.Passes (DoesNoHarm "p") ((Operation.ask (.raw "p")).apply folderProject) :=
    .operation .start nofun
  have hedit : Beside ((Operation.ask (.raw "p")).apply folderProject) "p"
      (.memory (folderMemory.addFile (projectFilePath "p") noText)) := by
    refine .addFile (m := (Operation.ask (.raw "p")).apply folderProject) rfl hasPlainName_p folderProject_starts.2.2.2.1 folderProject_starts.2.2.2.2
      (by decide) (fun e _ ↦ ?_) rfl noText
    change Variables.path? .empty e.path ≠ _
    unfold Variables.path?
    cases e.path.firstSegment? <;> nofun
  exact .next (.next hasked hedit) fun _ ↦ .inr (.of_plain (by decide))

private theorem reboundFolder_passes : folderProject.Passes (DoesNoHarm "p") reboundFolder := by
  have hset : editedFolder.DoesNoHarm "p" (.operation (.setRaw "p" (folderEntries false) false)) := by
    refine ⟨fun _ ↦ .inr fun e _ _ old hold hkind ↦ absurd hkind ?_, nofun⟩
    revert old
    decide
  have hsuits : ∀ m : Model, m.DoesNoHarm "p" (.operation (.ask (.children folderFragment))) :=
    fun m f hf _ hkind ↦ by cases hf; exact absurd rfl hkind
  have hbinds : ∀ (m : Model) path containers,
      m.DoesNoHarm "p" (.operation (.setContainer path containers)) := fun _ _ _ ↦ trivial
  exact .operation (.operation (.operation (.operation editedFolder_passes hset) (hbinds _ _ _)) (hsuits _))
    (hbinds _ _ _)

/-- The children that were listed first are not kept. -/
private theorem reboundFolder_children :
    ((fragmentChildren folderFragment).runOn (listedFolder editedFolder)).1 = .ok [.parse "/p/src/a"] ∧
    ((fragmentChildren folderFragment).runOn reboundFolder).1 =
      .ok [.parse "/p/src/a", .parse "/p/src/b"] := by
  simp only [reboundFolder, listedFolder, boundFolder, editedFolder, Incident.apply, Operation.apply,
    Operation.steps, Query.steps, setRawBuildpath, applyChange, setContainer, refresh, fileChanged,
    updateReferences, validateCycles, cycleParticipants, fragmentChildren, listFragment, Model.membersOf,
    Workspace.children, Memory.childrenIn, Workspace.scriptProjects, projectNames_eq_insertionSort,
    sortNames_eq_insertionSort, Path.sort_eq_insertionSort]
  decide +kernel

/-- The folder below is a child once the container does not exclude it any longer, although the children were
asked for before. -/
theorem rebound_children_are_fresh : folderProject.Inert ∧ folderProject.cells = .empty ∧
    folderProject.children = .empty ∧ "p" ∈ folderProject.workspace.scriptProjects ∧
    folderProject.workspace.projectExists "p" ∧
    folderProject.Passes (DoesNoHarm "p") reboundFolder ∧
    (∃ fs m', (fragments "p").runOn reboundFolder = (.ok fs, m') ∧ ∀ f ∈ fs, f.kind = .source →
      ∃ e paths, ((entryFor "p" f.path).runOn m').1 = .ok (some e) ∧ e.path = f.path ∧
        ((fragmentChildren f).runOn m').1 = .ok paths ∧ m'.Lists e paths) ∧
    ((fragmentChildren folderFragment).runOn (listedFolder editedFolder)).1 = .ok [.parse "/p/src/a"] ∧
    ((fragmentChildren folderFragment).runOn reboundFolder).1 =
      .ok [.parse "/p/src/a", .parse "/p/src/b"] := by
  obtain ⟨hinert, hcells, hchildren, hlisted, hexists⟩ := folderProject_starts
  exact ⟨hinert, hcells, hchildren, hlisted, hexists, reboundFolder_passes,
    children_stay_fresh hinert hcells hchildren hlisted hexists reboundFolder_passes,
    reboundFolder_children⟩

private theorem exportedFolder_runs :
    ((fragments "p").runOn exportedFolder).1 = .ok [folderFragment] ∧
    ((entryFor "p" folderFragment.path).runOn ((fragments "p").runOn exportedFolder).2).1 =
      .ok (some folderEntry) ∧
    ((fragmentChildren folderFragment).runOn ((fragments "p").runOn exportedFolder).2).1 =
      .ok [.parse "/p/src/a"] ∧
    ((fragments "p").runOn exportedFolder).2.workspace.children folderEntry.path =
      .ok [.parse "/p/src/a", .parse "/p/src/b"] := by
  simp only [exportedFolder, listedFolder, boundFolder, Operation.apply, Operation.steps, Query.steps,
    setRawBuildpath, applyChange, setContainer, refresh, updateReferences, validateCycles,
    cycleParticipants, fragmentChildren, listFragment, Model.membersOf, Workspace.children,
    Memory.childrenIn, Workspace.scriptProjects, projectNames_eq_insertionSort, sortNames_eq_insertionSort,
    Path.sort_eq_insertionSort]
  decide +kernel

/-- Exporting the container drops its binding once the project was resolved with it, so that no fragment is
closed. As a variable has no value the project is resolved anew, and then its source folder excludes nothing. But
the folder below is left out of the children that were asked for before. -/
theorem exported_children_are_stale : folderProject.Inert ∧ folderProject.cells = .empty ∧
    folderProject.children = .empty ∧ "p" ∈ folderProject.workspace.scriptProjects ∧
    folderProject.workspace.projectExists "p" ∧
    folderProject.Passes (fun _ incident ↦ ∃ op, incident = .operation op) exportedFolder ∧
    ∃ m', (fragments "p").runOn exportedFolder = (.ok [folderFragment], m') ∧
      ((entryFor "p" folderFragment.path).runOn m').1 = .ok (some folderEntry) ∧
      ((fragmentChildren folderFragment).runOn m').1 = .ok [.parse "/p/src/a"] ∧
      ¬ m'.Lists folderEntry [.parse "/p/src/a"] := by
  obtain ⟨hinert, hcells, hchildren, hlisted, hexists⟩ := folderProject_starts
  obtain ⟨hfragments, hentry, hkept, hmembers⟩ := exportedFolder_runs
  rcases hrun : (fragments "p").runOn exportedFolder with ⟨fs?, m'⟩
  rw [hrun] at hfragments hentry hkept hmembers
  obtain rfl := hfragments
  have hop : ∀ op, ∃ op', Incident.operation op = .operation op' := fun op ↦ ⟨op, rfl⟩
  refine ⟨hinert, hcells, hchildren, hlisted, hexists,
    .operation (.operation (.operation (.operation .start (hop _)) (hop _)) (hop _)) (hop _),
    m', rfl, hentry, hkept, ?_⟩
  rintro ⟨members, hthere, hpaths⟩
  obtain rfl := Except.ok.inj (hmembers.symm.trans hthere)
  have hseen : ∀ child isFolder, folderEntry.isExcluded child isFolder = false := by
    simp [Entry.isExcluded, folderEntry, Entry.source]
  simp only [hseen, Path.sort_eq_insertionSort] at hpaths
  revert hpaths
  decide

end ModelM

end Buildpath
