import Buildpath.Proofs.Model.Still

/-!
# Models that are alike

Models are alike if they have the same raw buildpaths and bindings, in workspaces with the same files
(`Model.Resembles`). Where there are no initializers, resolving projects leads to models that are alike,
whose results are kept or are those that raw buildpaths are resolved to (`Model.Upholds`,
`resolution_bare`), and so does all that follows from a change.
-/

namespace Buildpath

variable {m m' m'' : Model} {project : String} {es : List Entry}

namespace Model

/-- Whether there are no initializers, and no project is being resolved. -/
structure Bare (m : Model) : Prop where
  initializers : m.initializers = .empty
  isIdle : m.resolving = []
  nesting : 0 < m.nesting

theorem Bare.still (h : m.Bare) : m.Still := .of_empty h.initializers h.isIdle h.nesting

/-- Whether two models have the same raw buildpaths and bindings. -/
structure Resembles (m m' : Model) : Prop where
  files : m'.workspace.files = m.workspace.files
  settings : m'.settings = m.settings
  variableValues : m'.variableValues = m.variableValues
  registry : m'.registry = m.registry
  initializers : m'.initializers = m.initializers
  resolving : m'.resolving = m.resolving
  nesting : m'.nesting = m.nesting
  followsLibraries : m'.followsLibraries = m.followsLibraries
  raw : ∀ project, m'.raw project = m.raw project

namespace Resembles

/-- Models differ in nothing but what is remembered and shown, and cells keep their raw buildpaths or learn
them. -/
theorem of_raws {cells : Table String Cell} {folders : ExternalFolders} {issued : Nat}
    {markers : MarkerStore} {indexer : Indexer} {held : HeldRules} {log : List Event}
    {children : Table (String × Path) (List Path)}
    (hraw : ∀ q, (({ m with cells } : Model).cell q).raw = (m.cell q).raw ∨
      (({ m with cells } : Model).cell q).raw = some (m.raw q)) :
    m.Resembles { m with cells, folders, issued, markers, indexer, held, log, children } := by
  refine ⟨rfl, rfl, rfl, rfl, rfl, rfl, rfl, rfl, fun q ↦ ?_⟩
  change (({ m with cells } : Model).cell q).raw.getD (m.fileRaw q) = m.raw q
  rcases hraw q with hraw | hraw
  · rw [hraw]
    rfl
  · rw [hraw, Option.getD_some]

theorem refl (m : Model) : m.Resembles m := of_raws fun _ ↦ .inl rfl

theorem trans (h : m.Resembles m') (h' : m'.Resembles m'') : m.Resembles m'' :=
  ⟨h'.files.trans h.files, h'.settings.trans h.settings, h'.variableValues.trans h.variableValues,
    h'.registry.trans h.registry, h'.initializers.trans h.initializers, h'.resolving.trans h.resolving,
    h'.nesting.trans h.nesting, h'.followsLibraries.trans h.followsLibraries,
    fun q ↦ (h'.raw q).trans (h.raw q)⟩

theorem bare (h : m.Resembles m') (hm : m.Bare) : m'.Bare :=
  ⟨h.initializers.trans hm.initializers, h.resolving.trans hm.isIdle, h.nesting ▸ hm.nesting⟩

theorem of_held (held : HeldRules) : m.Resembles { m with held } := of_raws fun _ ↦ .inl rfl

/-- Models that are alike stay so when they are given the same bindings. -/
theorem of_registry (h : m.Resembles m') (registry : Registry) :
    ({ m with registry } : Model).Resembles { m' with registry } :=
  ⟨h.files, h.settings, h.variableValues, rfl, h.initializers, h.resolving, h.nesting,
    h.followsLibraries, h.raw⟩

/-- Models that are alike stay so when variables are given the same values. -/
theorem of_variables (h : m.Resembles m') (variableValues : Variables) :
    ({ m with variableValues } : Model).Resembles { m' with variableValues } :=
  ⟨h.files, h.settings, rfl, h.registry, h.initializers, h.resolving, h.nesting, h.followsLibraries,
    h.raw⟩

/-- Changing a cell but not its raw buildpath. -/
theorem setCell {c : Cell} (h : c.raw = (m.cell project).raw) : m.Resembles (m.setCell project c) := by
  refine of_raws fun q ↦ .inl ((congrArg Cell.raw (cell_setCell m project q c)).trans ?_)
  split
  · next heq => exact heq ▸ h
  · rfl

theorem chained_eq (h : m.Resembles m') : m'.chained = m.chained := by
  funext path external
  rw [chained, chained, h.followsLibraries, Workspace.chainedLibraries_of_files h.files]

end Resembles

/-- What variable entries stand for does not depend on references. -/
theorem entry?_of_files {w w' : Workspace} (h : w'.files = w.files) (v : Variables) (e : Entry) :
    v.entry? w' e = v.entry? w e := by
  have hproject : ∀ path, Variables.isProjectPath w' path = Variables.isProjectPath w path := by
    intro path
    rw [Variables.isProjectPath, Variables.isProjectPath,
      funext (Workspace.projectExists_of_files h)]
  unfold Variables.entry?
  simp only [Workspace.kind?_of_files h, hproject]

/-- Which folders count as external ones does not depend on references. -/
private theorem isExternalFolder_of_files {w w' : Workspace} (h : w'.files = w.files) (options : Options)
    (path : Path) (drives : KnownDrives) :
    isExternalFolder w' options path drives = isExternalFolder w options path drives := by
  have hexists : w'.projectExists = w.projectExists := funext (Workspace.projectExists_of_files h)
  have hkind : w'.externalKind? = w.externalKind? := funext (Workspace.externalKind?_of_files h)
  unfold isExternalFolder mayBeExternalFolder KnownDrives.has Workspace.hasExternal
  rw [hexists, hkind]

theorem Resembles.resolutionContext_eq (h : m.Resembles m') (project : String) (last : Option Issued) :
    m'.resolutionContext project last = m.resolutionContext project last := by
  have hoptions : m'.optionsOf project = m.optionsOf project := by
    rw [optionsOf, h.settings]
    rfl
  unfold resolutionContext
  rw [hoptions, h.chained_eq, Workspace.projectLocation?_of_files h.files]
  simp only [isExternalFolder_of_files h.files]

/-- What a buildpath stands for is the same. -/
theorem Resembles.outcome_eq (h : m.Resembles m') (make : Path → String → Option Container)
    (project : String) (es : List Entry) (last : Option Issued) :
    m'.outcome make project es last = m.outcome make project es last := by
  have hbindings : m'.steadyBindings make project = m.steadyBindings make project := by
    unfold steadyBindings
    rw [h.variableValues, h.registry, funext (entry?_of_files h.files _)]
  rw [outcome, outcome, hbindings, h.resolutionContext_eq]

/-- What the raw buildpath of a project is resolved to from the beginning. -/
def fresh (m : Model) (project : String) : Resolved :=
  ((ModelM.resolveRaw ModelM.findContainer project (m.raw project).entries none).run m).1

theorem Bare.fresh_eq (h : m.Bare) (project : String) :
    m.fresh project = m.outcome makeNothing project (m.raw project).entries none := by
  obtain ⟨folders, hrun⟩ := ModelM.resolveRaw_still h.nesting (h.still.bound project) none
  rw [fresh, hrun]

theorem Resembles.fresh_eq (h : m.Resembles m') (hm : m.Bare) (project : String) :
    m'.fresh project = m.fresh project := by
  rw [hm.fresh_eq, (h.bare hm).fresh_eq, h.raw, h.outcome_eq]

/-! ### Results that are kept -/

/-- Whether a result is one that the raw buildpath of a project is resolved to, whatever the last one was. -/
def ResolvesTo (m : Model) (project : String) (r : Resolved) : Prop :=
  ∃ last, r = m.outcome makeNothing project (m.raw project).entries last

/-- Whether a model is alike, and its results, if they count, are kept or are those that raw buildpaths are
resolved to. -/
structure Upholds (m m' : Model) : Prop extends Resembles m m' where
  results : ∀ q i, (m'.cell q).issued? = some i → i.result.isOk →
    (m.cell q).issued? = some i ∨ m.ResolvesTo q i.result

theorem Resembles.resolvesTo (h : m.Resembles m') {r : Resolved} (hr : m'.ResolvesTo project r) :
    m.ResolvesTo project r := by
  obtain ⟨last, rfl⟩ := hr
  exact ⟨last, by rw [h.raw, h.outcome_eq]⟩

namespace Upholds

theorem of_issued (h : m.Resembles m')
    (hissued : ∀ q i, (m'.cell q).issued? = some i → (m.cell q).issued? = some i) : m.Upholds m' :=
  ⟨h, fun q i hi _ ↦ .inl (hissued q i hi)⟩

theorem refl (m : Model) : m.Upholds m := .of_issued (.refl m) fun _ _ ↦ id

theorem trans (h : m.Upholds m') (h' : m'.Upholds m'') : m.Upholds m'' := by
  refine ⟨h.toResembles.trans h'.toResembles, fun q i hi hok ↦ ?_⟩
  rcases h'.results q i hi hok with hi | hr
  · exact h.results q i hi hok
  · exact .inr (h.toResembles.resolvesTo hr)

theorem of_held (held : HeldRules) : m.Upholds { m with held } := .of_issued (.of_held held) fun _ _ ↦ id

end Upholds

/-- Steps from models without initializers that uphold results. -/
def KeepsResults (m m' : Model) : Prop := m.Bare → m.Upholds m'

instance : Frame KeepsResults where
  refl m _ := .refl m
  trans h h' hm := (h hm).trans (h' ((h hm).bare hm))
  volatile _ _ _ _ _ _ := .of_issued (.of_raws fun _ ↦ .inl rfl) fun _ _ ↦ id
  caches m other c hraw _ hstate _ _ := by
    refine .of_issued (.setCell hraw) fun q i hi ↦ ?_
    rw [cell_setCell] at hi
    split at hi
    · next heq =>
      rw [Cell.issued?, hstate] at hi
      exact heq ▸ hi
    · exact hi
  clearRoots m _ := by
    refine .of_issued (.of_raws fun q ↦ .inl ((congrArg Cell.raw (cell_clearRoots m q)).trans rfl))
      fun q i hi ↦ ?_
    rw [cell_clearRoots] at hi
    exact hi

instance : Deaf KeepsResults where
  announced _ _ _ _ := .of_issued (.of_raws fun _ ↦ .inl rfl) fun _ _ ↦ id
  references m w _ _ hw _ := by
    have hfiles : w.files = m.workspace.files := Workspace.files_setReferences hw
    exact .of_issued ⟨hfiles, rfl, rfl, rfl, rfl, rfl, rfl, rfl, fun q ↦ raw_of_files hfiles rfl⟩
      fun _ _ ↦ id

end Model

namespace ModelM

open Model

/-- A raw buildpath that has to be read has no result that is kept. -/
theorem issued?_of_loaded {i : Issued} (h : (m.loaded project).issued? = some i) :
    (m.cell project).issued? = some i := by
  rw [Model.loaded, Cell.storeRaw] at h
  split at h
  · exact h
  · cases h

/-- Asking for a raw buildpath upholds results. -/
theorem upholds_loadRaw (m : Model) (project : String) : m.Upholds ((loadRaw project).run m).2 := by
  obtain ⟨cells, hrun, hcell⟩ := loadRaw_run m project
  rw [hrun]
  refine .of_issued (.of_raws fun q ↦ ?_) fun q i hi ↦ ?_
  · rw [hcell]
    split
    · next hq => exact .inr (hq ▸ raw_loaded m project)
    · exact .inl rfl
  · rw [hcell] at hi
    split at hi
    · next hq => exact hq ▸ issued?_of_loaded hi
    · exact hi

/-- Where there are no initializers, resolving a project that exists gives a result, one that is kept or that
its raw buildpath is resolved to, and upholds results. -/
theorem resolution_bare (hm : m.Bare) (hexists : m.workspace.projectExists project) :
    ∃ i m', (resolution project).runOn m = (.ok i, m') ∧ m.Remembers m' ∧ m.Upholds m' ∧
      (m'.cell project).raw = some (m.raw project) ∧
      ((m.cell project).issued? = some i ∧ i.result.isOk ∨ m.ResolvesTo project i.result) := by
  obtain ⟨i, m', hrun, hremembers, hothers, hresolves⟩ := resolution_still hm.still hexists
  have hidle : project ∉ m.resolving := hm.isIdle ▸ List.not_mem_nil
  have hresult : (m.cell project).issued? = some i ∧ i.result.isOk ∨ m.ResolvesTo project i.result := by
    cases hresolves with
    | cached hissued hok _ => exact .inl ⟨issued?_of_loaded hissued, hok⟩
    | reentrant hin _ _ => exact absurd hin hidle
    | anew _ _ hresult _ _ => exact .inr ⟨_, hresult⟩
  have hown : (m'.cell project).raw = some (m.raw project) ∧
      ∀ j, (m'.cell project).issued? = some j → (m.cell project).issued? = some j ∨ i = j := by
    cases hresolves with
    | cached _ _ hcell => exact ⟨by rw [hcell, raw_loaded], fun j hj ↦ .inl (issued?_of_loaded (hcell ▸ hj))⟩
    | reentrant hin _ _ => exact absurd hin hidle
    | anew _ _ _ hcell _ =>
      exact ⟨by rw [hcell, raw_loaded], fun j hj ↦ .inr (Option.some.inj (by rw [hcell] at hj; exact hj))⟩
  refine ⟨i, m', hrun, hremembers, ⟨?_, fun q j hj hok ↦ ?_⟩, hown.1, hresult⟩
  · obtain ⟨cells, folders, issued, rfl⟩ := hremembers
    refine .of_raws fun q ↦ ?_
    by_cases hq : project = q
    · exact .inr (hq ▸ hown.1)
    · exact .inl (congrArg Cell.raw (hothers q hq))
  · by_cases hq : project = q
    · subst hq
      rcases hown.2 j hj with hj | rfl
      · exact .inl hj
      · exact hresult.imp_left And.left
    · exact .inl (hothers q hq ▸ hj)

theorem keepsResults_resolution (project : String) : Action.Moves KeepsResults (resolution project) := by
  refine moves_resolution fun m hexists hm ↦ ?_
  obtain ⟨i, m', hrun, -, hupholds, -⟩ := resolution_bare hm hexists
  rwa [hrun]

end ModelM

end Buildpath
