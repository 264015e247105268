import Buildpath.Proofs.Model.Choosing
import Buildpath.Proofs.Model.CycleGraph

/-!
# Shapes and links of projects

A project is resolved to entries of some shapes (`Model.shapesOf`), which tell its links, the paths of the
project entries among them (`Model.linksOf`). The shapes are those of the result that is kept, if that
counts, and otherwise those that its raw buildpath is resolved to from the beginning, which do not depend on
the last result (`Model.shapesAnew`). Whatever does not change raw buildpaths and bindings keeps the shapes
of all projects (`Model.Rereads`).
-/

namespace Buildpath

variable {m m' m'' : Model} {project q : String} {es : List Entry}

/-! ### Problems of results -/

/-- Of raw entries, the first without a binding is the problem of a result. -/
theorem unresolved_outcome (b : Bindings Id) (c : ResolutionContext) (raw : List Entry) :
    (outcome b c raw).unresolved =
      raw.findSome? fun e ↦ match (entriesBehind b c e).run with
        | .ok _ => none
        | .error problem => some problem := by
  rw [outcome, run_resolve]
  generalize listedLibraries c raw = listed
  have hfold : ∀ p : ResolutionPass,
      (raw.foldl (fun p e ↦ p.addFound c listed e (entriesBehind b c e).run) p).result.unresolved =
        p.result.unresolved.or (raw.findSome? fun e ↦ match (entriesBehind b c e).run with
          | .ok _ => none
          | .error problem => some problem) := by
    induction raw with
    | nil => exact fun p ↦ (Option.or_none).symm
    | cons e raw ih =>
      intro p
      rw [List.foldl_cons, ih, List.findSome?_cons]
      cases (entriesBehind b c e).run with
      | ok es =>
        dsimp only
        rw [ResolutionPass.addFound, ResolutionPass.unresolved_addAll]
      | error problem =>
        change (some (p.result.unresolved.getD problem)).or _ = _
        cases p.result.unresolved <;> rfl
  exact hfold {}

/-- An entry without a binding is no cycle. -/
theorem ne_cycle_of_unresolved {b : Bindings Id} {c : ResolutionContext} {raw : List Entry}
    {problem : Status} (h : (outcome b c raw).unresolved = some problem) (name : String) :
    problem ≠ .cycle name := by
  rw [unresolved_outcome] at h
  obtain ⟨e, -, hproblem⟩ := List.exists_of_findSome?_eq_some h
  unfold entriesBehind at hproblem
  cases hkind : e.kind with
  | variableRef =>
    rw [hkind] at hproblem
    dsimp only at hproblem
    rw [Id.run_bind] at hproblem
    cases hfound : ( b.variableEntry? e).run <;> rw [hfound] at hproblem <;> cases hproblem
    exact nofun
  | container =>
    rw [hkind] at hproblem
    dsimp only at hproblem
    rw [Id.run_bind] at hproblem
    cases hfound : (b.container? e.path).run <;> rw [hfound] at hproblem <;> cases hproblem
    exact nofun
  | library => rw [hkind] at hproblem; cases hproblem
  | source => rw [hkind] at hproblem; cases hproblem
  | project => rw [hkind] at hproblem; cases hproblem

namespace Model

/-- Whether each entry of a buildpath has a binding does not depend on the last result. -/
theorem unresolved_outcome_last (es : List Entry) (last last' : Option Issued) :
    (m.outcome makeNothing project es last').unresolved =
      (m.outcome makeNothing project es last).unresolved := by
  rw [outcome, outcome, unresolved_outcome, unresolved_outcome]
  rfl

/-! ### Shapes of a project -/

/-- The shapes of the entries that a project is resolved to. -/
def shapesOf (m : Model) (project : String) : List Entry := shapes (m.entriesOf project)

/-- The shapes of the entries that a project is resolved to from the beginning. -/
def shapesAnew (m : Model) (project : String) : List Entry := shapes (m.fresh project).entries

/-- The paths of the project entries that a project is resolved to. -/
def linksOf (m : Model) (project : String) : List Path := links (m.entriesOf project)

/-- The paths of the project entries that a project is resolved to from the beginning. -/
def linksAnew (m : Model) (project : String) : List Path := links (m.fresh project).entries

/-- Entries of the same shapes lead to the same projects. -/
theorem linksOf_eq (h : m'.shapesOf project = m.shapesOf project) : m'.linksOf project = m.linksOf project :=
  links_of_shapes h

/-- The shapes of the entries of a buildpath depend on what its variables and containers stand for, but not
on the last result. -/
theorem shapes_of_bindings {last last' : Option Issued}
    (hc : (m.resolutionContext project last).Agree (m'.resolutionContext project last'))
    (hv : ∀ e ∈ es, e.kind = .variableRef →
      (m'.variableValues.entry? m'.workspace e).map Entry.site =
        (m.variableValues.entry? m.workspace e).map Entry.site)
    (hk : ∀ e ∈ es, e.kind = .container →
      containerEntries (m'.registry.container? makeNothing e.path project) =
        containerEntries (m.registry.container? makeNothing e.path project)) :
    shapes (m'.outcome makeNothing project es last').entries =
      shapes (m.outcome makeNothing project es last).entries := by
  refine shapes_outcome hc fun e he ↦ ?_
  by_cases hkind : e.kind = .variableRef
  · have hbehind : ∀ (m : Model) (c : ResolutionContext),
        shapes ((entriesBehind (m.steadyBindings makeNothing project) c e).run.toOption.getD []) =
          ((m.variableValues.entry? m.workspace e).map Entry.shape).toList := by
      intro m c
      unfold entriesBehind
      rw [hkind]
      dsimp only
      rw [Id.run_bind]
      have hlook : ( Bindings.variableEntry? (m.steadyBindings makeNothing project) e).run =
          m.variableValues.entry? m.workspace e := rfl
      rw [hlook]
      cases m.variableValues.entry? m.workspace e <;> rfl
    rw [hbehind, hbehind, shape_entry? hkind (hv e he hkind)]
  · exact congrArg shapes (entriesBehind_congr hc (fun h ↦ absurd h hkind) (hk e he))

/-- Whatever the last result was, the shapes are the same. -/
theorem ResolvesTo.shapes_eq {r : Resolved} (hr : m.ResolvesTo project r) (hm : m.Bare) :
    shapes r.entries = m.shapesAnew project := by
  obtain ⟨last, rfl⟩ := hr
  rw [shapesAnew, hm.fresh_eq]
  exact shapes_of_bindings ⟨rfl, rfl, rfl, rfl, rfl⟩ (fun _ _ _ ↦ rfl) fun _ _ _ ↦ rfl

theorem Resembles.shapesAnew_eq (h : m.Resembles m') (hm : m.Bare) (project : String) :
    m'.shapesAnew project = m.shapesAnew project :=
  congrArg (fun r : Resolved ↦ shapes r.entries) (h.fresh_eq hm project)

theorem Resembles.linksAnew_eq (h : m.Resembles m') (hm : m.Bare) (project : String) :
    m'.linksAnew project = m.linksAnew project :=
  links_of_shapes (h.shapesAnew_eq hm project)

theorem shapesOf_missing (h : ¬ m.workspace.projectExists project) : m.shapesOf project = [] :=
  congrArg shapes (entriesOf_missing h)

theorem shapesOf_of_resolution {i : Issued} (h : (ModelM.resolution project).runOn m = (.ok i, m')) :
    m.shapesOf project = shapes i.result.entries := by
  rw [shapesOf, entriesOf, h]

/-- The result of a cell does not count before its raw buildpath is known. -/
theorem issued?_loaded (m : Model) (project : String) : (m.loaded project).issued? =
    if (m.cell project).raw.isSome then (m.cell project).issued? else none := by
  unfold loaded Cell.storeRaw
  cases (m.cell project).raw <;> rfl

/-- The shapes of a project that exists: those of the result that is kept, if it counts, and otherwise those
that its raw buildpath is resolved to. -/
theorem Bare.shapesOf_eq (hm : m.Bare) (hexists : m.workspace.projectExists project) :
    m.shapesOf project = match (m.loaded project).issued?.filter fun i ↦ i.result.isOk with
      | some i => shapes i.result.entries
      | none => m.shapesAnew project := by
  rw [shapesOf, hm.still.entriesOf_eq_resolved hexists, resolved]
  cases (m.loaded project).issued?.filter fun i ↦ i.result.isOk with
  | some i => rfl
  | none => exact ResolvesTo.shapes_eq ⟨_, rfl⟩ hm

/-- A project without a result has the shapes that its raw buildpath is resolved to. -/
theorem Bare.shapesOf_eq_anew (hm : m.Bare) (hexists : m.workspace.projectExists project)
    (h : ∀ i, (m.cell project).issued? = some i → ¬ i.result.isOk) :
    m.shapesOf project = m.shapesAnew project := by
  have hnone : ((m.loaded project).issued?.filter fun i ↦ i.result.isOk) = none := by
    rw [Option.filter_eq_none_iff]
    exact fun i hi ↦ h i (ModelM.issued?_of_loaded hi)
  rw [hm.shapesOf_eq hexists, hnone]

/-- While the result of a project is kept its shapes stay, or both before and after they are those that its
raw buildpath is resolved to. -/
theorem shapesOf_kept (hm : m.Bare) (hm' : m'.Bare)
    (hexists : m'.workspace.projectExists project = m.workspace.projectExists project)
    (hissued : (m'.loaded project).issued? = (m.loaded project).issued?) :
    m'.shapesOf project = m.shapesOf project ∨
      m'.shapesOf project = m'.shapesAnew project ∧ m.shapesOf project = m.shapesAnew project := by
  by_cases hthere : m.workspace.projectExists project
  · rw [hm.shapesOf_eq hthere, hm'.shapesOf_eq (hexists ▸ hthere), hissued]
    cases (m.loaded project).issued?.filter fun i ↦ i.result.isOk with
    | some i => exact .inl rfl
    | none => exact .inr ⟨rfl, rfl⟩
  · exact .inl ((shapesOf_missing (hexists ▸ hthere)).trans (shapesOf_missing hthere).symm)

/-- The shapes of a project stay if its variables and containers stand for the same. -/
theorem shapesOf_of_bindings {registry : Registry} {variableValues : Variables} (hm : m.Bare)
    (hv : ∀ e ∈ (m.raw project).entries, e.kind = .variableRef →
      (variableValues.entry? m.workspace e).map Entry.site =
        (m.variableValues.entry? m.workspace e).map Entry.site)
    (hk : ∀ e ∈ (m.raw project).entries, e.kind = .container →
      containerEntries (registry.container? makeNothing e.path project) =
        containerEntries (m.registry.container? makeNothing e.path project)) :
    ({ m with registry, variableValues } : Model).shapesOf project = m.shapesOf project := by
  have hm' : ({ m with registry, variableValues } : Model).Bare :=
    ⟨hm.initializers, hm.isIdle, hm.nesting⟩
  rcases shapesOf_kept hm hm' rfl rfl with hsame | ⟨hshapes', hshapes⟩
  · exact hsame
  · rw [hshapes', hshapes, shapesAnew, shapesAnew, hm.fresh_eq, hm'.fresh_eq]
    exact shapes_of_bindings ⟨rfl, rfl, rfl, rfl, rfl⟩ hv hk

/-! ### Steps that keep shapes -/

/-- Whether the result that is kept of a project has its shapes. -/
def Answers (m : Model) (project : String) : Prop :=
  ∃ i, (m.loaded project).issued? = some i ∧ shapes i.result.entries = m.shapesOf project

/-- Whether a model is alike and projects have the same shapes. Raw buildpaths that are known stay so. -/
structure Rereads (m m' : Model) : Prop extends Resembles m m' where
  shapesOf : ∀ q, m'.shapesOf q = m.shapesOf q
  answers : ∀ q, m.Answers q → m'.Answers q
  known : ∀ q raw, (m.cell q).raw = some raw → (m'.cell q).raw = some raw

namespace Rereads

theorem linksOf (h : m.Rereads m') (q : String) : m'.linksOf q = m.linksOf q := linksOf_eq (h.shapesOf q)

theorem refl (m : Model) : m.Rereads m := ⟨.refl m, fun _ ↦ rfl, fun _ ↦ id, fun _ _ ↦ id⟩

theorem trans (h : m.Rereads m') (h' : m'.Rereads m'') : m.Rereads m'' :=
  ⟨h.toResembles.trans h'.toResembles, fun q ↦ (h'.shapesOf q).trans (h.shapesOf q),
    fun q ↦ h'.answers q ∘ h.answers q, fun q raw ↦ h'.known q raw ∘ h.known q raw⟩

/-- Models that are alike have the same shapes if results are kept. -/
theorem of_loaded (h : m.Resembles m') (hm : m.Bare)
    (hissued : ∀ q, (m'.loaded q).issued? = (m.loaded q).issued?)
    (hknown : ∀ q raw, (m.cell q).raw = some raw → (m'.cell q).raw = some raw) : m.Rereads m' := by
  have hshapes : ∀ q, m'.shapesOf q = m.shapesOf q := by
    intro q
    rcases shapesOf_kept hm (h.bare hm) (Workspace.projectExists_of_files h.files q) (hissued q) with
      hsame | ⟨hshapes', hshapes⟩
    · exact hsame
    · rw [hshapes', hshapes, h.shapesAnew_eq hm]
  exact ⟨h, hshapes, fun q ⟨i, hi, hanswer⟩ ↦ ⟨i, (hissued q).trans hi, hanswer.trans (hshapes q).symm⟩,
    hknown⟩

theorem of_cells (h : m.Resembles m') (hm : m.Bare)
    (hraw : ∀ q, (m'.cell q).raw = (m.cell q).raw)
    (hissued : ∀ q, (m'.cell q).issued? = (m.cell q).issued?) : m.Rereads m' :=
  .of_loaded h hm (fun q ↦ by rw [issued?_loaded, issued?_loaded, hraw, hissued])
    fun q _ h ↦ (hraw q).trans h

theorem of_held (held : HeldRules) (hm : m.Bare) : m.Rereads { m with held } :=
  .of_cells (.of_held held) hm (fun _ ↦ rfl) fun _ ↦ rfl

end Rereads

/-- Steps from models without initializers that keep shapes. -/
def KeepsShapes (m m' : Model) : Prop := m.Bare → m.Rereads m'

instance : Frame KeepsShapes where
  refl m _ := .refl m
  trans h h' hm := (h hm).trans (h' ((h hm).bare hm))
  volatile _ _ _ _ _ hm := .of_cells (.of_raws fun _ ↦ .inl rfl) hm (fun _ ↦ rfl) fun _ ↦ rfl
  caches m other c hraw _ hstate _ hm := by
    refine .of_cells (.setCell hraw) hm (fun q ↦ ?_) fun q ↦ ?_
    · rw [cell_setCell]
      split
      · next heq => exact heq ▸ hraw
      · rfl
    · rw [cell_setCell]
      split
      · next heq => exact heq ▸ congrArg ResolutionState.issued? hstate
      · rfl
  clearRoots m hm := by
    refine .of_cells (.of_raws fun q ↦ .inl ((congrArg Cell.raw (cell_clearRoots m q)).trans rfl)) hm
      (fun q ↦ ?_) fun q ↦ ?_
    · exact (congrArg Cell.raw (cell_clearRoots m q)).trans rfl
    · exact (congrArg Cell.issued? (cell_clearRoots m q)).trans rfl

instance : Deaf KeepsShapes where
  announced _ _ _ hm := .of_cells (.of_raws fun _ ↦ .inl rfl) hm (fun _ ↦ rfl) fun _ ↦ rfl
  references m w _ _ hw hm := by
    have hfiles : w.files = m.workspace.files := Workspace.files_setReferences hw
    exact .of_cells ⟨hfiles, rfl, rfl, rfl, rfl, rfl, rfl, rfl, fun q ↦ raw_of_files hfiles rfl⟩ hm
      (fun _ ↦ rfl) fun _ ↦ rfl

end Model

namespace ModelM

open Model

/-- Asking for a raw buildpath keeps shapes. -/
private theorem keepsShapes_loadRaw (project : String) : (loadRaw project).Moves KeepsShapes := by
  intro m hm
  have halike := (upholds_loadRaw m project).toResembles
  obtain ⟨cells, hrun, hcell⟩ := loadRaw_run m project
  rw [hrun] at halike ⊢
  have hown : (({ m with cells } : Model).cell project).raw = some (m.raw project) := by
    rw [hcell, if_pos rfl, raw_loaded]
  refine .of_loaded halike hm (fun q ↦ ?_) fun q raw hraw ↦ ?_
  · by_cases hq : project = q
    · subst hq
      rw [loaded_of_raw hown, hcell, if_pos rfl]
    · rw [issued?_loaded, issued?_loaded, hcell, if_neg hq]
  · by_cases hq : project = q
    · subst hq
      rw [hown, Model.raw, hraw, Option.getD_some]
    · rwa [hcell, if_neg hq]

/-- Resolving a project that exists comes to its shapes, which its result has from then on, and keeps the
shapes of all projects. -/
theorem resolution_shapes (hm : m.Bare) (hexists : m.workspace.projectExists project) :
    ∃ i m', (resolution project).runOn m = (.ok i, m') ∧ m.Remembers m' ∧ m.Rereads m' ∧
      (m'.loaded project).issued? = some i ∧ shapes i.result.entries = m.shapesOf project := by
  obtain ⟨i, m', hrun, hremembers, hothers, hresolves⟩ := resolution_still hm.still hexists
  have halike : m.Resembles m' := by
    have hkeeps := (keepsResults_resolution project m hm).toResembles
    have hm' : ((resolution project).run.run m).2 = m' := congrArg Prod.snd hrun
    rwa [hm'] at hkeeps
  have hidle : project ∉ m.resolving := hm.isIdle ▸ List.not_mem_nil
  have hraw : (m'.cell project).raw = some (m.raw project) := by
    cases hresolves with
    | cached _ _ hcell => rw [hcell, raw_loaded]
    | reentrant hin _ _ => exact absurd hin hidle
    | anew _ _ _ hcell _ => rw [hcell, raw_loaded]
  have hown : (m'.loaded project).issued? = some i := by
    rw [loaded_of_raw hraw]
    cases hresolves with
    | cached hissued _ hcell => rw [hcell, hissued]
    | reentrant hin _ _ => exact absurd hin hidle
    | anew _ _ _ hcell _ =>
      rw [hcell]
      rfl
  have hshapes : ∀ q, m'.shapesOf q = m.shapesOf q := fun q ↦
    congrArg shapes ((hm.still.of_resolves hremembers hothers hresolves).entriesOf q)
  have hanswer := (shapesOf_of_resolution hrun).symm
  refine ⟨i, m', hrun, hremembers, ⟨halike, hshapes, fun q ⟨j, hj, hj'⟩ ↦ ?_, fun q raw hq' ↦ ?_⟩,
    hown, hanswer⟩
  · by_cases hq : project = q
    · subst hq
      exact ⟨i, hown, hanswer.trans (hshapes project).symm⟩
    · refine ⟨j, ?_, hj'.trans (hshapes q).symm⟩
      rwa [issued?_loaded, hothers q hq, ← issued?_loaded]
  · by_cases hq : project = q
    · subst hq
      rw [hraw, Model.raw, hq', Option.getD_some]
    · rwa [hothers q hq]

/-- Resolving a project that exists comes to its links, and keeps those of all projects. -/
theorem resolution_links (hm : m.Bare) (hexists : m.workspace.projectExists project) :
    ∃ i m', (resolution project).runOn m = (.ok i, m') ∧ m.Remembers m' ∧ m.Rereads m' ∧
      links i.result.entries = m.linksOf project := by
  obtain ⟨i, m', hrun, hremembers, hrereads, -, hshapes⟩ := resolution_shapes hm hexists
  exact ⟨i, m', hrun, hremembers, hrereads, links_of_shapes hshapes⟩

private theorem keepsShapes_resolution (project : String) :
    Action.Moves KeepsShapes (resolution project) := by
  refine moves_resolution fun m hexists hm ↦ ?_
  obtain ⟨i, m', hrun, -, hrereads, -⟩ := resolution_shapes hm hexists
  rwa [hrun]

instance : Looks Model.Bare Model.KeepsShapes where
  loadRaw := keepsShapes_loadRaw
  resolution := keepsShapes_resolution
  holds _ held hm := .of_held held hm
  resembles h hm := (h hm).toResembles
  stays h hm := (h hm).bare hm

/-- A recalled result has the shapes that the project had. -/
theorem shapes_of_recalls {item : String × Option Issued} (h : Recalls KeepsShapes m item) (hm : m.Bare)
    (hexists : m.workspace.projectExists item.1) :
    ∃ i, item.2 = some i ∧ shapes i.result.entries = m.shapesOf item.1 := by
  obtain ⟨m', hstep, hitem⟩ := h
  have hkept := hstep hm
  obtain ⟨i, m'', hrun, -, -, -, hshapes⟩ := resolution_shapes (hkept.bare hm)
    ((Workspace.projectExists_of_files hkept.files item.1).trans hexists)
  refine ⟨i, ?_, hshapes.trans (hkept.shapesOf item.1)⟩
  rw [hitem, hrun]
  rfl

/-- A recalled result has the links that the project had. -/
theorem links_of_recalls {item : String × Option Issued} (h : Recalls KeepsShapes m item) (hm : m.Bare)
    (hexists : m.workspace.projectExists item.1) :
    ∃ i, item.2 = some i ∧ links i.result.entries = m.linksOf item.1 := by
  obtain ⟨i, hi, hshapes⟩ := shapes_of_recalls h hm hexists
  exact ⟨i, hi, links_of_shapes hshapes⟩

end ModelM

end Buildpath
