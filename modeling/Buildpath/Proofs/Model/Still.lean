import Buildpath.Proofs.Model.Coverage
import Buildpath.Proofs.Origins
import Buildpath.Proofs.Walk

/-!
# Models where no initializer runs

Where every container that a buildpath mentions is bound or has no initializer, resolving a project
changes nothing but what is remembered of it (`resolution_still`). So each project has a resolution
that stays the same, whatever is resolved in between (`Still.entriesOf_eq`).
-/

namespace Buildpath

variable {m m' : Model} {project other : String} {path : Path} {e : Entry}

/-- What is made where nothing is made. -/
abbrev makeNothing : Path → String → Option Container := fun _ _ ↦ none

namespace Model

/-- Whether no initializer runs: no project is being resolved, and the containers that buildpaths mention
are bound or have no initializer. -/
structure Still (m : Model) : Prop where
  isIdle : m.resolving = []
  nesting : 0 < m.nesting
  bound : ∀ project, ∀ e ∈ (m.raw project).entries, e.kind = .container →
    m.registry.bindings.find? (project, e.path) = none → m.initializer? e.path = none

/-- Without initializers none runs. -/
theorem Still.of_empty (h : m.initializers = .empty) (hidle : m.resolving = []) (hn : 0 < m.nesting) :
    m.Still := by
  refine ⟨hidle, hn, fun _ e _ _ _ ↦ ?_⟩
  rw [initializer?, h]
  cases e.path.firstSegment? <;> rfl

/-- Script projects in memory with the raw buildpaths that their files hold. Nothing was resolved yet, and
libraries bring along no others. -/
def ofBuildpaths (projects : List (String × List Entry)) : Model :=
  { workspace := .memory
      (projects.foldl (fun w (project, _) ↦ w.addProject project (some defaultNature)) {})
    followsLibraries := false
    cells := ⟨projects.map fun (project, entries) ↦ (project, { raw := some { entries } })⟩ }

/-- Nothing but raw buildpaths is kept. -/
theorem cell_ofBuildpaths (projects : List (String × List Entry)) (project : String) :
    ∃ raw, (ofBuildpaths projects).cell project = { raw } := by
  rw [cell]
  cases hfound : (ofBuildpaths projects).cells.find? project with
  | none => exact ⟨none, rfl⟩
  | some c =>
    obtain ⟨item, -, hitem⟩ := List.mem_map.mp (Table.mem_of_find? hfound)
    cases hitem
    exact ⟨_, rfl⟩

theorem Still.ofBuildpaths (projects : List (String × List Entry)) : (ofBuildpaths projects).Still :=
  .of_empty rfl rfl (Nat.succ_pos _)

/-- Whether a model differs by what is remembered of projects, by folders to set up and by the number of
results. -/
def Remembers (m m' : Model) : Prop :=
  ∃ cells folders issued, m' = { m with cells, folders, issued }

theorem Remembers.refl (m : Model) : m.Remembers m := ⟨m.cells, m.folders, m.issued, rfl⟩

theorem Remembers.trans {m'' : Model} (h : m.Remembers m') (h' : m'.Remembers m'') :
    m.Remembers m'' := by
  obtain ⟨cells', folders', issued', rfl⟩ := h'
  obtain ⟨cells, folders, issued, rfl⟩ := h
  exact ⟨cells', folders', issued', rfl⟩

end Model

namespace ModelM

/-! ### Look-ups -/

/-- A container that is bound or has no initializer is found without a change. -/
theorem findContainer_unmade (hn : 0 < m.nesting)
    (h : m.registry.bindings.find? (project, path) = none → m.initializer? path = none) :
    (findContainer path project).run m = (m.registry.container? makeNothing path project, m) := by
  obtain ⟨n, hn⟩ := Nat.exists_eq_succ_of_ne_zero (Nat.ne_of_gt hn)
  have hdepth : m.depth = (n + m.workspace.pathBound) + 1 := by rw [Model.depth, hn]; omega
  have hrun : (findContainer path project).run m = (findContainerWithin m.depth path project).run m := rfl
  rw [hrun, hdepth, findContainerWithin_run, Registry.container?]
  cases hb : m.registry.bindings.find? (project, path) with
  | some binding => cases binding <;> rfl
  | none =>
    rw [h hb]
    rfl

/-- The entries behind a raw entry are found without a change. -/
private theorem entriesBehind_still (hn : 0 < m.nesting) (c : ResolutionContext)
    (h : e.kind = .container → m.registry.bindings.find? (project, e.path) = none →
      m.initializer? e.path = none) :
    (entriesBehind (bindings findContainer project) c e).run m =
      ((entriesBehind (m.steadyBindings makeNothing project) c e).run, m) := by
  unfold entriesBehind
  cases hkind : e.kind with
  | variableRef =>
    have hlook : ( Bindings.variableEntry? (bindings findContainer project) e).run m =
        (( Bindings.variableEntry? (m.steadyBindings makeNothing project) e).run, m) := rfl
    dsimp only
    rw [StateT.run_bind, hlook, Id.run_bind]
    cases ( Bindings.variableEntry? (m.steadyBindings makeNothing project) e).run <;> rfl
  | container =>
    have hlook : ((bindings findContainer project).container? e.path).run m =
        (((m.steadyBindings makeNothing project).container? e.path).run, m) :=
      findContainer_unmade hn (h hkind)
    dsimp only
    rw [StateT.run_bind, hlook, Id.run_bind]
    cases ((m.steadyBindings makeNothing project).container? e.path).run <;> rfl
  | library => rfl
  | source => rfl
  | project => rfl

/-- A raw buildpath is resolved to what it stands for, and apart from folders to set up nothing
changes. -/
theorem resolveRaw_still (hn : 0 < m.nesting) {raw : List Entry}
    (h : ∀ e ∈ raw, e.kind = .container → m.registry.bindings.find? (project, e.path) = none →
      m.initializer? e.path = none) (last : Option Issued) :
    ∃ folders, (resolveRaw findContainer project raw last).run m =
      (m.outcome makeNothing project raw last, m.addFolders folders) := by
  let c := m.resolutionContext project last
  have hpass : (resolve (bindings findContainer project) c raw).run m =
      ((resolve (m.steadyBindings makeNothing project) c raw).run, m) := by
    rw [run_resolve_state, run_resolve]
    generalize listedLibraries c raw = listed
    generalize ({} : ResolutionPass) = p
    induction raw generalizing p with
    | nil => rfl
    | cons e raw ih =>
      obtain ⟨he, hraw⟩ := List.forall_mem_cons.mp h
      rw [List.foldl_cons, List.foldl_cons, takeOn, found, entriesBehind_still hn c he, ih hraw]
  refine ⟨((resolve (bindings findContainer project) c raw).run m).1.folders, ?_⟩
  have hrun : (resolveRaw findContainer project raw last).run m =
      (((resolve (bindings findContainer project) c raw).run m).1.result,
        ((resolve (bindings findContainer project) c raw).run m).2.addFolders
          ((resolve (bindings findContainer project) c raw).run m).1.folders) := rfl
  rw [hrun, hpass]
  rfl

/-! ### Resolutions -/

/-- Resolving a project that exists gives a result and changes the cell of the project only. -/
theorem resolution_still (h : m.Still) (hexists : m.workspace.projectExists project) :
    ∃ i m', (resolution project).runOn m = (.ok i, m') ∧ m.Remembers m' ∧
      (∀ other, project ≠ other → m'.cell other = m.cell other) ∧
      m.Resolves makeNothing project i m' := by
  have hidle : project ∉ m.resolving := h.isIdle ▸ List.not_mem_nil
  obtain ⟨cells, hrun, hcell⟩ := resolutionBy_runOn findContainer hexists
  have hown := (hcell project).trans (if_pos rfl)
  have hothers : ∀ other, project ≠ other → ({ m with cells } : Model).cell other = m.cell other :=
    fun other hne ↦ (hcell other).trans (if_neg hne)
  rcases (m.loaded project).begin_cases (project ∈ m.resolving) with
    ⟨i, hi, hok, hb⟩ | ⟨hin, hb⟩ | ⟨-, hstale, generation, hb⟩
  · rw [hb] at hrun hown
    exact ⟨i, _, hrun, ⟨cells, m.folders, m.issued, rfl⟩, hothers, .cached hi hok hown⟩
  · exact absurd (of_decide_eq_true hin) hidle
  · rw [hb] at hrun hown
    have hbound : ∀ e ∈ (m.raw project).entries, e.kind = .container →
        m.registry.bindings.find? (project, e.path) = none → m.initializer? e.path = none :=
      h.bound project
    obtain ⟨folders, hresolve⟩ := resolveRaw_still
      (m := { m with cells, resolving := project :: m.resolving }) h.nesting hbound
      (m.loaded project).last
    have hcurrent : ((m.loaded project).raw.getD (m.raw project)) = m.raw project := by
      rw [Model.raw_loaded]
      rfl
    dsimp only at hrun
    rw [hcurrent, Action.runOn_lift,
      resolveAnew_run (m := { m with cells }) hresolve rfl (congrArg Cell.generation hown)] at hrun
    refine ⟨_, _, hrun, ⟨_, _, _, rfl⟩, fun other hne ↦ ?_, .anew hidle hstale rfl ?_ fun _ _ _ _ ↦ rfl⟩
    · exact (Model.cell_setCell _ project other _).trans ((if_neg hne).trans (hothers other hne))
    · refine (Model.cell_setCell _ project project _).trans ((if_pos rfl).trans ?_)
      have hkept : (({ m with cells, resolving := project :: m.resolving } : Model).addFolders
          folders).cell project = ({ m with cells } : Model).cell project := rfl
      rw [hkept, hown]

end ModelM

namespace Model

variable {i : Issued}

theorem Remembers.touched (h : m.Remembers m')
    (hothers : ∀ other, project ≠ other → m'.cell other = m.cell other)
    (hresolves : m.Resolves makeNothing project i m') : m.Touched makeNothing project m' := by
  have hraws : ∀ other raw, (m.cell other).raw = some raw → (m'.cell other).raw = some raw := by
    intro other raw hraw
    by_cases ho : project = other
    · subst ho
      have hloaded := congrArg Cell.raw (loaded_of_raw hraw)
      cases hresolves with
      | cached _ _ hcell => rw [hcell, hloaded, hraw]
      | reentrant _ _ hcell => rw [hcell, hloaded, hraw]
      | anew _ _ _ hcell _ => rw [hcell, hloaded, hraw]
    · rw [hothers other ho, hraw]
  obtain ⟨cells, folders, issued, rfl⟩ := h
  exact ⟨⟨cells, m.registry, m.log, folders, issued, rfl, .refl _⟩, hraws,
    fun other hne _ ↦ hothers other hne, fun other es r hne hf ↦ hf.of_cell (hothers other hne) hf.isIdle⟩

/-- A project that has a result is resolved to it. -/
theorem HasResult.known_resolved {make : Path → String → Option Container} {r : Resolved}
    (h : m.HasResult make project r) : (m.resolved make project).known = r.known := by
  cases h with
  | counts hidle hraw hissued hok hknown =>
    obtain ⟨raw, hraw⟩ := Option.ne_none_iff_exists'.mp hraw
    rw [resolved, loaded_of_raw hraw, hissued, Option.filter_some, if_pos hok]
    exact hknown
  | again hfirm => exact hfirm.toRests.known_resolved

/-- What a project is resolved to depends on its cell, not on the cells of others. -/
private theorem Remembers.resolved_eq (h : m.Remembers m') (hcell : m'.cell other = m.cell other) :
    m'.resolved makeNothing other = m.resolved makeNothing other := by
  have hloaded : m'.loaded other = m.loaded other := by
    obtain ⟨cells, folders, issued, rfl⟩ := h
    rw [loaded, loaded, hcell]
    rfl
  have hraw : m'.raw other = m.raw other := by
    obtain ⟨cells, folders, issued, rfl⟩ := h
    rw [raw, raw, hcell]
    rfl
  rw [resolved, resolved, hloaded, hraw]
  obtain ⟨cells, folders, issued, rfl⟩ := h
  rfl

theorem entriesOf_missing (h : ¬ m.workspace.projectExists project) : m.entriesOf project = [] := by
  rw [entriesOf, ModelM.resolution_missing h]

/-- No other projects exist. -/
theorem mem_of_exists_ofBuildpaths {projects : List (String × List Entry)}
    (h : (ofBuildpaths projects).workspace.projectExists project) : project ∈ projects.map Prod.fst := by
  have hkeys : ∀ w : Memory, (projects.foldl
      (fun w (project, _) ↦ w.addProject project (some defaultNature)) w).projects.contains project →
      w.projects.contains project ∨ project ∈ projects.map Prod.fst := by
    generalize projects = projects
    induction projects with
    | nil => exact fun w ↦ .inl
    | cons first projects ih =>
      intro w hq
      rw [List.map_cons, List.mem_cons]
      rcases ih _ hq with hq | hq
      · have hadded : (w.addProject first.1 (some defaultNature)).projects.contains project =
            (decide (first.1 = project) || w.projects.contains project) := Table.contains_insert _ _ _ _
        rw [hadded, Bool.or_eq_true, decide_eq_true_eq] at hq
        exact hq.elim (fun hq ↦ .inr (.inl hq.symm)) .inl
      · exact .inr (.inr hq)
  exact (hkeys {} h).resolve_left Bool.false_ne_true

/-- What holds of the entries of the projects of such a model holds of all entries that there are. -/
theorem forall_mem_entriesOf_ofBuildpaths {projects : List (String × List Entry)} {P : Entry → Prop}
    (h : ∀ q ∈ projects.map Prod.fst, ∀ e ∈ (ofBuildpaths projects).entriesOf q, P e) :
    ∀ {q e}, e ∈ (ofBuildpaths projects).entriesOf q → P e := by
  intro q e he
  have hexists : (ofBuildpaths projects).workspace.projectExists q := by
    by_contra hno
    rw [entriesOf_missing hno] at he
    exact List.not_mem_nil he
  exact h q (mem_of_exists_ofBuildpaths hexists) e he

theorem Still.entriesOf_eq_resolved (h : m.Still) (hexists : m.workspace.projectExists project) :
    m.entriesOf project = (m.resolved makeNothing project).entries := by
  obtain ⟨i, m', hrun, -, -, hresolves⟩ := ModelM.resolution_still h hexists
  rw [entriesOf, hrun, ← hresolves.result_eq (h.isIdle ▸ List.not_mem_nil)]

/-- Whether a model is still, and its projects have the resolutions that they have in another one. -/
structure StillAs (m m' : Model) : Prop where
  still : m'.Still
  remembers : m.Remembers m'
  entriesOf : ∀ project, m'.entriesOf project = m.entriesOf project

theorem Still.refl (h : m.Still) : m.StillAs m := ⟨h, .refl m, fun _ ↦ rfl⟩

/-- A model stays still while raw buildpaths and what projects are resolved to stay the same. -/
private theorem Still.of_remembers (h : m.Still) (hm : m.Remembers m')
    (hraw : ∀ other, m'.raw other = m.raw other)
    (hresolved : ∀ other, (m'.resolved makeNothing other).entries =
      (m.resolved makeNothing other).entries) : m.StillAs m' := by
  have hstill : m'.Still := by
    refine ⟨?_, ?_, fun other ↦ ?_⟩
    · obtain ⟨cells, folders, issued, rfl⟩ := hm
      exact h.isIdle
    · obtain ⟨cells, folders, issued, rfl⟩ := hm
      exact h.nesting
    · rw [hraw]
      obtain ⟨cells, folders, issued, rfl⟩ := hm
      exact h.bound other
  refine ⟨hstill, hm, fun other ↦ ?_⟩
  have hworkspace : m'.workspace = m.workspace := by
    obtain ⟨cells, folders, issued, rfl⟩ := hm
    rfl
  by_cases hexists : m.workspace.projectExists other
  · rw [hstill.entriesOf_eq_resolved (hworkspace ▸ hexists), h.entriesOf_eq_resolved hexists,
      hresolved]
  · rw [entriesOf_missing hexists, entriesOf_missing (hworkspace ▸ hexists)]

/-- The raw buildpath of a project depends on its cell, not on the cells of others. -/
private theorem Remembers.raw_eq (h : m.Remembers m') (hcell : m'.cell other = m.cell other) :
    m'.raw other = m.raw other := by
  obtain ⟨cells, folders, issued, rfl⟩ := h
  rw [Model.raw, Model.raw, hcell]
  rfl

/-- A model stays still while all cells stay the same. -/
theorem Still.of_cells (h : m.Still) (hm : m.Remembers m')
    (hcells : ∀ other, m'.cell other = m.cell other) : m.StillAs m' :=
  h.of_remembers hm (fun other ↦ hm.raw_eq (hcells other)) fun other ↦ by
    rw [hm.resolved_eq (hcells other)]

/-- Resolving a project keeps a model still. -/
theorem Still.of_resolves (h : m.Still) (hm : m.Remembers m')
    (hothers : ∀ other, project ≠ other → m'.cell other = m.cell other)
    (hresolves : m.Resolves makeNothing project i m') : m.StillAs m' := by
  refine h.of_remembers hm (fun other ↦ ?_) fun other ↦ ?_
  · by_cases ho : project = other
    · subst ho
      have hraw : (m'.cell project).raw = some (m.raw project) := by
        cases hresolves with
        | cached _ _ hcell => rw [hcell, raw_loaded]
        | reentrant _ _ hcell => rw [hcell, raw_loaded]
        | anew _ _ _ hcell _ => rw [hcell, raw_loaded]
      rw [Model.raw, hraw, Option.getD_some]
    · exact hm.raw_eq (hothers other ho)
  · by_cases ho : project = other
    · subst ho
      have hidle : project ∉ m.resolving := h.isIdle ▸ List.not_mem_nil
      have hresult := (hresolves.hasResult (hm.touched hothers hresolves) hidle).known_resolved
      rw [Resolved.entries_eq hresult, hresolves.result_eq hidle]
    · rw [hm.resolved_eq (hothers other ho)]

/-- Asking for the entries of a project answers its resolution, and keeps the model still. -/
theorem Still.resolvedEntries? (h : m.Still) (project : String) :
    ((ModelM.resolvedEntries? project).run m).1.getD [] = m.entriesOf project ∧
      m.StillAs ((ModelM.resolvedEntries? project).run m).2 := by
  have hrun : (ModelM.resolvedEntries? project).run m =
      (((ModelM.resolution project).runOn m).1.toOption.map fun i ↦ i.result.entries,
        ((ModelM.resolution project).runOn m).2) := rfl
  rw [hrun, Model.entriesOf]
  by_cases hexists : m.workspace.projectExists project
  · obtain ⟨i, m', hresolution, hm, hothers, hresolves⟩ := ModelM.resolution_still h hexists
    rw [hresolution]
    exact ⟨rfl, h.of_resolves hm hothers hresolves⟩
  · rw [ModelM.resolution_missing hexists]
    exact ⟨rfl, h.refl⟩

theorem StillAs.trans {m'' : Model} (h : m.StillAs m') (h' : m'.StillAs m'') : m.StillAs m'' :=
  ⟨h'.still, h.remembers.trans h'.remembers, fun q ↦ (h'.entriesOf q).trans (h.entriesOf q)⟩

end Model

/-! ### Walks -/

namespace ModelM

variable {I : Model → Prop} {α β σ : Type}

/-- Whether steps keep an invariant and come to the same wherever it holds. -/
def Comes (I : Model → Prop) (x : ModelM α) (a : α) : Prop := ∀ m, I m → ∃ m', x.run m = (a, m') ∧ I m'

theorem Comes.pure (a : α) : Comes I (pure a) a := fun m hm ↦ ⟨m, rfl, hm⟩

theorem Comes.bind {x : ModelM α} {f : α → ModelM β} {a : α} {b : β} (hx : Comes I x a)
    (hf : Comes I (f a) b) : Comes I (x >>= f) b := by
  intro m hm
  obtain ⟨m₁, hrun, hm₁⟩ := hx m hm
  rw [StateT.run_bind, hrun]
  exact hf m₁ hm₁

theorem Comes.foldlM {f : β → α → ModelM β} {g : β → α → β} {as : List α}
    (h : ∀ b, ∀ a ∈ as, Comes I (f b a) (g b a)) (b : β) :
    Comes I (as.foldlM f b) (as.foldl g b) := by
  induction as generalizing b with
  | nil => exact .pure b
  | cons a as ih =>
    rw [List.foldlM_cons]
    exact .bind (h b a List.mem_cons_self) (ih (fun b a ha ↦ h b a (List.mem_cons_of_mem _ ha)) _)

/-- A walk is one over fixed buildpaths, if reading a buildpath always comes to the same. -/
theorem Comes.walk {turn : String → Option Entry → σ → Entry → Turn σ} {res : String → List Entry}
    {entries? : String → ModelM (Option (List Entry))}
    (h : ∀ q m, I m → ((entries? q).run m).1.getD [] = res q ∧ I ((entries? q).run m).2)
    (depth : Nat) (project : String) (referring : Option Entry) (es : List Entry) (s : σ) :
    Comes I (walk turn entries? depth project referring es s)
      (walkOver turn res depth project referring es s) := by
  induction depth generalizing project referring es s with
  | zero => exact .pure s
  | succ depth ih =>
    rw [walkOver_succ, Buildpath.walk]
    refine .foldlM (fun s e _ ↦ ?_) s
    cases hturn : turn project referring s e with
    | pass s' =>
      rw [stepOver_pass hturn]
      exact .pure s'
    | enter q s' =>
      intro m hm
      obtain ⟨hanswer, hm₁⟩ := h q m hm
      rcases hread : (entries? q).run m with ⟨found, m₁⟩
      rw [hread] at hanswer hm₁
      rw [stepOver_enter hturn, ← hanswer]
      dsimp only
      rw [StateT.run_bind, hread]
      cases found with
      | none => exact ⟨m₁, by cases depth <;> rfl, hm₁⟩
      | some found => exact ih q _ found s' m₁ hm₁

/-- A walk through the projects of a still model is one over their resolutions. -/
theorem walk_still {turn : String → Option Entry → σ → Entry → Turn σ} (depth : Nat) (project : String)
    (referring : Option Entry) (es : List Entry) (s : σ) :
    Comes m.StillAs (walk turn resolvedEntries? depth project referring es s)
      (walkOver turn m.entriesOf depth project referring es s) := by
  refine .walk (fun q m' hm ↦ ?_) depth project referring es s
  obtain ⟨hanswer, hkept⟩ := hm.still.resolvedEntries? q
  exact ⟨hanswer.trans (hm.entriesOf q), hm.trans hkept⟩

end ModelM

end Buildpath
