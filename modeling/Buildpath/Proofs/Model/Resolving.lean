import Buildpath.Proofs.Cell
import Buildpath.Proofs.Model.Steady

/-!
# Resolutions of projects

With look-ups that only bind, resolving a project comes to what its raw buildpath stands for
(`Model.outcome`). It changes the cell of the project, and apart from that what the look-ups change
(`resolutionBy_steady`).
-/

namespace Buildpath

variable {make : Path → String → Option Container} {m m' m'' : Model} {project : String}

namespace ModelM

variable {find : Path → String → ModelM (Option Container)}

/-- The entries behind an entry are those it is bound to, and a container is bound then. -/
private theorem entriesBehind_steady (hfind : LooksUp make find) (hs : m.Steady make)
    (project : String) (c : ResolutionContext) (e : Entry) :
    ∃ m', (entriesBehind (bindings find project) c e).run m =
        ((entriesBehind (m.steadyBindings make project) c e).run, m') ∧ m.Bound make m' ∧
      (e.kind = .container → m'.registry.bindings.find? (project, e.path) = none →
        make e.path project = none) := by
  unfold entriesBehind
  cases e.kind with
  | variableRef =>
    have hlook : ( Bindings.variableEntry? (bindings find project) e).run m =
        (( Bindings.variableEntry? (m.steadyBindings make project) e).run, m) := rfl
    refine ⟨m, ?_, .refl m, nofun⟩
    dsimp only
    rw [StateT.run_bind, hlook, Id.run_bind]
    cases ( Bindings.variableEntry? (m.steadyBindings make project) e).run <;> rfl
  | container =>
    have hlook : ((bindings find project).container? e.path).run m =
        (((m.steadyBindings make project).container? e.path).run,
          ((find e.path project).run m).2) := Prod.ext (hfind.finds e.path project m hs) rfl
    refine ⟨_, ?_, hfind.binds e.path project m hs, fun _ ↦ hfind.fixes e.path project m hs⟩
    dsimp only
    rw [StateT.run_bind, hlook, Id.run_bind]
    cases ((m.steadyBindings make project).container? e.path).run <;> rfl
  | library => exact ⟨m, rfl, .refl m, nofun⟩
  | source => exact ⟨m, rfl, .refl m, nofun⟩
  | project => exact ⟨m, rfl, .refl m, nofun⟩

/-- What is bound on the way does not change what is found, and stays bound. -/
private theorem foldlM_steady (hfind : LooksUp make find) (hs : m.Steady make) (project : String)
    (c : ResolutionContext) (listed : List Path) (es : List Entry) (p : ResolutionPass)
    (hm : m.Bound make m') : ∃ m'',
      (es.foldlM (fun (p : ResolutionPass) e ↦ do
        match ← entriesBehind (bindings find project) c e with
        | .ok entries => pure (p.addAll c listed e entries)
        | .error problem => pure { p with result := p.result.recordProblem problem }) p).run m' =
        (es.foldl (fun p e ↦ p.addFound c listed e
          (entriesBehind (m.steadyBindings make project) c e).run) p, m'') ∧
      m'.Bound make m'' ∧ m''.registry.Fixed make project es := by
  induction es generalizing p m' with
  | nil => exact ⟨m', rfl, .refl m', fun _ he ↦ absurd he List.not_mem_nil⟩
  | cons e es ih =>
    obtain ⟨m₁, hrun, hbound₁, hfixed₁⟩ := entriesBehind_steady hfind (hm.steady hs) project c e
    rw [hm.steadyBindings_eq] at hrun
    obtain ⟨m₂, hrest, hbound₂, hfixed₂⟩ := ih (p.addFound c listed e
      (entriesBehind (m.steadyBindings make project) c e).run) (hm.trans hbound₁)
    refine ⟨m₂, ?_, hbound₁.trans hbound₂, ?_⟩
    · rw [List.foldlM_cons, StateT.run_bind, StateT.run_bind, hrun, List.foldl_cons, ← hrest]
      cases (entriesBehind (m.steadyBindings make project) c e).run <;> rfl
    · have hfixed : m₁.registry.Fixed make project [e] := by
        intro e' he'
        obtain rfl := List.mem_singleton.mp he'
        exact hfixed₁
      intro e' he'
      rcases List.mem_cons.mp he' with rfl | he'
      · exact hfixed.of_grows hbound₂.grows e' List.mem_cons_self
      · exact hfixed₂ e' he'

/-- Resolving a raw buildpath comes to what it stands for, and its containers are bound then. -/
theorem resolveRaw_steady (hfind : LooksUp make find) (hs : m.Steady make) (project : String)
    (raw : List Entry) (last : Option Issued) :
    ∃ m', (resolveRaw find project raw last).run m = (m.outcome make project raw last, m') ∧
      m.Bound make m' ∧ m'.registry.Fixed make project raw := by
  have hrun : (resolveRaw find project raw last).run m =
      (((resolve (bindings find project) (m.resolutionContext project last) raw).run m).1.result,
        ((resolve (bindings find project) (m.resolutionContext project last) raw).run m).2.addFolders
          ((resolve (bindings find project) (m.resolutionContext project last) raw).run
            m).1.folders) := rfl
  obtain ⟨m₁, hresolve, hbound, hfixed⟩ := foldlM_steady hfind hs project
    (m.resolutionContext project last) (listedLibraries (m.resolutionContext project last) raw) raw {}
    (.refl m)
  have hpass : (resolve (bindings find project) (m.resolutionContext project last) raw).run m =
      ((resolve (m.steadyBindings make project) (m.resolutionContext project last) raw).run, m₁) := by
    rw [run_resolve]
    exact hresolve
  rw [hrun, hpass]
  exact ⟨_, rfl, hbound.trans (.of_bindings rfl), hfixed⟩

end ModelM

/-! ### Cells that are resolved -/

/-- Whether a model differs by what resolving a project changes. -/
structure Model.Touched (make : Path → String → Option Container) (project : String) (m m' : Model) :
    Prop where
  rest : ∃ cells registry log folders issued,
    m' = { m with cells, registry, log, folders, issued } ∧ m.registry.Grows make registry
  raws : ∀ other raw, (m.cell other).raw = some raw → (m'.cell other).raw = some raw
  holds : ∀ other, project ≠ other → m.Holds other → m'.cell other = m.cell other
  firm : ∀ other es r, project ≠ other → m.Firm make other es r → m'.Firm make other es r

theorem Model.Touched.trans (h : m.Touched make project m') (h' : m'.Touched make project m'') :
    m.Touched make project m'' := by
  refine ⟨?_, fun other raw hraw ↦ h'.raws other raw (h.raws other raw hraw), fun other hne hm ↦ ?_,
    fun other es r hne hf ↦ h'.firm other es r hne (h.firm other es r hne hf)⟩
  · obtain ⟨cells', registry', log', folders', issued', hm'', hg'⟩ := h'.rest
    obtain ⟨cells, registry, log, folders, issued, rfl, hg⟩ := h.rest
    exact ⟨cells', registry', log', folders', issued', hm'', hg.trans hg'⟩
  · have hcell := h.holds other hne hm
    have hm' : m'.Holds other := by
      obtain ⟨cells, registry, log, folders, issued, rfl, -⟩ := h.rest
      exact ⟨hcell ▸ hm.1, hcell ▸ hm.2⟩
    exact (h'.holds other hne hm').trans hcell

/-- How a project was resolved, and its cell afterwards. -/
inductive Model.Resolves (make : Path → String → Option Container) (m : Model) (project : String)
    (i : Issued) (m' : Model) : Prop where
  /-- There was a result that counts. -/
  | cached (issued : (m.loaded project).issued? = some i) (isOk : i.result.isOk)
    (cell : m'.cell project = m.loaded project)
  /-- The project is being resolved. -/
  | reentrant (isResolving : project ∈ m.resolving) (result : i.result = .ofProgress)
    (cell : m'.cell project = m.loaded project)
  /-- The project was resolved anew. -/
  | anew (isIdle : project ∉ m.resolving)
    (isStale : ∀ j, (m.loaded project).issued? = some j → ¬ j.result.isOk)
    (result : i.result = m.outcome make project (m.raw project).entries (m.loaded project).last)
    (cell : m'.cell project =
      { m.loaded project with state := .resolved i, last := some i, fragments := none, roots := none })
    (fixed : m'.registry.Fixed make project (m.raw project).entries)

namespace ModelM

variable {find : Path → String → ModelM (Option Container)}

/-- Resolves a raw buildpath, for a cell that began to be resolved. -/
def resolveAnew (find : Path → String → ModelM (Option Container)) (project : String)
    (generation : Nat) (raw : List Entry) (last : Option Issued) : ModelM Issued := do
  modify fun m ↦ { m with resolving := project :: m.resolving }
  let result ← resolveRaw find project raw last
  let issued ← issue result
  modifyCell project (·.complete generation issued)
  modify fun m ↦ { m with resolving := m.resolving.erase project }
  pure issued

/-- Resolving a project that exists reads its cell, and goes on as the cell says. -/
theorem resolutionBy_runOn (find : Path → String → ModelM (Option Container))
    (hexists : m.workspace.projectExists project) :
    ∃ cells, (resolutionBy find project).runOn m =
        (match ((m.loaded project).begin (project ∈ m.resolving)).1 with
        | .cached result => pure result
        | .reentrant => issue Resolved.ofProgress
        | .start generation current last => resolveAnew find project generation
          (current.getD (m.raw project)).entries last : Action Issued).runOn { m with cells } ∧
      ∀ other, ({ m with cells } : Model).cell other = if project = other then
        ((m.loaded project).begin (project ∈ m.resolving)).2 else m.cell other := by
  obtain ⟨cells, hload, hcells⟩ := loadRaw_run m project
  have hloaded : ({ m with cells } : Model).cell project = m.loaded project := by
    rw [hcells, if_pos rfl]
  refine ⟨((({ m with cells } : Model).setCell project (m.loaded project)).setCell project
    ((m.loaded project).begin (project ∈ m.resolving)).2).cells, ?_, fun other ↦ ?_⟩
  · rw [resolutionBy, Action.bind_runOn, requireProject_runOn hexists]
    dsimp only
    rw [Action.bind_runOn, Action.runOn_lift, hload]
    dsimp only
    rw [← hloaded]
    rfl
  · refine (Model.cell_setCell _ _ _ _).trans ?_
    rw [Model.cell_setCell, hcells]
    split <;> rfl

/-- The result is kept in the cell that began to be resolved, if its generation is the same. -/
theorem resolveAnew_run {raw : List Entry} {last : Option Issued} {r : Resolved}
    {generation : Nat} (hresolve : (resolveRaw find project raw last).run
      { m with resolving := project :: m.resolving } = (r, m'))
    (hresolving : m'.resolving = project :: m.resolving)
    (hgeneration : (m'.cell project).generation = generation) :
    (resolveAnew find project generation raw last).run m =
      (⟨m'.issued, r⟩, { m' with
        cells := (m'.setCell project { m'.cell project with
          state := .resolved ⟨m'.issued, r⟩, last := some ⟨m'.issued, r⟩, fragments := none
          roots := none }).cells
        issued := m'.issued + 1, resolving := m.resolving }) := by
  have hrest : (resolveAnew find project generation raw last).run m =
      ((do
        let issued ← issue ((resolveRaw find project raw last).run
          { m with resolving := project :: m.resolving }).1
        modifyCell project (·.complete generation issued)
        modify fun m ↦ { m with resolving := m.resolving.erase project }
        pure issued : ModelM Issued)).run ((resolveRaw find project raw last).run
          { m with resolving := project :: m.resolving }).2 := rfl
  have hcomplete : (m'.cell project).complete generation ⟨m'.issued, r⟩ = { m'.cell project with
      state := .resolved ⟨m'.issued, r⟩, last := some ⟨m'.issued, r⟩, fragments := none
      roots := none } := by
    rw [Cell.complete, if_pos hgeneration]
  have herase : m'.resolving.erase project = m.resolving := by
    rw [hresolving]
    exact List.erase_cons_head _ _
  rw [hrest, hresolve, ← hcomplete, ← herase]
  rfl

/-- Binding while a project is being resolved, and then changing its cell, touches the project. -/
private theorem touched_of_bound {c : Cell} {issued : Nat}
    (hbound : ({ m with resolving := project :: m.resolving } : Model).Bound make m')
    (hraw : ∀ raw, (m.cell project).raw = some raw → c.raw = some raw) :
    m.Touched make project
      { m' with cells := (m'.setCell project c).cells, issued, resolving := m.resolving } := by
  have hcells := fun other ↦ m'.cell_setCell project other c
  refine ⟨?_, fun other raw hother ↦ ?_, fun other hne hm ↦ ?_, fun other es r hne hm ↦ ?_⟩
  · obtain ⟨cells, registry, log, folders, issued, rfl, hg⟩ := hbound.rest
    exact ⟨_, registry, log, folders, _, rfl, hg⟩
  · refine (congrArg Cell.raw (hcells other)).trans ?_
    split
    · next ho => exact hraw raw (ho ▸ hother)
    · exact hbound.raws other raw hother
  · exact ((hcells other).trans (if_neg hne)).trans
      (hbound.holds other ⟨hm.1, hm.2.imp_left (List.mem_cons_of_mem project)⟩)
  · have hfirm : ({ m with resolving := project :: m.resolving } : Model).Firm make other es r := by
      refine hm.of_cell rfl fun hin ↦ ?_
      rcases List.mem_cons.mp hin with ho | hin
      · exact hne ho.symm
      · exact hm.isIdle hin
    exact (hbound.firm other es r hfirm).of_cell ((hcells other).trans (if_neg hne)) hm.isIdle

/-- The project is resolved, and its cell keeps the result. Meanwhile the cell stays as it is, since the
project is being resolved. -/
private theorem resolveAnew_steady (hfind : LooksUp make find) (hs : m.Steady make)
    (hraw : (m.cell project).raw ≠ none) {generation : Nat}
    (hgeneration : (m.cell project).generation = generation) (raw : List Entry) (last : Option Issued) :
    ∃ i m', (resolveAnew find project generation raw last).run m = (i, m') ∧
      i.result = m.outcome make project raw last ∧ m.Touched make project m' ∧
      m'.cell project = { m.cell project with
        state := .resolved i, last := some i, fragments := none, roots := none } ∧
      m'.registry.Fixed make project raw := by
  have hsteady : ({ m with resolving := project :: m.resolving } : Model).Steady make :=
    ⟨hs.made, hs.unmade, hs.nesting⟩
  obtain ⟨m₁, hresolve, hbound, hfixed⟩ := resolveRaw_steady hfind hsteady project raw last
  have hcell : m₁.cell project = m.cell project :=
    hbound.holds project ⟨hraw, .inl List.mem_cons_self⟩
  have hresolving : m₁.resolving = project :: m.resolving := by
    obtain ⟨cells, registry, log, folders, issued, rfl, -⟩ := hbound.rest
    rfl
  refine ⟨_, _, resolveAnew_run hresolve hresolving (hcell ▸ hgeneration), rfl,
    touched_of_bound hbound fun raw' hraw' ↦ (congrArg Cell.raw hcell).trans hraw', ?_, hfixed⟩
  refine (m₁.cell_setCell project project _).trans ((if_pos rfl).trans ?_)
  rw [hcell]

/-- Beginning to resolve a project touches its cell only. -/
private theorem touched_setCell {cells : Table String Cell} {c : Cell} {issued : Nat}
    (hcells : ∀ other, ({ m with cells } : Model).cell other =
      if project = other then c else m.cell other)
    (hraw : ∀ raw, (m.cell project).raw = some raw → c.raw = some raw) :
    m.Touched make project { m with cells, issued } := by
  refine ⟨⟨cells, m.registry, m.log, m.folders, issued, rfl, .refl _⟩, fun other raw hother ↦ ?_,
    fun other hne _ ↦ (hcells other).trans (if_neg hne), fun other es r hne hm ↦
      hm.of_cell ((hcells other).trans (if_neg hne)) hm.isIdle⟩
  refine (congrArg Cell.raw (hcells other)).trans ?_
  split
  · next ho => exact hraw raw (ho ▸ hother)
  · exact hother

/-- Resolving a project that exists gives a result. -/
theorem resolutionBy_steady (hfind : LooksUp make find) (hs : m.Steady make)
    (hexists : m.workspace.projectExists project) :
    ∃ i m', (resolutionBy find project).runOn m = (.ok i, m') ∧ m.Touched make project m' ∧
      m.Resolves make project i m' := by
  obtain ⟨cells, hrun, hcell⟩ := resolutionBy_runOn find hexists
  have hown := (hcell project).trans (if_pos rfl)
  have hraw : ∀ raw, (m.cell project).raw = some raw → (m.loaded project).raw = some raw := by
    intro raw hraw
    rw [Model.loaded_of_raw hraw, hraw]
  rcases (m.loaded project).begin_cases (project ∈ m.resolving) with
    ⟨i, hi, hok, hb⟩ | ⟨hin, hb⟩ | ⟨hout, hstale, generation, hb⟩
  · rw [hb] at hrun hcell hown
    exact ⟨i, _, hrun, touched_setCell hcell hraw, .cached hi hok hown⟩
  · rw [hb] at hrun hcell hown
    exact ⟨_, _, hrun, touched_setCell hcell hraw, .reentrant (of_decide_eq_true hin) rfl hown⟩
  · have hidle := of_decide_eq_false hout
    rw [hb] at hrun hcell hown
    obtain ⟨begun, hbegun⟩ : ∃ begun : Model, begun = { m with cells } := ⟨_, rfl⟩
    have htouched : m.Touched make project begun := hbegun ▸ touched_setCell hcell hraw
    have hentries : ((m.loaded project).raw.getD (m.raw project)) = m.raw project := by
      rw [Model.raw_loaded]
      rfl
    dsimp only at hrun
    rw [hentries, ← hbegun, Action.runOn_lift] at hrun
    rw [← hbegun] at hown
    obtain ⟨i, m', hanew, hresult, htouched', hcell', hfixed⟩ :=
      resolveAnew_steady hfind (hbegun ▸ ⟨hs.made, hs.unmade, hs.nesting⟩)
        (by rw [hown]; exact (m.raw_loaded project).symm ▸ nofun) (congrArg Cell.generation hown)
        (m.raw project).entries (m.loaded project).last
    rw [hanew] at hrun
    refine ⟨i, m', hrun, htouched.trans htouched', .anew hidle hstale ?_ ?_ hfixed⟩
    · rw [hresult, hbegun]
      rfl
    · rw [hcell', hown]

end ModelM

end Buildpath
