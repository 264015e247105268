import Buildpath.Proofs.Model.Choosing
import Buildpath.Proofs.Model.Completing

/-!
# Comparing a project again

How a project is when it is compared becomes the new point of comparison. Comparing it again right away
finds nothing (`generateDelta_again`) if it is resolved to the same again: its result has no unbound entry
and stays, or the containers whose bindings the first comparison drops are made again as they were.
-/

namespace Buildpath

variable {make : Path → String → Option Container} {m m' m₁ : Model} {project : String}
  {change now : Change} {g : GeneratedDelta} {i : Issued}

namespace Model

/-- Whether a model differs by what is only kept for others to read, and by what was computed from
results. -/
structure Compared (project : String) (m m' : Model) : Prop where
  rest : ∃ cells held markers folders children,
    m' = { m with cells, held, markers, folders, children }
  raw : (m'.cell project).raw = (m.cell project).raw
  state : (m'.cell project).state = (m.cell project).state
  last : (m'.cell project).last = (m.cell project).last

instance : Frame (Compared project) where
  refl m := ⟨⟨m.cells, m.held, m.markers, m.folders, m.children, rfl⟩, rfl, rfl, rfl⟩
  trans h h' := by
    refine ⟨?_, h'.raw.trans h.raw, h'.state.trans h.state, h'.last.trans h.last⟩
    obtain ⟨cells', held', markers', folders', children', hm''⟩ := h'.rest
    obtain ⟨cells, held, markers, folders, children, rfl⟩ := h.rest
    exact ⟨cells', held', markers', folders', children', hm''⟩
  volatile m held markers folders children :=
    ⟨⟨m.cells, held, markers, folders, children, rfl⟩, rfl, rfl, rfl⟩
  caches m other c hraw _ hstate hlast := by
    have hcell := m.cell_setCell other project c
    refine ⟨⟨_, m.held, m.markers, m.folders, m.children, rfl⟩, ?_, ?_, ?_⟩ <;> rw [hcell] <;> split
    · next heq => exact heq ▸ hraw
    · rfl
    · next heq => exact heq ▸ hstate
    · rfl
    · next heq => exact heq ▸ hlast
    · rfl
  clearRoots m := by
    have hcell := m.cell_clearRoots project
    refine ⟨⟨_, m.held, m.markers, m.folders, m.children, rfl⟩, ?_, ?_, ?_⟩ <;> rw [hcell] <;> rfl

theorem Compared.steady (h : m.Compared project m') (hs : m.Steady make) : m'.Steady make := by
  obtain ⟨cells, held, markers, folders, children, rfl⟩ := h.rest
  exact ⟨hs.made, hs.unmade, hs.nesting⟩

theorem Compared.workspace (h : m.Compared project m') : m'.workspace = m.workspace := by
  obtain ⟨cells, held, markers, folders, children, rfl⟩ := h.rest
  rfl

/-- A project that comes to its result again still does so once it was compared. -/
theorem Compared.rests {es : List Entry} {r : Resolved} (h : m.Compared project m')
    (hm : m.Rests make project es r) : m'.Rests make project es r := by
  have hraw : ∃ raw, (m'.cell project).raw = some raw ∧ raw.entries = es := h.raw ▸ hm.raw
  have hresolved : ∃ j, (m'.cell project).state = .resolved j ∧ (m'.cell project).last = some j ∧
      j.result.known = r.known := by
    rw [h.state, h.last]
    exact hm.resolved
  obtain ⟨cells, held, markers, folders, children, rfl⟩ := h.rest
  exact ⟨hm.isIdle, hraw, hresolved, hm.again⟩

/-- The containers of a project whose bindings are dropped when the project is compared with how it was
are made again as they are bound, with the same entries. A binding is dropped if the old buildpath
mentions the container and the one of the project does not mention it in the same way. -/
def RemakesDropped (make : Path → String → Option Container) (m : Model) (change : Change) : Prop :=
  ∀ old, change.raw = some old → ∀ e ∈ (m.raw change.project).entries, e.kind = .container →
    ∀ o ∈ old, o.kind = .container → o.path = e.path →
      ¬ (m.raw change.project).entries.any (·.sameStructure o) →
        containerEntries (make e.path change.project) =
          containerEntries (m.registry.container? make e.path change.project)

end Model

namespace ModelM

open Model

/-- Comparing a project with what it is resolved to finds nothing. -/
theorem generateDelta_of_same {old : Issued} (hrun : (resolution change.project).runOn m = (.ok i, m'))
    (hraw : change.raw = some (m'.cell change.project).rawEntries) (hold : change.resolved = some old)
    (hsame : old.result.entries = i.result.entries) :
    ((generateDelta change).run m).1.1.flags = {} ∧
      ((generateDelta change).run m).1.1.delta.isEmpty := by
  have hraws : ∀ g, compareRaws change (m'.cell change.project).rawEntries g = pure g :=
    compareRaws_same fun old hold ↦ Option.some.inj (hraw.symm.trans hold)
  have houtcomes : ∀ g, compareOutcomes change i g = pure g :=
    compareOutcomes_same hold (hsame ▸ sameStructure_self _)
  rw [generateDelta_run hrun, hraws, pure_bind, houtcomes, pure_bind]
  exact ⟨rfl, rfl⟩

/-- How a project is left once it was compared: it has become the point of comparison, and some bindings
were dropped. -/
theorem generateDelta_leaves (make : Path → String → Option Container)
    (hrun : (resolution change.project).runOn m = (.ok i, m₁))
    (h : (generateDelta change).run m = ((g, now), m')) :
    now = { project := change.project, raw := some (m₁.cell change.project).rawEntries
            resolved := some i } ∧ g.new = some i ∧
      ∃ registry, ({ m₁ with registry } : Model).Compared change.project m' ∧
        ∀ path, registry.container? make path change.project =
            m₁.registry.container? make path change.project ∨
          registry.container? make path change.project = make path change.project ∧
            ∃ old, change.raw = some old ∧ ∃ o ∈ old, o.kind = .container ∧ o.path = path ∧
              ¬ (m₁.cell change.project).rawEntries.any (·.sameStructure o) := by
  let es := (m₁.cell change.project).rawEntries
  let begun : GeneratedDelta :=
    { project := change.project, delta := { project := change.project }
      old := change.resolved, new := some i }
  let m₂ := m₁.setCell change.project (m₁.cell change.project)
  let compared := (compareRaws change es begun).run m₂
  have hsteps : (generateDelta change).run m =
      ((((compareOutcomes change i compared.1).run compared.2).1,
        { project := change.project, raw := some es, resolved := some i }),
        ((compareOutcomes change i compared.1).run compared.2).2) := by
    rw [generateDelta_run hrun]
    rfl
  obtain ⟨hg, rfl⟩ := Prod.mk.inj (hsteps.symm.trans h)
  obtain ⟨rfl, rfl⟩ := Prod.mk.inj hg
  have hnew : ((compareOutcomes change i compared.1).run compared.2).1.new = some i :=
    (extends_compareOutcomes change i compared.1 compared.2).new.trans
      (extends_compareRaws change es begun m₂).new
  have hcompared : compared.2.Compared change.project
      ((compareOutcomes change i compared.1).run compared.2).2 :=
    moves_compareOutcomes change i compared.1 compared.2
  have hdrops : ∃ registry, compared.2 = { m₂ with registry } ∧
      ∀ path, registry.container? make path change.project =
          m₁.registry.container? make path change.project ∨
        registry.container? make path change.project = make path change.project ∧
          ∃ old, change.raw = some old ∧ ∃ o ∈ old, o.kind = .container ∧ o.path = path ∧
            ¬ es.any (·.sameStructure o) := by
    change ∃ registry, ((compareRaws change es begun).run m₂).2 = _ ∧ _
    unfold compareRaws
    cases hraw : change.raw with
    | none => exact ⟨m₂.registry, rfl, fun _ ↦ .inl rfl⟩
    | some old =>
      obtain ⟨registry, hm₃, hk, -⟩ := drops_compareRaw old es begun m₂
      exact ⟨registry, hm₃, fun path ↦ (hk path).imp_right (.imp_right fun ho ↦ ⟨old, rfl, ho⟩)⟩
  obtain ⟨registry, hm₃, hk⟩ := hdrops
  refine ⟨rfl, hnew, registry, ?_, hk⟩
  rw [hm₃] at hcompared ⊢
  exact Chained.trans (Ground.touched { m₁ with registry } change.project) hcompared

/-- A project that has a result without an unbound entry is compared with it. -/
private theorem generateDelta_of_kept {registry : Registry} {raw : RawBuildpath} (hok : i.result.isOk)
    (hexists : m₁.workspace.projectExists change.project)
    (hissued : (m₁.cell change.project).issued? = some i)
    (hraw : (m₁.cell change.project).raw = some raw)
    (h : ({ m₁ with registry } : Model).Compared change.project m)
    (hchange : change.raw = some (m₁.cell change.project).rawEntries)
    (hresolved : change.resolved = some i) :
    ((generateDelta change).run m).1.1.flags = {} ∧
      ((generateDelta change).run m).1.1.delta.isEmpty := by
  have hraw' : (m.cell change.project).raw = some raw := h.raw.trans hraw
  have hstate : (m.cell change.project).issued? = some i := (congrArg _ h.state).trans hissued
  obtain ⟨cells, hrun, hcell⟩ := resolutionBy_runOn findContainer (h.workspace ▸ hexists)
  have hcell := (hcell change.project).trans (if_pos rfl)
  have hb : (m.loaded change.project).begin (change.project ∈ m.resolving) =
      (.cached i, m.cell change.project) := by
    rw [loaded_of_raw hraw', Cell.begin, hstate]
    exact if_pos hok
  rw [hb] at hrun hcell
  refine generateDelta_of_same hrun (hchange.trans (congrArg some ?_)) hresolved rfl
  rw [Cell.rawEntries, Cell.rawEntries, hcell, hraw', hraw]

/-- A project that was resolved anew comes to its result again. -/
private theorem rests_of_anew (hidle : project ∉ m.resolving) (htouched : m.Touched make project m₁)
    (hresult : i.result = m.outcome make project (m.raw project).entries (m.loaded project).last)
    (hcell : m₁.cell project =
      { m.loaded project with state := .resolved i, last := some i, fragments := none, roots := none }) :
    m₁.Rests make project (m.raw project).entries i.result := by
  have hraw : (m₁.cell project).raw = some (m.raw project) :=
    (congrArg Cell.raw hcell).trans (m.raw_loaded project)
  have hstate : (m₁.cell project).state = .resolved i := congrArg Cell.state hcell
  have hlast : (m₁.cell project).last = some i := congrArg Cell.last hcell
  obtain ⟨cells, registry, log, folders, issued, rfl, hg⟩ := htouched.rest
  refine ⟨hidle, ⟨_, hraw, rfl⟩, ⟨i, hstate, hlast, rfl⟩, fun j hj ↦ ?_⟩
  have hbindings : ∀ e ∈ (m.raw project).entries, e.kind = .container →
      containerEntries (registry.container? make e.path project) =
        containerEntries (m.registry.container? make e.path project) :=
    fun e _ _ ↦ by rw [hg.container?_eq]
  rw [hresult] at hj ⊢
  exact Model.outcome_again ⟨rfl, rfl, rfl, rfl, rfl⟩ (fun _ _ _ ↦ rfl) hbindings hj

/-- Where initializers are steady and make the containers again whose bindings were dropped, a project that
was compared comes to the same result. -/
private theorem generateDelta_of_rests {registry : Registry} {es : List Entry} (hs : m₁.Steady make)
    (hexists : m₁.workspace.projectExists change.project)
    (hrests : m₁.Rests make change.project es i.result)
    (hk : ∀ e ∈ es, e.kind = .container →
      containerEntries (registry.container? make e.path change.project) =
        containerEntries (m₁.registry.container? make e.path change.project))
    (h : ({ m₁ with registry } : Model).Compared change.project m)
    (hchange : change.raw = some es) (hresolved : change.resolved = some i) :
    ((generateDelta change).run m).1.1.flags = {} ∧
      ((generateDelta change).run m).1.1.delta.isEmpty := by
  have hsteady : ({ m₁ with registry } : Model).Steady make := ⟨hs.made, hs.unmade, hs.nesting⟩
  obtain ⟨i', m', hrun, htouched, hresolves⟩ :=
    resolution_steady (h.steady hsteady) (h.workspace ▸ hexists)
  obtain ⟨hfirm, hknown⟩ :=
    firm_of_resolves (h.rests (hrests.of_registry hk)) htouched hresolves
  obtain ⟨raw, hraw, rfl⟩ := hfirm.raw
  refine generateDelta_of_same hrun (hchange.trans (congrArg some ?_)) hresolved
    (Resolved.entries_eq hknown).symm
  rw [Cell.rawEntries, hraw]
  rfl

/-- Comparing a project and then comparing it again finds nothing the second time, if the first result has no
unbound entry and no initializer replaces the raw buildpath of the project, or if initializers are steady
and make the containers again whose bindings the first comparison drops. -/
theorem generateDelta_again (hidle : change.project ∉ m.resolving)
    (hrun : (generateDelta change).run m = ((g, now), m'))
    (h : m.Tame (fun other _ ↦ other ≠ change.project) ∧ (∀ i, g.new = some i → i.result.isOk) ∨
      ∃ make, m.Steady make ∧ m.RemakesDropped make change) :
    ((generateDelta now).run m').1.1.flags = {} ∧ ((generateDelta now).run m').1.1.delta.isEmpty := by
  by_cases hexists : m.workspace.projectExists change.project
  · rcases h with ⟨htame, hbound⟩ | ⟨make, hs, hk⟩
    · obtain ⟨i, m₁, hres⟩ := resolution_succeeds hexists
      obtain ⟨rfl, hnew, registry, hcompared, -⟩ := generateDelta_leaves makeNothing hres hrun
      obtain ⟨hissued, hraw, hworkspace⟩ := issued?_of_resolution_tame htame hidle hres
      exact generateDelta_of_kept (hbound i hnew) (hworkspace ▸ hexists) hissued hraw hcompared rfl rfl
    · obtain ⟨i, m₁, hres, htouched, hresolves⟩ := resolution_steady hs hexists
      have hs₁ : m₁.Steady make := (bound_of_resolves htouched hresolves).steady hs
      have hexists₁ : m₁.workspace.projectExists change.project := by
        obtain ⟨cells, registry, log, folders, issued, rfl, -⟩ := htouched.rest
        exact hexists
      obtain ⟨rfl, hnew, registry, hcompared, hdrops⟩ := generateDelta_leaves make hres hrun
      cases hresolves with
      | cached hissued hok hcell =>
        exact generateDelta_of_kept hok hexists₁ (hcell ▸ hissued) (hcell ▸ m.raw_loaded change.project)
          hcompared rfl rfl
      | reentrant hin _ _ => exact absurd hin hidle
      | anew _ _ hresult hcell _ =>
        have hrests := rests_of_anew hidle htouched hresult hcell
        have hentries : (m₁.cell change.project).rawEntries = (m.raw change.project).entries := by
          rw [Cell.rawEntries, hcell, m.raw_loaded]
          rfl
        have hlook : ∀ path, m₁.registry.container? make path change.project =
            m.registry.container? make path change.project := by
          obtain ⟨cells, registry, log, folders, issued, rfl, hg⟩ := htouched.rest
          exact fun path ↦ hg.container?_eq path change.project
        refine generateDelta_of_rests hs₁ hexists₁ hrests (fun e he hkind ↦ ?_) hcompared
          (congrArg some hentries) rfl
        rcases hdrops e.path with hsame | ⟨hmade, old, hold, o, ho, hokind, hopath, hlacks⟩
        · rw [hsame]
        · rw [hmade, hlook]
          exact hk old hold e he hkind o ho hokind hopath (hentries ▸ hlacks)
  · obtain ⟨hg, rfl⟩ := Prod.mk.inj ((generateDelta_missing hexists).symm.trans hrun)
    obtain ⟨-, rfl⟩ := Prod.mk.inj hg
    rw [generateDelta_missing hexists]
    exact ⟨rfl, rfl⟩

/-- A variable without a value. -/
def unsetVariable : Entry := { kind := .variableRef, path := .parse "LIB/a.zip" }

/-- Exports the container of a project that also mentions a variable without a value, and tells how the
project was before. -/
def exportCore : ModelM Change := do
  modifyCell "p" (·.setRaw [coreEntry, unsetVariable])
  let old ← (resolution "p").run
  changeBy "p" (·.setRaw [{ coreEntry with exported := true }, unsetVariable]) none old.toOption

/-- A container that is made again by its initializer is found to be exported once. -/
theorem remade_container_is_found_once : ∃ (captured : Change × Model)
    (compared : (GeneratedDelta × Change) × Model), captured = exportCore.run withLibraries ∧
    compared = (generateDelta captured.1).run captured.2 ∧
    captured.1.project ∉ captured.2.resolving ∧ captured.2.Steady makeLibraries ∧
    captured.2.RemakesDropped makeLibraries captured.1 ∧ compared.1.1.hasDelta ∧
    ((generateDelta compared.1.2).run compared.2).1.1.flags = {} ∧
    ((generateDelta compared.1.2).run compared.2).1.1.delta.isEmpty := by
  have hsteady : (exportCore.run withLibraries).2.Steady makeLibraries := by
    have hmoves : exportCore.Moves (Since "p") :=
      .bind (moves_modifyCell _ _) fun _ ↦ .bind (since_resolution "p") fun _ ↦
        .bind (moves_cell _) fun _ ↦ .bind (moves_modifyCell _ _) fun _ ↦ .pure _
    exact (hmoves withLibraries).steady steady_withLibraries
  have hidle : (exportCore.run withLibraries).1.project ∉ (exportCore.run withLibraries).2.resolving := by
    decide +kernel
  have hentries : ((exportCore.run withLibraries).2.raw (exportCore.run withLibraries).1.project).entries =
      [{ coreEntry with exported := true }, unsetVariable] := by decide +kernel
  have hbound : (exportCore.run withLibraries).2.registry.container? makeLibraries coreEntry.path
      (exportCore.run withLibraries).1.project = some coreContainer := by decide +kernel
  have hfound : ((generateDelta (exportCore.run withLibraries).1).run
      (exportCore.run withLibraries).2).1.1.hasDelta := by decide +kernel
  obtain ⟨captured, hcaptured⟩ : ∃ captured, captured = exportCore.run withLibraries := ⟨_, rfl⟩
  rw [← hcaptured] at hsteady hidle hentries hbound hfound
  have hk : captured.2.RemakesDropped makeLibraries captured.1 := by
    intro old _ e he hkind _ _ _ _ _
    rw [hentries] at he
    rcases List.mem_cons.mp he with rfl | he
    · rw [hbound]
      rfl
    · obtain rfl := List.mem_singleton.mp he
      cases hkind
  rcases hcompared : (generateDelta captured.1).run captured.2 with ⟨⟨g, now⟩, m'⟩
  rw [hcompared] at hfound
  refine ⟨captured, _, hcaptured, hcompared.symm, hidle, hsteady, hk, hfound, ?_⟩
  exact generateDelta_again hidle hcompared (.inr ⟨makeLibraries, hsteady, hk⟩)

/-- A container whose binding no initializer makes again is found to be gone the second time, though nothing
happened in between. -/
theorem dropped_container_is_found_later : ∃ (captured : Change × Model)
    (compared : (GeneratedDelta × Change) × Model), captured = exportCore.run boundLibrary ∧
    compared = (generateDelta captured.1).run captured.2 ∧ captured.2.resolving = [] ∧
    ((generateDelta compared.1.2).run compared.2).1.1.flags ≠ {} ∧
    ¬ ((generateDelta compared.1.2).run compared.2).1.1.delta.isEmpty :=
  ⟨_, _, rfl, rfl, by decide +kernel, by decide +kernel, by decide +kernel⟩

end ModelM

end Buildpath
