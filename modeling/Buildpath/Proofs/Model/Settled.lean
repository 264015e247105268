import Buildpath.Proofs.Model.Frames
import Buildpath.Proofs.Model.Lookups
import Buildpath.Proofs.Resource.Saved

/-!
# Settled projects

A project is settled once its raw buildpath was replaced and resolved: resolving it again comes to the
same result (`Model.Settled`). It stays settled through everything that follows from the change, and
through saving its file if the file has no part in what the buildpath stands for (`Model.Detached`).
-/

namespace Buildpath

variable {make : Path → String → Option Container} {m m' m₀ : Model} {project : String}
  {es : List Entry}

namespace Model

/-- Whether a model comes from another one by steps that save the buildpath of a project, look up
containers and resolve projects. -/
structure Since (project : String) (m m' : Model) : Prop where
  saves : m.workspace.Saves project m'.workspace
  settings : m'.settings = m.settings
  followsLibraries : m'.followsLibraries = m.followsLibraries
  variableValues : m'.variableValues = m.variableValues
  initializers : m'.initializers = m.initializers
  nesting : m'.nesting = m.nesting
  resolving : m'.resolving = m.resolving

instance : OpenFrame (Since project) where
  refl _ := ⟨.refl, rfl, rfl, rfl, rfl, rfl, rfl⟩
  trans h h' := ⟨h.saves.trans h'.saves, h'.settings.trans h.settings,
    h'.followsLibraries.trans h.followsLibraries, h'.variableValues.trans h.variableValues,
    h'.initializers.trans h.initializers, h'.nesting.trans h.nesting, h'.resolving.trans h.resolving⟩
  volatile _ _ _ _ _ := ⟨.refl, rfl, rfl, rfl, rfl, rfl, rfl⟩
  caches _ _ _ _ _ _ _ := ⟨.refl, rfl, rfl, rfl, rfl, rfl, rfl⟩
  clearRoots _ := ⟨.refl, rfl, rfl, rfl, rfl, rfl, rfl⟩
  cells _ _ _ := ⟨.refl, rfl, rfl, rfl, rfl, rfl, rfl⟩
  noted _ _ := ⟨.refl, rfl, rfl, rfl, rfl, rfl, rfl⟩
  issued _ _ := ⟨.refl, rfl, rfl, rfl, rfl, rfl, rfl⟩
  resolving m m' other h := ⟨h.saves, h.settings, h.followsLibraries, h.variableValues,
    h.initializers, h.nesting, by rw [h.resolving]; exact List.erase_cons_head _ _⟩

instance : Deaf (Since project) where
  announced _ _ _ := ⟨.refl, rfl, rfl, rfl, rfl, rfl, rfl⟩
  references _ _ _ _ h := ⟨.references .refl h, rfl, rfl, rfl, rfl, rfl, rfl⟩

theorem Since.steady (h : m.Since project m') (hs : m.Steady make) : m'.Steady make := by
  have hinitializer : ∀ path, m'.initializer? path = m.initializer? path := by
    intro path
    rw [initializer?, initializer?, h.initializers]
  exact ⟨fun path project initializer hi ↦ hs.made path project initializer (hinitializer path ▸ hi),
    fun path project hi ↦ hs.unmade path project (hinitializer path ▸ hi), h.nesting ▸ hs.nesting⟩

theorem Touched.since (h : m.Touched make project m') (other : String) : m.Since other m' := by
  obtain ⟨cells, registry, log, folders, issued, rfl, -⟩ := h.rest
  exact ⟨.refl, rfl, rfl, rfl, rfl, rfl, rfl⟩

/-- The file of a project has no part in what a buildpath stands for: saving it changes neither what
variables stand for nor which libraries a library brings along. -/
structure Detached (m : Model) (project : String) (es : List Entry) : Prop where
  variableEntries : ∀ w, m.workspace.Saves project w → ∀ e ∈ es, e.kind = .variableRef →
    m.variableValues.entry? w e = m.variableValues.entry? m.workspace e
  libraries : m.followsLibraries → ∀ w, m.workspace.Saves project w → ∀ path external,
    w.chainedLibraries path external = m.workspace.chainedLibraries path external

/-- A buildpath without variables is detached if libraries bring along no others. -/
theorem Detached.of_plain (h : ∀ e ∈ es, e.kind ≠ .variableRef) (hm : m.followsLibraries = false) :
    m.Detached project es :=
  ⟨fun _ _ e he hkind ↦ absurd hkind (h e he), fun hf ↦ absurd (hm.symm.trans hf) Bool.false_ne_true⟩

/-- Resolving a buildpath again comes to the same result, if its containers hold the same. -/
theorem outcome_since (hd : m₀.Detached project es) (h : m₀.Since project m)
    (h' : m₀.Since project m') (hk : ∀ e ∈ es, e.kind = .container →
      containerEntries (m'.registry.container? make e.path project) =
        containerEntries (m.registry.container? make e.path project))
    {last : Option Issued} {i : Issued}
    (hi : i.result.known = (m.outcome make project es last).known) :
    (m'.outcome make project es (some i)).known = (m.outcome make project es last).known := by
  have hchained : m'.chained = m.chained := by
    funext path external
    rw [chained, chained, h.followsLibraries, h'.followsLibraries]
    split
    · next hf => rw [hd.libraries hf _ h.saves, hd.libraries hf _ h'.saves]
    · rfl
  have hagree : (m.resolutionContext project last).Agree (m'.resolutionContext project (some i)) := by
    refine ⟨rfl, ?_, rfl, ?_, hchained⟩
    · exact (h'.saves.projects.2 _).trans (h.saves.projects.2 _).symm
    · change (m'.settings.optionsOf project).chainsContainers = _
      rw [h'.settings, ← h.settings]
      rfl
  refine outcome_again hagree (fun e he hkind ↦ ?_) hk hi
  rw [h.variableValues, h'.variableValues, hd.variableEntries _ h.saves e he hkind,
    hd.variableEntries _ h'.saves e he hkind]

/-- Whether a model differs in nothing that concerns the resolution of a project. -/
structure Untouched (project : String) (m m' : Model) : Prop where
  since : m.Since project m'
  raw : (m'.cell project).raw = (m.cell project).raw
  state : (m'.cell project).state = (m.cell project).state
  last : (m'.cell project).last = (m.cell project).last
  registry : m'.registry = m.registry

instance : Frame (Untouched project) where
  refl m := ⟨Chained.refl m, rfl, rfl, rfl, rfl⟩
  trans h h' := ⟨Chained.trans h.since h'.since, h'.raw.trans h.raw, h'.state.trans h.state,
    h'.last.trans h.last, h'.registry.trans h.registry⟩
  volatile m _ _ _ _ := ⟨Backdrop.volatile m _ _ _ _, rfl, rfl, rfl, rfl⟩
  caches m other c hraw _ hstate hlast := by
    have hcell := m.cell_setCell other project c
    by_cases ho : other = project
    · subst ho
      rw [if_pos rfl] at hcell
      exact ⟨OpenFrame.cells m _ c, (congrArg Cell.raw hcell).trans hraw,
        (congrArg Cell.state hcell).trans hstate, (congrArg Cell.last hcell).trans hlast, rfl⟩
    · rw [if_neg ho] at hcell
      exact ⟨OpenFrame.cells m _ c, congrArg Cell.raw hcell, congrArg Cell.state hcell,
        congrArg Cell.last hcell, rfl⟩
  clearRoots m := by
    have hcell := m.cell_clearRoots project
    exact ⟨Ground.clearRoots m, (congrArg Cell.raw hcell).trans rfl,
      (congrArg Cell.state hcell).trans rfl, (congrArg Cell.last hcell).trans rfl, rfl⟩

instance : Deaf (Untouched project) where
  announced m _ _ := ⟨Deaf.announced m _ _, rfl, rfl, rfl, rfl⟩
  references m w name names hset := ⟨Deaf.references m w name names hset, rfl, rfl, rfl, rfl⟩

/-- The raw buildpath of a project was replaced, and resolved to a result that it comes to again. -/
structure Rested (make : Path → String → Option Container) (m₀ : Model) (project : String)
    (es : List Entry) (r : Resolved) (m : Model) : Prop where
  detached : m₀.Detached project es
  since : m₀.Since project m
  steady : m.Steady make
  rests : m.Rests make project es r

/-- The raw buildpath of a project was replaced, and resolved to a result that it comes to whatever is
resolved first. -/
structure Settled (make : Path → String → Option Container) (m₀ : Model) (project : String)
    (es : List Entry) (r : Resolved) (m : Model) : Prop extends Rested make m₀ project es r m where
  fixed : (∀ i, (m.cell project).issued? = some i → i.result.isOk) ∨ m.registry.Fixed make project es

variable {r : Resolved}

theorem Settled.firm (h : m₀.Settled make project es r m) : m.Firm make project es r :=
  ⟨h.rests, h.fixed⟩

theorem Rested.of_untouched (h : m₀.Rested make project es r m) (hm : m.Untouched project m') :
    m₀.Rested make project es r m' := by
  refine ⟨h.detached, Chained.trans h.since hm.since, hm.since.steady h.steady, ?_⟩
  refine ⟨hm.since.resolving ▸ h.rests.isIdle, hm.raw ▸ h.rests.raw, ?_, fun i hi ↦ ?_⟩
  · rw [hm.state, hm.last]
    exact h.rests.resolved
  · have hr := h.rests.again i hi
    refine Eq.trans ?_ hr
    exact outcome_since h.detached h.since (Chained.trans h.since hm.since)
      (fun e _ _ ↦ by rw [hm.registry]) (hi.trans hr.symm)

theorem Settled.of_untouched (h : m₀.Settled make project es r m) (hm : m.Untouched project m') :
    m₀.Settled make project es r m' := by
  refine ⟨h.toRested.of_untouched hm, ?_⟩
  rw [Cell.issued?, hm.state, hm.registry]
  exact h.fixed

/-- Whether steps keep a project settled. -/
def Settles (make : Path → String → Option Container) (m₀ : Model) (project : String)
    (es : List Entry) (r : Resolved) (m m' : Model) : Prop :=
  m₀.Settled make project es r m → m₀.Settled make project es r m'

instance : Frame (Settles make m₀ project es r) where
  refl _ h := h
  trans h h' hm := h' (h hm)
  volatile m _ _ _ _ h := h.of_untouched (Backdrop.volatile m _ _ _ _)
  caches m other c hraw hg hstate hlast h :=
    h.of_untouched (CacheFrame.caches m other c hraw hg hstate hlast)
  clearRoots m h := h.of_untouched (Ground.clearRoots m)

instance : Deaf (Settles make m₀ project es r) where
  announced m _ _ h := h.of_untouched (Deaf.announced m _ _)
  references m w name names hset h := h.of_untouched (Deaf.references m w name names hset)

end Model

namespace ModelM

variable {r : Resolved}

theorem resolution_missing (h : ¬ m.workspace.projectExists project) :
    (resolution project).runOn m = (.error (.projectNotFound project), m) :=
  resolutionBy_missing findContainer h

theorem projectExists_of_resolution {i : Issued} (h : ((resolution project).runOn m).1 = .ok i) :
    m.workspace.projectExists project := by
  by_contra hmissing
  rw [resolution_missing hmissing] at h
  cases h

/-- Resolving a project keeps what it keeps if the project exists, since nothing happens otherwise. -/
theorem moves_resolution {R : Model → Model → Prop} [Chained R]
    (h : ∀ m : Model, m.workspace.projectExists project → R m ((resolution project).runOn m).2) :
    Action.Moves R (resolution project) := by
  intro m
  by_cases hexists : m.workspace.projectExists project
  · exact h m hexists
  · have hrun : (resolution project).run.run m = (.error _, m) := resolution_missing hexists
    rw [hrun]
    exact Chained.refl m

/-- Resolving any project keeps a project settled. -/
theorem settles_resolution (other : String) :
    Action.Moves (m₀.Settles make project es r) (resolution other) := by
  refine moves_resolution fun m hexists h ↦ ?_
  obtain ⟨i, m', hrun, htouched, hresolves⟩ := resolution_steady h.steady hexists
  have hfirm := (bound_of_resolves htouched hresolves).firm project es r h.firm
  have hsince := htouched.since project
  rw [hrun]
  exact ⟨⟨h.detached, Chained.trans h.since hsince, hsince.steady h.steady, hfirm.toRests⟩, hfirm.fixed⟩

/-- Resolving a rested project comes to its result, and settles it. -/
theorem resolution_of_rested (h : m₀.Rested make project es r m)
    (hexists : m.workspace.projectExists project) :
    ∃ i m', (resolution project).runOn m = (.ok i, m') ∧ i.result.known = r.known ∧
      m₀.Settled make project es r m' := by
  obtain ⟨i, m', hrun, htouched, hresolves⟩ := resolution_steady h.steady hexists
  obtain ⟨hfirm, hi⟩ := firm_of_resolves h.rests htouched hresolves
  have hsince := htouched.since project
  exact ⟨i, m', hrun, hi, ⟨h.detached, Chained.trans h.since hsince, hsince.steady h.steady,
    hfirm.toRests⟩, hfirm.fixed⟩

/-- A project whose raw buildpath was replaced is resolved anew. It rests then, also if bindings that do
not change its containers are dropped afterwards. -/
theorem resolution_settles (hd : m₀.Detached project es) (hm : m₀.Since project m)
    (hs : m.Steady make) (hexists : m.workspace.projectExists project)
    (hidle : project ∉ m.resolving)
    (hraw : ∃ raw, (m.cell project).raw = some raw ∧ raw.entries = es)
    (hissued : (m.cell project).issued? = none) :
    ∃ i m', (resolution project).runOn m = (.ok i, m') ∧ (m'.cell project).rawEntries = es ∧
      i.result = m.outcome make project es (m.cell project).last ∧
      m'.registry.Fixed make project es ∧
      (∀ path, m'.registry.container? make path project = m.registry.container? make path project) ∧
      ∀ registry, (∀ e ∈ es, e.kind = .container →
        containerEntries (registry.container? make e.path project) =
          containerEntries (m.registry.container? make e.path project)) →
        m₀.Rested make project es i.result { m' with registry } := by
  obtain ⟨i, m', hrun, htouched, hresolves⟩ := resolution_steady hs hexists
  obtain ⟨raw, hraw, rfl⟩ := hraw
  have hloaded := Model.loaded_of_raw hraw
  cases hresolves with
  | cached hi _ _ =>
    rw [hloaded, hissued] at hi
    cases hi
  | reentrant hin _ _ => exact absurd hin hidle
  | anew _ _ hresult hcell hfixed =>
    rw [Model.raw, hraw, Option.getD_some] at hresult hfixed
    rw [hloaded] at hresult hcell
    have hsince := htouched.since project
    have hlook : ∀ path,
        m'.registry.container? make path project = m.registry.container? make path project := by
      obtain ⟨cells, registry, log, folders, issued, rfl, hg⟩ := htouched.rest
      exact fun path ↦ hg.container?_eq path project
    have hkept : (m'.cell project).raw = some raw := (congrArg Cell.raw hcell).trans hraw
    refine ⟨i, m', hrun, ?_, hresult, hfixed, hlook, fun registry hk ↦ ?_⟩
    · rw [Cell.rawEntries, hkept, Option.map_some, Option.getD_some]
    have hregistry : m.Since project { m' with registry } :=
      ⟨hsince.saves, hsince.settings, hsince.followsLibraries, hsince.variableValues,
        hsince.initializers, hsince.nesting, hsince.resolving⟩
    refine ⟨hd, Chained.trans hm hregistry, hregistry.steady hs, hsince.resolving ▸ hidle,
      ⟨raw, hkept, rfl⟩, ⟨i, congrArg Cell.state hcell, congrArg Cell.last hcell, rfl⟩,
      fun j hj ↦ ?_⟩
    rw [hresult] at hj ⊢
    exact Model.outcome_since hd hm (Chained.trans hm hregistry) hk hj

end ModelM

end Buildpath
