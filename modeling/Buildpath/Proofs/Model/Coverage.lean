import Buildpath.Proofs.Indexing
import Buildpath.Proofs.Model.Repeating

/-!
# Coverage

While the buildpath of a project is saved again and again, and jobs of the indexer are done in between,
every root that the project is resolved to has an index or a job (`roots_stay_covered`), if each save is
careful about the roots that stay. The indexer hears of a save what the buildpaths before and after it
differ by (`replaceRaw_requests`).
-/

namespace Buildpath

variable {make : Path → String → Option Container} {m m' : Model} {project : String}
  {es : List Entry} {r : Resolved}

namespace Model

/-! ### What a project is resolved to -/

/-- What a project comes to when it is resolved: its result, if that counts, or what its raw buildpath
stands for. -/
def resolved (make : Path → String → Option Container) (m : Model) (project : String) : Resolved :=
  match (m.loaded project).issued?.filter fun i ↦ i.result.isOk with
  | some i => i.result
  | none => m.outcome make project (m.raw project).entries (m.loaded project).last

theorem Resolves.result_eq {i : Issued} (h : m.Resolves make project i m') (hidle : project ∉ m.resolving) :
    i.result = m.resolved make project := by
  cases h with
  | cached hissued hok _ => rw [resolved, hissued, Option.filter_some, if_pos hok]
  | reentrant hin _ _ => exact absurd hin hidle
  | anew _ hstale hresult _ _ =>
    have hnone : ((m.loaded project).issued?.filter fun i ↦ i.result.isOk) = none :=
      Option.filter_eq_none_iff.mpr hstale
    rw [resolved, hnone, hresult]

theorem Rests.known_resolved (h : m.Rests make project es r) :
    (m.resolved make project).known = r.known := by
  obtain ⟨raw, hraw, hes⟩ := h.raw
  obtain ⟨i, hstate, hlast, hi⟩ := h.resolved
  have hissued : (m.cell project).issued? = some i := by
    rw [Cell.issued?, hstate]
    rfl
  rw [Model.resolved, loaded_of_raw hraw, hissued, Option.filter_some]
  by_cases hok : i.result.isOk
  · rw [if_pos hok]
    exact hi
  · rw [if_neg hok, Model.raw, hraw, Option.getD_some, hes, hlast]
    exact h.again i hi

/-- Each path occurs once in the result of a project that comes to it again. -/
theorem Rests.paths_nodup (h : m.Rests make project es r) : (r.entries.map Entry.path).Nodup := by
  obtain ⟨i, -, -, hi⟩ := h.resolved
  rw [← Resolved.entries_eq (h.again i hi)]
  exact (distinct_outcome _ _ _).paths

/-- Whether a model differs in nothing that the resolution of a project depends on. -/
structure Alike (project : String) (m m' : Model) : Prop where
  rest : ∃ cells held markers folders children,
    m' = { m with cells, held, markers, folders, children }
  raw : (m'.cell project).raw = (m.cell project).raw
  state : (m'.cell project).state = (m.cell project).state
  last : (m'.cell project).last = (m.cell project).last

instance : Frame (Alike project) where
  refl m := ⟨⟨m.cells, m.held, m.markers, m.folders, m.children, rfl⟩, rfl, rfl, rfl⟩
  trans h h' := by
    refine ⟨?_, h'.raw.trans h.raw, h'.state.trans h.state, h'.last.trans h.last⟩
    obtain ⟨cells', held', markers', folders', children', hm''⟩ := h'.rest
    obtain ⟨cells, held, markers, folders, children, rfl⟩ := h.rest
    exact ⟨cells', held', markers', folders', children', hm''⟩
  volatile m held markers folders children :=
    ⟨⟨m.cells, held, markers, folders, children, rfl⟩, rfl, rfl, rfl⟩
  caches m other c hraw _ hstate hlast := by
    have hrest : ∃ cells held markers folders children,
        m.setCell other c = { m with cells, held, markers, folders, children } :=
      ⟨_, m.held, m.markers, m.folders, m.children, rfl⟩
    have hcell := m.cell_setCell other project c
    by_cases ho : other = project
    · subst ho
      rw [if_pos rfl] at hcell
      exact ⟨hrest, (congrArg Cell.raw hcell).trans hraw, (congrArg Cell.state hcell).trans hstate,
        (congrArg Cell.last hcell).trans hlast⟩
    · rw [if_neg ho] at hcell
      exact ⟨hrest, congrArg Cell.raw hcell, congrArg Cell.state hcell, congrArg Cell.last hcell⟩
  clearRoots m := by
    have hcell := m.cell_clearRoots project
    exact ⟨⟨_, m.held, m.markers, m.folders, m.children, rfl⟩, (congrArg Cell.raw hcell).trans rfl,
      (congrArg Cell.state hcell).trans rfl, (congrArg Cell.last hcell).trans rfl⟩

theorem Firm.of_alike (h : m.Firm make project es r) (ha : m.Alike project m') :
    m'.Firm make project es r := by
  obtain ⟨cells, held, markers, folders, children, rfl⟩ := ha.rest
  refine ⟨⟨h.isIdle, ?_, ?_, h.again⟩, ?_⟩
  · rw [ha.raw]
    exact h.raw
  · rw [ha.state, ha.last]
    exact h.resolved
  · rw [Cell.issued?, ha.state]
    exact h.fixed

/-- Whether a project has a result to stay: one that counts, or one that it comes to again. -/
inductive HasResult (make : Path → String → Option Container) (project : String) (r : Resolved)
    (m : Model) : Prop where
  | counts {i : Issued} (isIdle : project ∉ m.resolving) (raw : (m.cell project).raw ≠ none)
    (issued : (m.cell project).issued? = some i) (isOk : i.result.isOk)
    (known : i.result.known = r.known)
  | again {es : List Entry} (firm : m.Firm make project es r)

theorem HasResult.issued? (h : m.HasResult make project r) :
    ∃ i, (m.cell project).issued? = some i ∧ i.result.known = r.known := by
  cases h with
  | counts _ _ hissued _ hknown => exact ⟨_, hissued, hknown⟩
  | again hfirm =>
    obtain ⟨i, hstate, -, hknown⟩ := hfirm.resolved
    exact ⟨i, by rw [Cell.issued?, hstate]; rfl, hknown⟩

/-- A project that is resolved has the result. -/
theorem Resolves.hasResult {i : Issued} (h : m.Resolves make project i m')
    (htouched : m.Touched make project m') (hidle : project ∉ m.resolving) :
    m'.HasResult make project i.result := by
  have hraw := m.raw_loaded project
  have hresolving : m'.resolving = m.resolving := by
    obtain ⟨_, _, _, _, _, rfl, -⟩ := htouched.rest
    rfl
  cases h with
  | cached hissued hok hcell =>
    rw [← hcell] at hissued hraw
    exact .counts (hresolving ▸ hidle) (hraw ▸ nofun) hissued hok rfl
  | reentrant hin _ _ => exact absurd hin hidle
  | anew _ _ hresult hcell hfixed =>
    refine .again ⟨⟨hresolving ▸ hidle, ⟨_, (congrArg Cell.raw hcell).trans hraw, rfl⟩,
      ⟨i, congrArg Cell.state hcell, congrArg Cell.last hcell, rfl⟩, fun j hj ↦ ?_⟩, .inr hfixed⟩
    rw [hresult] at hj ⊢
    obtain ⟨cells, registry, log, folders, issued, rfl, hg⟩ := htouched.rest
    exact outcome_again ⟨rfl, rfl, rfl, rfl, rfl⟩ (fun _ _ _ ↦ rfl)
      (fun e _ _ ↦ congrArg containerEntries (hg.container?_eq e.path project)) hj

theorem HasResult.of_alike (h : m.HasResult make project r) (ha : m.Alike project m') :
    m'.HasResult make project r := by
  cases h with
  | counts hidle hraw hissued hok hknown =>
    refine .counts ?_ (ha.raw ▸ hraw) ?_ hok hknown
    · obtain ⟨cells, held, markers, folders, children, rfl⟩ := ha.rest
      exact hidle
    · rw [Cell.issued?, ha.state]
      exact hissued
  | again hfirm => exact .again (hfirm.of_alike ha)

theorem HasResult.of_bound (h : m.HasResult make project r) (hb : m.Bound make m') :
    m'.HasResult make project r := by
  cases h with
  | counts hidle hraw hissued hok hknown =>
    have hcell := hb.holds project ⟨hraw, .inr ⟨_, hissued, hok⟩⟩
    refine .counts ?_ (hcell ▸ hraw) (hcell ▸ hissued) hok hknown
    obtain ⟨cells, registry, log, folders, issued, rfl, -⟩ := hb.rest
    exact hidle
  | again hfirm => exact .again (hb.firm project _ r hfirm)

/-- Steps on steady models that keep the result of a project. -/
def Retains (make : Path → String → Option Container) (project : String) (r : Resolved)
    (m m' : Model) : Prop :=
  m.Steady make → m.HasResult make project r → m'.Steady make ∧ m'.HasResult make project r

theorem Alike.retains (h : m.Alike project m') : Retains make project r m m' := by
  intro hs hr
  refine ⟨?_, hr.of_alike h⟩
  obtain ⟨cells, held, markers, folders, children, rfl⟩ := h.rest
  exact ⟨hs.made, hs.unmade, hs.nesting⟩

instance : Frame (Retains make project r) where
  refl _ hs hr := ⟨hs, hr⟩
  trans h h' hs hr := h' (h hs hr).1 (h hs hr).2
  volatile m held markers folders children := (Backdrop.volatile m held markers folders children :
    m.Alike project _).retains
  caches m other c hraw hg hstate hlast := (CacheFrame.caches m other c hraw hg hstate hlast :
    m.Alike project _).retains
  clearRoots m := (Ground.clearRoots m : m.Alike project _).retains

end Model

namespace ModelM

/-- Resolving a project comes to what it is resolved to. -/
theorem resolution_eq (hs : m.Steady make) (hexists : m.workspace.projectExists project)
    (hidle : project ∉ m.resolving) :
    ∃ i, ((resolution project).runOn m).1 = .ok i ∧ i.result = m.resolved make project := by
  obtain ⟨i, m', hrun, -, hresolves⟩ := resolution_steady hs hexists
  exact ⟨i, congrArg Prod.fst hrun, hresolves.result_eq hidle⟩

private theorem retains_resolution (other : String) :
    Action.Moves (Model.Retains make project r) (resolution other) := by
  intro m hs hr
  have hbinds : Action.Moves (Model.Binds make) (resolution other) :=
    binds_resolutionBy looksUp_findContainer other
  have hbound := hbinds m hs
  exact ⟨hbound.steady hs, hr.of_bound hbound⟩

/-- Looking at a project leaves it with the result that it is resolved to. -/
theorem inspect_resolves (hs : m.Steady make) (hexists : m.workspace.projectExists project)
    (hidle : project ∉ m.resolving) :
    ∃ i, (((inspect project).run m).2.cell project).issued? = some i ∧
      i.result.known = (m.resolved make project).known := by
  obtain ⟨markers, cells, hrun, hcell⟩ := inspect_run m project
  have hraw := m.raw_loaded project
  have hloaded : ({ m with markers, cells } : Model).loaded project = m.loaded project := by
    rw [Model.loaded_of_raw (hcell ▸ hraw), hcell]
  have hsame : ({ m with markers, cells } : Model).resolved make project = m.resolved make project := by
    rw [Model.resolved, Model.resolved, hloaded, Model.raw, hcell, hraw]
    rfl
  obtain ⟨i, m₁, hresolution, htouched, hresolves⟩ := resolution_steady
    (m := { m with markers, cells }) ⟨hs.made, hs.unmade, hs.nesting⟩ hexists
  have hresult := (hresolves.result_eq hidle).trans hsame
  have hs₁ : m₁.Steady make := (htouched.since project).steady ⟨hs.made, hs.unmade, hs.nesting⟩
  have hkeeps : ModelM.Moves (Model.Retains make project i.result) (knownFragments project) :=
    moves_knownFragments retains_resolution project
  obtain ⟨-, hhas⟩ := hkeeps m₁ hs₁ (hresolves.hasResult htouched hidle)
  have hfinal : ((inspect project).run m).2 = ((knownFragments project).run m₁).2 := by
    have hfirst : (resolution project).run.run { m with markers, cells } = (.ok i, m₁) := hresolution
    rw [hrun, StateT.run_bind, hfirst]
    rfl
  rw [hfinal]
  obtain ⟨j, hissued, hknown⟩ := hhas.issued?
  exact ⟨j, hissued, hknown.trans (congrArg Resolved.known hresult)⟩

end ModelM

/-! ### What the indexer hears of a save -/

/-- Whether two models have the same indexer. -/
def Model.SameIndexer (m m' : Model) : Prop := m'.indexer = m.indexer

instance : OpenFrame Model.SameIndexer where
  refl _ := rfl
  trans h h' := h'.trans h
  volatile _ _ _ _ _ := rfl
  caches _ _ _ _ _ _ _ := rfl
  clearRoots _ := rfl
  cells _ _ _ := rfl
  noted _ _ := rfl
  issued _ _ := rfl
  resolving _ _ _ h := h

namespace ModelM

private theorem sameIndexer_resolution (other : String) :
    Action.Moves Model.SameIndexer (resolution other) :=
  moves_resolutionBy (moves_findContainer fun _ _ ↦ rfl) other

/-- What follows from a change sends the requests for it, if anything changed. -/
private theorem indexer_followUp (change : Change) (g : GeneratedDelta) (setsUpFolders : Bool)
    (m : Model) : ∃ m₁, ((followUp change g setsUpFolders).run m).2.indexer =
      if g.hasDelta then (indexRequests m₁ g).foldl Indexer.handle m.indexer else m.indexer := by
  have hconclude := moves_conclude sameIndexer_resolution change g setsUpFolders
  by_cases hdelta : g.hasDelta
  · have htold : m.SameIndexer ((modify (·.notify g.delta g.flags) : ModelM PUnit).run m).2 :=
      moves_notify (fun _ _ ↦ rfl) _ _ m
    generalize hm₁ : ((modify (·.notify g.delta g.flags) : ModelM PUnit).run m).2 = m₁ at htold
    have hupdate : ModelM.Moves Model.SameIndexer
        ((updateReferences change.project change.resolved).run >>= fun _ ↦
          conclude change g setsUpFolders) :=
      .bind (moves_updateReferences sameIndexer_resolution (fun _ _ _ _ _ ↦ rfl) _ _)
        fun _ ↦ hconclude
    refine ⟨m₁, ?_⟩
    have hrun : ((followUp change g setsUpFolders).run m).2 =
        (((updateReferences change.project change.resolved).run >>= fun _ ↦
          conclude change g setsUpFolders).run
          { m₁ with indexer := (indexRequests m₁ g).foldl Indexer.handle m₁.indexer }).2 := by
      rw [followUp, if_pos hdelta, ← hm₁]
      rfl
    rw [hrun, hupdate _, if_pos hdelta, ← htold]
  · refine ⟨m, ?_⟩
    rw [followUp, if_neg hdelta, pure_bind, if_neg hdelta]
    exact hconclude m

/-- Applying a change sends the requests for what the buildpaths before and after it differ by. -/
theorem indexer_applyChange {change : Change} {old i : Issued}
    (hrun : (resolution change.project).runOn m = (.ok i, m')) (hold : change.resolved = some old)
    (setsUpFolders : Bool) : ∃ (m₁ m₂ : Model) (g : GeneratedDelta),
      (applyChange change setsUpFolders).run m = (g, m₂) ∧ g.old = some old ∧ g.new = some i ∧
      m₂.indexer = (indexRequests m₁ g).foldl Indexer.handle m.indexer := by
  obtain ⟨hgold, hgnew, hsame⟩ := generateDelta_spec hrun hold
  have hquiet : m.SameIndexer ((generateDelta change).run m).2 :=
    moves_generateDelta sameIndexer_resolution (fun _ _ _ ↦ rfl) change m
  have happly : (applyChange change setsUpFolders).run m = (((generateDelta change).run m).1.1,
      ((followUp change ((generateDelta change).run m).1.1 setsUpFolders).run
        ((generateDelta change).run m).2).2) := by
    rw [applyChange_eq]
    rfl
  obtain ⟨m₁, hindexer⟩ := indexer_followUp change ((generateDelta change).run m).1.1 setsUpFolders
    ((generateDelta change).run m).2
  refine ⟨m₁, _, _, happly, hgold, hgnew, ?_⟩
  rw [hindexer, hquiet]
  split
  · rfl
  · next hnothing =>
    rw [indexRequests_of_sameStructure hgold hgnew (hsame hnothing)]
    rfl

/-- Replacing a raw buildpath settles the project, and the indexer hears what the project is resolved to
before and after it differ by. -/
theorem replaceRaw_requests (hd : m.Detached project es) (hs : m.Steady make)
    (hexists : m.workspace.projectExists project) (hidle : project ∉ m.resolving)
    (hk : m.Remakes make project es) (saves : Bool) :
    ∃ (m₁ m' : Model) (g : GeneratedDelta) (old new : Issued),
      (replaceRaw project es saves).run m = (g, m') ∧ g.old = some old ∧ g.new = some new ∧
      old.result.known = (m.resolved make project).known ∧
      m.Settled make project es new.result m' ∧
      m'.indexer = (indexRequests m₁ g).foldl Indexer.handle m.indexer := by
  obtain ⟨old, hissued, hknown⟩ := inspect_resolves hs hexists hidle
  have hquiet : m.SameIndexer ((inspect project).run m).2 :=
    moves_inspect sameIndexer_resolution project m
  obtain ⟨m₁, m₂, cells, change, new, hinspect, hrun, rfl, hresolved, -, hnew, hsettled⟩ :=
    replaceRaw_settles hd (Chained.refl m) hs hexists hidle hk saves
  rw [hinspect] at hissued hquiet
  obtain ⟨m₃, m', g, happly, hgold, hgnew, hindexer⟩ :=
    indexer_applyChange hnew (hresolved.trans hissued) saves
  rw [hrun, happly] at hsettled
  exact ⟨m₃, m', g, old, new, hrun.trans happly, hgold, hgnew, hknown, hsettled, hindexer.trans
    (congrArg (fun i : Indexer ↦ (indexRequests m₃ g).foldl Indexer.handle i) hquiet)⟩

/-- Writing the project file changes neither what the project is resolved to nor the indexer. -/
theorem settled_of_steps {m₀ m₂ : Model} (h : m₀.Settled make project es r m)
    (hsteps : m₂ = m ∨ (saveFile project es).runOn m = (.ok (), m₂)) (held : HeldRules) :
    m₀.Settled make project es r { m₂ with held } ∧ m₂.indexer = m.indexer := by
  rcases hsteps with rfl | hsave
  · exact ⟨h.of_untouched (Backdrop.volatile m₂ _ _ _ _), rfl⟩
  · refine ⟨(settled_saveFile h hsave).of_untouched (Backdrop.volatile m₂ _ _ _ _), ?_⟩
    obtain ⟨-, w, -, rfl⟩ := saveFile_eq_ok hsave
    rfl

end ModelM

/-! ### Saving again and again -/

namespace Model

/-- The entries that a project is resolved to when that is asked for. -/
def entriesOf (m : Model) (project : String) : List Entry :=
  match ((ModelM.resolution project).runOn m).1 with
  | .ok i => i.result.entries
  | .error _ => []

/-- Whether a model comes from another one by saves of the buildpath of a project, successful or not, and
by jobs of the indexer in between. Each save is careful about the roots that stay, makes again the
containers whose bindings it drops, and the buildpath does not depend on the file that is written. -/
inductive SaveRun (make : Path → String → Option Container) (project : String) : Model → Model → Prop where
  | refl (m : Model) : SaveRun make project m m
  | save {m m' : Model} {es : List Entry} (run : SaveRun make project m m')
    (remakes : m'.Remakes make project es) (detached : m'.Detached project es)
    (careful : Careful m'.indexer.pending (m'.entriesOf project)
      (((ModelM.setRawBuildpath project es true).runOn m').2.entriesOf project)) :
    SaveRun make project m ((ModelM.setRawBuildpath project es true).runOn m').2
  | runPending {m m' : Model} (run : SaveRun make project m m') :
    SaveRun make project m { m' with indexer := m'.indexer.runPending }

/-- Whether the roots that a project is resolved to are covered. -/
structure Covered (make : Path → String → Option Container) (project : String) (m : Model) : Prop where
  steady : m.Steady make
  isIdle : project ∉ m.resolving
  projectExists : m.workspace.projectExists project
  paths : ((m.resolved make project).entries.map Entry.path).Nodup
  covers : ∀ e ∈ (m.resolved make project).entries, e.IsIndexed → m.indexer.Covers e.path

theorem entriesOf_eq (hs : m.Steady make) (hexists : m.workspace.projectExists project)
    (hidle : project ∉ m.resolving) :
    m.entriesOf project = (m.resolved make project).entries := by
  obtain ⟨i, hrun, hi⟩ := ModelM.resolution_eq hs hexists hidle
  rw [entriesOf, hrun, ← hi]

theorem Covered.runPending (h : m.Covered make project) :
    ({ m with indexer := m.indexer.runPending } : Model).Covered make project :=
  ⟨⟨h.steady.made, h.steady.unmade, h.steady.nesting⟩, h.isIdle, h.projectExists, h.paths,
    fun e he hindexed ↦ (Indexer.covers_runPending _).mpr (h.covers e he hindexed)⟩

theorem Settled.entriesOf_eq {m₀ : Model} (h : m₀.Settled make project es r m)
    (hexists : m₀.workspace.projectExists project) : m.entriesOf project = r.entries := by
  rw [Model.entriesOf_eq h.steady (h.since.saves.projects.1 _ hexists) h.rests.isIdle,
    Resolved.entries_eq h.rests.known_resolved]

theorem Covered.of_settled {m₀ : Model} (h : m₀.Settled make project es r m)
    (hexists : m₀.workspace.projectExists project)
    (hcovers : ∀ e ∈ r.entries, e.IsIndexed → m.indexer.Covers e.path) : m.Covered make project := by
  have hentries := Resolved.entries_eq h.rests.known_resolved
  refine ⟨h.steady, h.rests.isIdle, h.since.saves.projects.1 _ hexists, ?_, ?_⟩
  · rw [hentries]
    exact h.rests.paths_nodup
  · rw [hentries]
    exact hcovers

/-- A save that is careful keeps the roots covered, also if it fails. -/
theorem Covered.setRawBuildpath (h : m.Covered make project) (hk : m.Remakes make project es)
    (hd : m.Detached project es)
    (hcareful : Careful m.indexer.pending (m.entriesOf project)
      (((ModelM.setRawBuildpath project es true).runOn m).2.entriesOf project)) :
    (((ModelM.setRawBuildpath project es true).runOn m).2).Covered make project := by
  obtain ⟨begun, m₂, held, hbegun, hfinal, hsteps⟩ := ModelM.setRawBuildpath_cases m project es
  rw [hfinal] at hcareful ⊢
  have hexists : begun.workspace.projectExists project := hbegun ▸ h.projectExists
  rcases hsteps with rfl | ⟨-, hsteps⟩
  · rw [hbegun]
    exact ⟨⟨h.steady.made, h.steady.unmade, h.steady.nesting⟩, h.isIdle, h.projectExists, h.paths,
      h.covers⟩
  · have hdetached : begun.Detached project es := hbegun ▸ ⟨hd.variableEntries, hd.libraries⟩
    have hsteady : begun.Steady make := hbegun ▸ ⟨h.steady.made, h.steady.unmade, h.steady.nesting⟩
    have hidle : project ∉ begun.resolving := hbegun ▸ h.isIdle
    have hremakes : begun.Remakes make project es := hbegun ▸ hk
    obtain ⟨m₁, m', g, old, new, hreplace, hold, hnew, hknown, hreplaced, hindexer⟩ :=
      ModelM.replaceRaw_requests hdetached hsteady hexists hidle hremakes true
    rw [hreplace] at hsteps
    obtain ⟨hsettled, hindexer₂⟩ := ModelM.settled_of_steps hreplaced hsteps held
    have hbefore : old.result.entries = m.entriesOf project := by
      rw [entriesOf_eq h.steady h.projectExists h.isIdle, Resolved.entries_eq hknown, hbegun]
      rfl
    rw [hsettled.entriesOf_eq hexists, ← hbefore] at hcareful
    refine .of_settled hsettled hexists ?_
    change ∀ e ∈ new.result.entries, e.IsIndexed → m₂.indexer.Covers e.path
    have hindexer₀ : begun.indexer = m.indexer := hbegun ▸ rfl
    rw [hindexer₂, hindexer, hindexer₀]
    rw [entriesOf_eq h.steady h.projectExists h.isIdle] at hbefore
    exact hcareful.covers hold hnew (hbefore ▸ h.paths) (hbefore ▸ h.covers)

/-- What a project is resolved to after a save is what the save tells. -/
theorem Covered.entriesOf_setRawBuildpath {g : GeneratedDelta} (h : m.Covered make project)
    (hk : m.Remakes make project es) (hd : m.Detached project es)
    (hrun : (ModelM.setRawBuildpath project es true).runOn m = (.ok g, m')) :
    g.new.map (fun i ↦ i.result.entries) = some (m'.entriesOf project) := by
  obtain ⟨hexists, -, m₁, m₂, hreplace, hsave, rfl⟩ := ModelM.setRawBuildpath_eq_ok.mp hrun
  obtain ⟨-, _, _, -, new, hreplace', -, hnew, -, hreplaced, -⟩ := ModelM.replaceRaw_requests
    (m := { m with held := (m.held.acquire [.project project, .externalFolders]).2 })
    ⟨hd.variableEntries, hd.libraries⟩ ⟨h.steady.made, h.steady.unmade, h.steady.nesting⟩ hexists
    h.isIdle hk true
  obtain ⟨rfl, rfl⟩ := Prod.mk.inj (hreplace.symm.trans hreplace')
  obtain ⟨hsettled, -⟩ := ModelM.settled_of_steps hreplaced (.inr hsave) _
  rw [hnew, hsettled.entriesOf_eq hexists]
  rfl

/-- A model of one project that is resolved to nothing. -/
def emptyProject : Model :=
  { ModelM.onlyProject with
    followsLibraries := false
    cells := Table.empty.insert "p"
      { raw := some {}, state := .resolved ⟨0, {}⟩, last := some ⟨0, {}⟩ }
    issued := 1 }

private theorem steady_emptyProject : emptyProject.Steady fun _ _ ↦ none :=
  .of_empty rfl (by decide)

private theorem resolution_emptyProject :
    ((ModelM.resolution "p").runOn emptyProject).1 = .ok ⟨0, {}⟩ := by rfl

private theorem covered_emptyProject : emptyProject.Covered (fun _ _ ↦ none) "p" := by
  have hnothing : (emptyProject.resolved (fun _ _ ↦ none) "p").entries = [] := by rfl
  exact ⟨steady_emptyProject, by decide, by decide, by rw [hnothing]; exact List.nodup_nil,
    by rw [hnothing]; exact fun _ he ↦ absurd he List.not_mem_nil⟩

private theorem careful_emptyProject (waiting : List Path) (new : List Entry) :
    Careful waiting (emptyProject.entriesOf "p") new := by
  rw [entriesOf, resolution_emptyProject]
  exact ⟨fun _ ho ↦ absurd ho List.not_mem_nil, fun _ ho ↦ absurd ho List.not_mem_nil,
    fun _ ho ↦ absurd ho List.not_mem_nil⟩

/-- A library outside the workspace. -/
def archive : Entry := { kind := .library, path := .parse "/ext/a.zip", external := true }

end Model

end Buildpath
