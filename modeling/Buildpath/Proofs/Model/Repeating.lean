import Buildpath.Proofs.Model.Comparing
import Buildpath.Proofs.Model.Saving
import Buildpath.Proofs.Model.Settled

/-!
# Repeated operations

Saving a buildpath again changes nothing and is announced to nobody (`setRawBuildpath_again`): saving
it settles the project, so what it is resolved to the second time is what it was resolved to before.
-/

namespace Buildpath

variable {make : Path → String → Option Container} {m m' m₀ : Model} {project : String}
  {es : List Entry} {r : Resolved}

/-! ### Looking at a project -/

namespace Model

/-- Steps on steady models that keep the raw buildpath of a project and only add bindings. -/
def KeepsRaw (make : Path → String → Option Container) (project : String) (raw : RawBuildpath)
    (m m' : Model) : Prop :=
  m.Steady make → (m.cell project).raw = some raw → m'.Steady make ∧
    (m'.cell project).raw = some raw ∧ m.registry.Grows make m'.registry

variable {raw : RawBuildpath}

instance : Frame (KeepsRaw make project raw) where
  refl m hs hraw := ⟨hs, hraw, .refl m.registry⟩
  trans h h' hs hraw := by
    obtain ⟨hs₁, hraw₁, hg₁⟩ := h hs hraw
    obtain ⟨hs₂, hraw₂, hg₂⟩ := h' hs₁ hraw₁
    exact ⟨hs₂, hraw₂, hg₁.trans hg₂⟩
  volatile m _ _ _ _ hs hraw := ⟨⟨hs.made, hs.unmade, hs.nesting⟩, hraw, .refl m.registry⟩
  caches m other c hc _ _ _ hs hraw := by
    refine ⟨⟨hs.made, hs.unmade, hs.nesting⟩, ?_, .refl m.registry⟩
    rw [cell_setCell]
    split
    · next ho => exact hc.trans (ho ▸ hraw)
    · exact hraw
  clearRoots m hs hraw := by
    refine ⟨⟨hs.made, hs.unmade, hs.nesting⟩, ?_, .refl m.registry⟩
    rw [cell_clearRoots]
    exact hraw

end Model

namespace ModelM

variable {raw : RawBuildpath}

private theorem keepsRaw_resolution (other : String) :
    Action.Moves (Model.KeepsRaw make project raw) (resolution other) := by
  refine moves_resolution fun m hexists hs hraw ↦ ?_
  obtain ⟨i, m', hrun, htouched, -⟩ := resolution_steady hs hexists
  rw [hrun]
  refine ⟨(htouched.since project).steady hs, htouched.raws project raw hraw, ?_⟩
  obtain ⟨cells, registry, log, folders, issued, rfl, hg⟩ := htouched.rest
  exact hg

theorem inspect_run (m : Model) (project : String) : ∃ markers cells,
    (inspect project).run m = ((resolution project).run >>= fun _ ↦
      knownFragments project).run { m with markers, cells } ∧
    ({ m with markers, cells } : Model).cell project = m.loaded project := by
  obtain ⟨cells, hload, hcells⟩ := loadRaw_run { m with markers := m.markers.flush project false false }
    project
  refine ⟨m.markers.flush project false false, cells, ?_, (hcells project).trans (if_pos rfl)⟩
  have hrun : (inspect project).run m = ((resolution project).run >>= fun _ ↦
      knownFragments project).run ((loadRaw project).run
        { m with markers := m.markers.flush project false false }).2 := rfl
  rw [hrun, hload]

/-- Looking at a project loads its raw buildpath and only adds bindings. -/
theorem inspect_steady (hs : m.Steady make) (project : String) :
    ((inspect project).run m).2.Steady make ∧
      (((inspect project).run m).2.cell project).raw = some (m.raw project) ∧
      m.registry.Grows make ((inspect project).run m).2.registry := by
  obtain ⟨markers, cells, hrun, hcell⟩ := inspect_run m project
  have hkeeps : ModelM.Moves (Model.KeepsRaw make project (m.raw project))
      ((resolution project).run >>= fun _ ↦ knownFragments project) :=
    .bind (keepsRaw_resolution project) fun _ ↦ moves_knownFragments keepsRaw_resolution project
  rw [hrun]
  exact hkeeps _ ⟨hs.made, hs.unmade, hs.nesting⟩ (hcell ▸ m.raw_loaded project)

/-- Looking at a settled project keeps it settled. -/
theorem settled_inspect (h : m₀.Settled make project es r m) :
    m₀.Settled make project es r ((inspect project).run m).2 := by
  obtain ⟨markers, cells, hrun, hcell⟩ := inspect_run m project
  obtain ⟨raw, hraw, -⟩ := h.rests.raw
  have hsettles : ModelM.Moves (m₀.Settles make project es r)
      ((resolution project).run >>= fun _ ↦ knownFragments project) :=
    .bind (settles_resolution project) fun _ ↦ moves_knownFragments settles_resolution project
  rw [hrun]
  rw [Model.loaded_of_raw hraw] at hcell
  exact hsettles _ (h.of_untouched ⟨⟨.refl, rfl, rfl, rfl, rfl, rfl, rfl⟩, congrArg Cell.raw hcell,
    congrArg Cell.state hcell, congrArg Cell.last hcell, rfl⟩)

/-- After a project was looked at, the entries of its raw buildpath are replaced in its cell, which has
no result then, and the change is applied. -/
theorem replaceRaw_run (m : Model) (project : String) (es : List Entry) (saves : Bool) :
    ∃ (m₁ : Model) (cells : Table String Cell) (change : Change), ((inspect project).run m).2 = m₁ ∧
      (replaceRaw project es saves).run m = (applyChange change saves).run { m₁ with cells } ∧
      change.project = project ∧
      change.raw = (m₁.cell project).raw.map RawBuildpath.entries ∧
      change.resolved = (m₁.cell project).issued? ∧
      change.fragments = ((inspect project).run m).1 ∧
      ({ m₁ with cells } : Model).cell project = (m₁.cell project).setRaw es ∧
      ∀ other, project ≠ other → ({ m₁ with cells } : Model).cell other = (m₁.cell other).clearRoots := by
  have hreplace : (replaceRaw project es saves).run m =
      (applyChange ((replaceEntries project es ((inspect project).run m).1).run
        ((inspect project).run m).2).1 saves).run ((replaceEntries project es
          ((inspect project).run m).1).run ((inspect project).run m).2).2 := rfl
  rw [hreplace]
  generalize ((inspect project).run m).1 = fragments
  generalize ((inspect project).run m).2 = m₁
  -- the cell is read twice before it is changed
  have hcell : (m₁.setCell project (m₁.cell project)).cell project = m₁.cell project := by
    rw [Model.cell_setCell, if_pos rfl]
  have hcell' : ((m₁.setCell project (m₁.cell project)).setCell project
      ((m₁.setCell project (m₁.cell project)).cell project)).cell project = m₁.cell project := by
    rw [Model.cell_setCell, if_pos rfl, hcell]
  refine ⟨m₁, _, _, rfl, rfl, rfl, ?_, rfl, rfl, ?_, fun other hne ↦ ?_⟩
  · exact congrArg (fun c : Cell ↦ c.raw.map RawBuildpath.entries) hcell
  · refine (Model.cell_clearRoots _ project).trans ?_
    rw [Model.cell_setCell, if_pos rfl, hcell']
    rfl
  · refine (Model.cell_clearRoots _ other).trans (congrArg Cell.clearRoots ?_)
    rw [Model.cell_setCell, if_neg hne, Model.cell_setCell, if_neg hne, Model.cell_setCell, if_neg hne]

end ModelM

/-! ### Changes that settle a project -/

namespace ModelM

/-- Announcing a change settles a project that rests: its references are made to follow its buildpath,
for which it is resolved. -/
private theorem followUp_settles {change : Change} {g : GeneratedDelta}
    (h : m₀.Rested make change.project es r m) (hexists : m₀.workspace.projectExists change.project)
    (hdelta : g.hasDelta) (setsUpFolders : Bool) :
    m₀.Settled make change.project es r ((followUp change g setsUpFolders).run m).2 := by
  have htold : ModelM.Moves (Model.Untouched change.project)
      (modify (·.notify g.delta g.flags) >>= fun _ ↦ requestIndexing g : ModelM Unit) :=
    .bind (moves_notify (fun m _ ↦ Deaf.announced m _ _) _ _) fun _ ↦ moves_requestIndexing g
  have htouched := htold m
  generalize hm₁ : ((modify (·.notify g.delta g.flags) >>= fun _ ↦ requestIndexing g :
    ModelM Unit).run m).2 = m₁ at htouched
  have hrested := h.of_untouched htouched
  obtain ⟨i, m₂, hrun, -, hsettled⟩ :=
    resolution_of_rested hrested (hrested.since.saves.projects.1 _ hexists)
  have hrest : ModelM.Moves (m₀.Settles make change.project es r)
      ((refer change.project change.resolved i).run >>= fun _ ↦ conclude change g setsUpFolders) :=
    .bind (moves_refer Deaf.references _ _ _) fun _ ↦ moves_conclude settles_resolution change g setsUpFolders
  have hfollow : ((followUp change g setsUpFolders).run m).2 =
      (((refer change.project change.resolved i).run >>= fun _ ↦
        conclude change g setsUpFolders).run m₂).2 := by
    have hfirst : (resolution change.project).run.run m₁ = (.ok i, m₂) := hrun
    have hsteps : (followUp change g setsUpFolders).run m =
        ((resolution change.project >>= refer change.project change.resolved).run >>= fun _ ↦
          conclude change g setsUpFolders).run m₁ := by
      rw [followUp, if_pos hdelta, ← hm₁]
      rfl
    rw [hsteps, StateT.run_bind, StateT.run_bind, ExceptT.run_bind, StateT.run_bind, hfirst]
    rfl
  rw [hfollow]
  exact hrest _ hsettled

/-- Applying the change of a project whose raw buildpath was replaced settles the project, if its
containers whose bindings are dropped are made again as they were. -/
theorem applyChange_settles {change : Change} {old : List Entry} (hproject : change.project = project)
    (hold : change.raw = some old) (hd : m₀.Detached project es) (hm : m₀.Since project m)
    (hs : m.Steady make) (hexists : m₀.workspace.projectExists project)
    (hidle : project ∉ m.resolving)
    (hraw : ∃ raw, (m.cell project).raw = some raw ∧ raw.entries = es)
    (hissued : (m.cell project).issued? = none)
    (hk : ∀ e ∈ es, e.kind = .container → ∀ o ∈ old, o.kind = .container → o.path = e.path →
      ¬ es.any (·.sameStructure o) → containerEntries (make e.path project) =
        containerEntries (m.registry.container? make e.path project))
    (setsUpFolders : Bool) : ∃ i m', (resolution project).runOn m = (.ok i, m') ∧
      m₀.Settled make project es i.result ((applyChange change setsUpFolders).run m).2 := by
  subst hproject
  obtain ⟨i, m', hrun, hentries, -, hfixed, hlook, hrests⟩ :=
    resolution_settles hd hm hs (hm.saves.projects.1 _ hexists) hidle hraw hissued
  refine ⟨i, m', hrun, ?_⟩
  rw [applyChange_run hrun hold hentries]
  have hcached : ∀ m₁ : Model, m₁.Untouched change.project
      (m₁.setCell change.project (m₁.cell change.project)) :=
    fun m₁ ↦ CacheFrame.caches m₁ _ _ rfl rfl rfl rfl
  by_cases hsame : sameStructure old es
  · -- no binding is dropped
    have hsettled : m₀.Settled make change.project es i.result m' :=
      ⟨hrests m'.registry fun e _ _ ↦ by rw [hlook], .inr hfixed⟩
    have hsteps : ∀ g, ModelM.Moves (m₀.Settles make change.project es i.result)
        (compareOutcomes change i g >>= fun g ↦ followUp change g setsUpFolders >>= fun _ ↦ pure g) :=
      fun g ↦ .bind (moves_compareOutcomes change i g) fun g ↦
        .bind (moves_followUp settles_resolution change g setsUpFolders) fun _ ↦ .pure g
    rw [compareRaw, if_pos hsame, pure_bind]
    exact hsteps _ _ (hsettled.of_untouched (hcached m'))
  · have hcompared : ModelM.Moves (Model.Drops make change.project old es) (compareRaw old es _) :=
      drops_compareRaw old es { project := change.project, delta := { project := change.project }
                                old := change.resolved, new := some i }
    have hfound := hasDelta_compareRaw hsame
      { project := change.project, delta := { project := change.project }
        old := change.resolved, new := some i } (m'.setCell change.project (m'.cell change.project))
    obtain ⟨registry, hstate, hdrops, -⟩ :=
      hcompared (m'.setCell change.project (m'.cell change.project))
    rw [StateT.run_bind]
    generalize StateT.run (compareRaw old es _) _ = compared at hfound hstate
    obtain ⟨g, m₁⟩ := compared
    dsimp only at hfound hstate
    have hrested : m₀.Rested make change.project es i.result m₁ := by
      rw [hstate]
      refine (hrests registry fun e he hkind ↦ ?_).of_untouched (hcached { m' with registry })
      rcases hdrops e.path with hsame | ⟨hmade, o, ho, hokind, hopath, hlacks⟩
      · exact congrArg containerEntries (hsame.trans (hlook e.path))
      · exact (congrArg containerEntries hmade).trans (hk e he hkind o ho hokind hopath hlacks)
    have houtcomes := moves_compareOutcomes (R := Model.Untouched change.project) change i g m₁
    have hfound' := (extends_compareOutcomes change i g m₁).hasDelta hfound
    exact followUp_settles (hrested.of_untouched houtcomes) hexists hfound' setsUpFolders

end ModelM

/-! ### Saving a buildpath -/

/-- The containers of a buildpath whose bindings are dropped when it replaces the one of a project are
made again as they are bound, with the same entries. A binding is dropped if the old buildpath mentions
the container and the new one does not mention it in the same way. -/
def Model.Remakes (make : Path → String → Option Container) (m : Model) (project : String)
    (es : List Entry) : Prop :=
  ∀ e ∈ es, e.kind = .container → ∀ old ∈ (m.raw project).entries, old.kind = .container →
    old.path = e.path → ¬ es.any (·.sameStructure old) →
      containerEntries (make e.path project) =
        containerEntries (m.registry.container? make e.path project)

/-- A buildpath without containers has nothing to be made again. -/
theorem Model.Remakes.of_plain (h : ∀ e ∈ es, e.kind ≠ .container) : m.Remakes make project es :=
  fun e he hkind ↦ absurd hkind (h e he)

namespace ModelM

/-- A resolution saves nothing. -/
theorem since_resolution (other : String) :
    Action.Moves (Model.Since project) (resolution other) :=
  moves_resolutionBy (moves_findContainer fun _ _ ↦ ⟨.refl, rfl, rfl, rfl, rfl, rfl, rfl⟩) other

/-- Replacing the raw buildpath of a project settles it, whatever it was resolved to before. -/
theorem replaceRaw_settles (hd : m₀.Detached project es) (hm : m₀.Since project m)
    (hs : m.Steady make) (hexists : m₀.workspace.projectExists project)
    (hidle : project ∉ m.resolving) (hk : m.Remakes make project es) (saves : Bool) :
    ∃ (m₁ m₂ : Model) (cells : Table String Cell) (change : Change) (i : Issued),
      ((inspect project).run m).2 = m₁ ∧
      (replaceRaw project es saves).run m = (applyChange change saves).run { m₁ with cells } ∧
      change.project = project ∧ change.resolved = (m₁.cell project).issued? ∧
      change.fragments = ((inspect project).run m).1 ∧
      (resolution project).runOn { m₁ with cells } = (.ok i, m₂) ∧
      m₀.Settled make project es i.result ((replaceRaw project es saves).run m).2 := by
  obtain ⟨hs₁, hraw₁, hg₁⟩ := inspect_steady hs project
  have hm₁ : m.Since project ((inspect project).run m).2 := moves_inspect since_resolution project m
  obtain ⟨m₁, cells, change, hinspect, hrun, hproject, hold, hissued, hfragments, hcell, -⟩ :=
    replaceRaw_run m project es saves
  rw [hinspect] at hs₁ hraw₁ hg₁ hm₁
  have hm₂ : m₀.Since project { m₁ with cells } :=
    Chained.trans hm (Chained.trans hm₁ ⟨.refl, rfl, rfl, rfl, rfl, rfl, rfl⟩)
  rw [hraw₁, Option.map_some] at hold
  have hk₁ : ∀ e ∈ es, e.kind = .container → ∀ o ∈ (m.raw project).entries, o.kind = .container →
      o.path = e.path → ¬ es.any (·.sameStructure o) → containerEntries (make e.path project) =
        containerEntries (m₁.registry.container? make e.path project) := by
    intro e he hkind o ho hokind hopath hlacks
    rw [hg₁.container?_eq e.path project]
    exact hk e he hkind o ho hokind hopath hlacks
  obtain ⟨i, m₂, hi, hsettled⟩ := applyChange_settles hproject hold hd hm₂
    ⟨hs₁.made, hs₁.unmade, hs₁.nesting⟩ hexists (fun hin ↦ hidle (hm₁.resolving ▸ hin))
    ⟨_, congrArg Cell.raw hcell, rfl⟩ (congrArg Cell.issued? hcell) hk₁ saves
  exact ⟨m₁, m₂, cells, change, i, hinspect, hrun, hproject, hissued, hfragments, hi,
    hrun ▸ hsettled⟩

/-- Saving its file keeps a project settled. -/
theorem settled_saveFile (h : m₀.Settled make project es r m)
    (hsave : (saveFile project es).runOn m = (.ok (), m')) : m₀.Settled make project es r m' := by
  obtain ⟨isWritten, w, hsaved, rfl⟩ := saveFile_eq_ok hsave
  have hcell := Model.cell_setCell { m with workspace := w } project project
    ((m.cell project).setStamp (w.stamp? (projectFilePath project)))
  rw [if_pos rfl] at hcell
  exact h.of_untouched ⟨⟨.of_save hsaved, rfl, rfl, rfl, rfl, rfl, rfl⟩,
    (congrArg Cell.raw hcell).trans rfl, (congrArg Cell.state hcell).trans rfl,
    (congrArg Cell.last hcell).trans rfl, rfl⟩

/-- Saving a buildpath settles its project. -/
theorem setRawBuildpath_settles {g : GeneratedDelta} (hd : m.Detached project es)
    (hs : m.Steady make) (hidle : project ∉ m.resolving) (hk : m.Remakes make project es)
    (h : (setRawBuildpath project es true).runOn m = (.ok g, m')) :
    ∃ r, m.Settled make project es r m' := by
  obtain ⟨hexists, -, m₁, m₂, hreplace, hsave, rfl⟩ := setRawBuildpath_eq_ok.mp h
  obtain ⟨-, -, -, -, i, -, -, -, -, -, -, hr⟩ := replaceRaw_settles hd
    (Backdrop.volatile m (m.held.acquire [.project project, .externalFolders]).2 m.markers m.folders
      m.children) ⟨hs.made, hs.unmade, hs.nesting⟩ hexists hidle hk true
  rw [hreplace] at hr
  exact ⟨i.result, (settled_saveFile hr hsave).of_untouched (Backdrop.volatile m₂ _ _ _ _)⟩

end ModelM

/-! ### Saving it again -/

/-- Whether an event is the delivery of a delta. -/
def Event.isDelivery : Event → Bool
  | delivered .. => true
  | noted _ => false

namespace Model

/-- The deliveries of deltas to listeners. -/
def deliveries (m : Model) : List Event := m.log.filter Event.isDelivery

/-- Whether nothing was announced to listeners and the indexer, and no file was written. -/
def Unheard (m m' : Model) : Prop :=
  m'.workspace = m.workspace ∧ m'.indexer = m.indexer ∧ m'.deliveries = m.deliveries

instance : OpenFrame Unheard where
  refl _ := ⟨rfl, rfl, rfl⟩
  trans h h' := ⟨h'.1.trans h.1, h'.2.1.trans h.2.1, h'.2.2.trans h.2.2⟩
  volatile _ _ _ _ _ := ⟨rfl, rfl, rfl⟩
  caches _ _ _ _ _ _ _ := ⟨rfl, rfl, rfl⟩
  clearRoots _ := ⟨rfl, rfl, rfl⟩
  cells _ _ _ := ⟨rfl, rfl, rfl⟩
  noted m value := by
    refine ⟨rfl, rfl, ?_⟩
    rw [deliveries, addEvent, List.filter_append]
    exact List.append_nil _
  issued _ _ := ⟨rfl, rfl, rfl⟩
  resolving _ _ _ h := h

end Model

theorem Entry.sameStructure_self (e : Entry) : e.sameStructure e := by
  simp [Entry.sameStructure]

theorem sameStructure_self (es : List Entry) : sameStructure es es := by
  induction es with
  | nil => rfl
  | cons e es ih => exact (Bool.and_eq_true _ _).mpr ⟨e.sameStructure_self, ih⟩

namespace ModelM

private theorem unheard_resolution (other : String) :
    Action.Moves Model.Unheard (resolution other) :=
  moves_resolutionBy (moves_findContainer fun _ _ ↦ ⟨rfl, rfl, rfl⟩) other

/-- Nothing is announced if nothing changed. -/
private theorem followUp_of_nothing {change : Change} {g : GeneratedDelta} (h : g.flags = {})
    (setsUpFolders : Bool) : followUp change g setsUpFolders =
      flushMarkers change.project false false >>= fun _ ↦ showUnresolved change.project := by
  have hdelta : g.hasDelta = false := by
    rw [GeneratedDelta.hasDelta, h]
  rw [followUp, hdelta, conclude, h]
  rfl

/-- Applying a change that replaced a raw buildpath by itself comes to nothing, if the project is
resolved to what it was resolved to before. -/
theorem applyChange_again {change : Change} {old : Issued} (hproject : change.project = project)
    (hold : change.raw = some es) (hresolved : change.resolved = some old)
    (hd : m₀.Detached project es) (hm : m₀.Since project m) (hs : m.Steady make)
    (hexists : m.workspace.projectExists project) (hidle : project ∉ m.resolving)
    (hraw : ∃ raw, (m.cell project).raw = some raw ∧ raw.entries = es)
    (hissued : (m.cell project).issued? = none)
    (hsame : (m.outcome make project es (m.cell project).last).known = old.result.known)
    (setsUpFolders : Bool) :
    ∃ (g : GeneratedDelta) (m' : Model) (r : Resolved),
      (applyChange change setsUpFolders).run m = (g, m') ∧ g.flags = {} ∧ g.delta.isEmpty ∧
      m.Unheard m' ∧ m₀.Settled make project es r m' ∧ r.known = old.result.known := by
  subst hproject
  obtain ⟨i, m', hrun, hentries, hresult, hfixed, hlook, hrests⟩ :=
    resolution_settles hd hm hs hexists hidle hraw hissued
  have hknown : i.result.known = old.result.known := hresult ▸ hsame
  have hraws : ∀ g, compareRaw es es g = pure g := by
    intro g
    rw [compareRaw, if_pos (sameStructure_self es)]
  have houtcomes : ∀ g, compareOutcomes change i g = pure g :=
    compareOutcomes_same hresolved (Resolved.entries_eq hknown ▸ sameStructure_self _)
  have hquiet : Model.Unheard m m' := by
    have hmoves := unheard_resolution change.project m
    have hm' : ((resolution change.project).run.run m).2 = m' := congrArg Prod.snd hrun
    rwa [hm'] at hmoves
  have hrest : (applyChange change setsUpFolders).run m =
      ((flushMarkers change.project false false >>= fun _ ↦ showUnresolved change.project) >>= fun _ ↦
        pure { project := change.project, delta := { project := change.project }
               old := change.resolved, new := some i }).run
        (m'.setCell change.project (m'.cell change.project)) := by
    rw [applyChange_run hrun hold hentries, hraws, pure_bind, houtcomes, pure_bind,
      followUp_of_nothing rfl]
  have hsettled : m₀.Settled make change.project es i.result m' :=
    ⟨hrests m'.registry fun e _ _ ↦ by rw [hlook], .inr hfixed⟩
  refine ⟨_, _, i.result, hrest, rfl, rfl, ?_, ?_, hknown⟩
  · have hmoves : ModelM.Moves Model.Unheard
        (flushMarkers change.project false false >>= fun _ ↦ showUnresolved change.project) :=
      .bind (moves_flushMarkers _ _ _) fun _ ↦ moves_showUnresolved unheard_resolution _
    exact Chained.trans hquiet (Chained.trans (OpenFrame.cells m' _ _) (hmoves _))
  · have hkept := hsettled.of_untouched
      (CacheFrame.caches m' change.project (m'.cell change.project) rfl rfl rfl rfl)
    have hmoves : ModelM.Moves (m₀.Settles make change.project es i.result)
        (flushMarkers change.project false false >>= fun _ ↦ showUnresolved change.project) :=
      .bind (moves_flushMarkers _ _ _) fun _ ↦ moves_showUnresolved settles_resolution _
    exact hmoves _ hkept

/-- Replacing the raw buildpath of a settled project by itself comes to nothing. -/
theorem replaceRaw_again (h : m₀.Settled make project es r m)
    (hexists : m₀.workspace.projectExists project) (saves : Bool) :
    ∃ (g : GeneratedDelta) (m' : Model) (r' : Resolved),
      (replaceRaw project es saves).run m = (g, m') ∧ g.flags = {} ∧ g.delta.isEmpty ∧
      m.Unheard m' ∧ m₀.Settled make project es r' m' ∧ r'.known = r.known := by
  have h₁ := settled_inspect h
  have hquiet := moves_inspect unheard_resolution project m
  obtain ⟨m₁, cells, change, hinspect, hrun, hproject, hold, hresolved, -, hcell, -⟩ :=
    replaceRaw_run m project es saves
  rw [hinspect] at h₁ hquiet
  have hm₂ : m₀.Since project { m₁ with cells } :=
    Chained.trans h₁.since ⟨.refl, rfl, rfl, rfl, rfl, rfl, rfl⟩
  obtain ⟨raw, hraw, hes⟩ := h₁.rests.raw
  obtain ⟨old, hstate, hlast, hold'⟩ := h₁.rests.resolved
  rw [hraw, Option.map_some, hes] at hold
  rw [Cell.issued?, hstate] at hresolved
  -- what the project is resolved to now is what it was resolved to
  have hsame : (({ m₁ with cells } : Model).outcome make project es
      (({ m₁ with cells } : Model).cell project).last).known = old.result.known := by
    rw [hcell]
    change (m₁.outcome make project es (m₁.cell project).last).known = _
    rw [hlast, hold']
    exact h₁.rests.again old hold'
  obtain ⟨g, m', r', happly, hflags, hempty, hquiet', hsettled, hknown⟩ := applyChange_again
    hproject hold hresolved h.detached hm₂ ⟨h₁.steady.made, h₁.steady.unmade, h₁.steady.nesting⟩
    (hm₂.saves.projects.1 _ hexists) h₁.rests.isIdle ⟨_, congrArg Cell.raw hcell, rfl⟩
    (congrArg Cell.issued? hcell) hsame saves
  have hcells : m₁.Unheard { m₁ with cells } := ⟨rfl, rfl, rfl⟩
  exact ⟨g, m', r', hrun.trans happly, hflags, hempty,
    Chained.trans hquiet (Chained.trans hcells hquiet'), hsettled, hknown.trans hold'⟩

/-- A container of libraries. -/
def coreEntry : Entry := { kind := .container, path := .parse "LIBS/core" }

/-- The libraries. -/
def coreContainer : Container :=
  .ofEntries coreEntry.path .system
    [{ kind := .library, path := .parse "/ext/core.zip", external := true }]

/-- What the initializer of the libraries makes. -/
def makeLibraries (path : Path) (_ : String) : Option Container :=
  if path.firstSegment? = some "LIBS" then some coreContainer else none

/-- A model of one project, with an initializer for the libraries. -/
def withLibraries : Model :=
  { onlyProject with
    followsLibraries := false
    initializers := Table.empty.insert "LIBS" fun path project ↦ .done (makeLibraries path project) }

theorem steady_withLibraries : withLibraries.Steady makeLibraries := by
  have hinitializer : ∀ path, withLibraries.initializer? path =
      if path.firstSegment? = some "LIBS" then
        some fun path project ↦ .done (makeLibraries path project) else none := by
    intro path
    rw [Model.initializer?]
    cases path.firstSegment? with
    | none => rfl
    | some first =>
      refine (Table.find?_insert _ _ _ _).trans ?_
      simp only [Option.some.injEq, eq_comm]
      rfl
  refine ⟨fun path project initializer hi ↦ ?_, fun path project hi ↦ ?_, by decide⟩
  · rw [hinitializer] at hi
    split at hi
    · obtain rfl := Option.some.inj hi
      exact .done
    · cases hi
  · rw [hinitializer] at hi
    split at hi
    · cases hi
    · next hother => exact if_neg hother

/-- A model of one project that mentions a container, which it was bound to without an initializer. -/
def boundLibrary : Model :=
  ((do
    let _ ← setContainer coreEntry.path [("p", some coreContainer)]
    setRawBuildpath "p" [coreEntry] false : Action GeneratedDelta).runOn onlyProject).2

end ModelM

end Buildpath
