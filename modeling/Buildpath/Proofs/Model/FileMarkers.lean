import Buildpath.Proofs.FormatMarkers
import Buildpath.Proofs.Model.Histories
import Buildpath.Proofs.Origins

/-!
# Operations and unreadable project files

The only problem of a result is an entry without a binding (`Model.OnlyUnbound`), so resolving projects and
applying changes neither shows an unreadable project file nor takes back that one is shown, whatever
initializers do. Setting a raw buildpath leaves what is shown as it is (`ModelM.sparesFormats_setRaw`), though
the file can be read afterwards.
-/

namespace Buildpath

variable {m m' : Model} {project : String} {α : Type}

/-- Whether a result has no other problem than an entry without a binding. -/
def Resolved.OnlyUnbound (r : Resolved) : Prop := ∀ problem, r.unresolved = some problem → problem.isUnbound

theorem isUnbound_unbound (project : String) (e : Entry) : (e.unbound project).isUnbound := by
  unfold Entry.unbound
  split <;> rfl

theorem Marker.isFileFormat_of_isUnbound {problem : Status} (h : problem.isUnbound) (project : String)
    (options : Options) : (Marker.ofStatus project problem options).isFileFormat = false := by
  cases problem <;> first | rfl | cases h

/-- Whatever the bindings are, a resolution comes to a result without other problems. -/
theorem onlyUnbound_resolve {σ : Type} (b : Bindings (StateM σ)) (c : ResolutionContext)
    (raw : List Entry) (s : σ) : ((resolve b c raw).run s).1.result.OnlyUnbound := by
  intro problem hproblem
  have hfirst := resolve_firstUnbound b c raw s
  rw [hproblem] at hfirst
  obtain ⟨i, o, -, -, -, rfl, -⟩ := hfirst
  exact isUnbound_unbound c.project o

namespace Model

/-- Whether the results that projects have are without other problems than entries without a binding. -/
def OnlyUnbound (m : Model) : Prop := ∀ q i, (m.cell q).issued? = some i → i.result.OnlyUnbound

/-- Steps that bring no results with other problems. -/
def KeepsOnlyUnbound (m m' : Model) : Prop := m.OnlyUnbound → m'.OnlyUnbound

theorem KeepsOnlyUnbound.of_cells (h : m'.cells = m.cells) : m.KeepsOnlyUnbound m' := by
  intro hm q i hi
  rw [cell, h] at hi
  exact hm q i hi

theorem KeepsOnlyUnbound.setCell {c : Cell}
    (h : ∀ i, c.issued? = some i → (m.cell project).issued? = some i ∨ i.result.OnlyUnbound) :
    m.KeepsOnlyUnbound (m.setCell project c) := by
  intro hm q i hi
  rw [cell_setCell] at hi
  split at hi
  · exact (h i hi).elim (hm project i) id
  · exact hm q i hi

theorem issued?_clearRoots (m : Model) (q : String) :
    (m.clearRoots.cell q).issued? = (m.cell q).issued? := by
  rw [cell_clearRoots]
  rfl

instance : OperationFrame (fun _ _ ↦ True) KeepsOnlyUnbound where
  refl _ := id
  trans h h' := h' ∘ h
  volatile _ _ _ _ _ := .of_cells rfl
  touched _ _ := .setCell fun _ ↦ .inl
  clearRoots m hm q i hi := hm q i (m.issued?_clearRoots q ▸ hi)
  noted _ _ := .of_cells rfl
  registry _ _ := .of_cells rfl
  issued _ := .of_cells rfl
  fragments _ _ _ := .setCell fun _ ↦ .inl
  loads m other hnone := .setCell fun i hi ↦ by
    rw [loaded, Cell.storeRaw, hnone] at hi
    cases hi
  begins _ _ _ _ _ _ := .setCell nofun
  completes := by
    intro m m' other raw r _ _ _ houtcome hkeeps hm
    obtain ⟨find, m₁, rfl⟩ := houtcome
    refine KeepsOnlyUnbound.setCell (fun i hi ↦ ?_) (hkeeps hm)
    rw [Cell.complete] at hi
    split at hi
    · cases hi
      exact .inr (onlyUnbound_resolve _ _ _ m₁)
    · exact .inl hi
  replaces _ _ _ _ := .setCell nofun
  announced _ _ _ := .of_cells rfl
  references _ _ _ _ _ := .of_cells rfl
  bindsVariables _ _ := .of_cells rfl
  invalidates _ _ := .setCell nofun

/-- Whether the same problems are shown. -/
def SameMarkers (m m' : Model) : Prop := m'.markers = m.markers

instance : StepFrame SameMarkers where
  refl _ := rfl
  trans h h' := h'.trans h
  unheld _ _ _ := rfl
  closes _ _ := rfl
  touched _ _ := rfl
  clearRoots _ := rfl
  steps _ _ _ _ := rfl
  noted _ _ := rfl
  issued _ _ := rfl
  resolving _ _ _ h := h

instance : CacheFrame SameMarkers where
  caches _ _ _ _ _ _ _ := rfl

/-- Steps that bring no results with other problems and leave unreadable files shown where they are. -/
def SparesFormats (m m' : Model) : Prop :=
  m.OnlyUnbound → m'.OnlyUnbound ∧ m.markers.SameFormats m'.markers

/-- Steps that bring no results with other problems and do not touch markers. -/
theorem KeepsOnlyUnbound.spares (h : m.KeepsOnlyUnbound m') (hmarkers : m'.markers = m.markers) :
    m.SparesFormats m' :=
  fun hm ↦ ⟨h hm, hmarkers ▸ .refl m.markers⟩

instance : Ground SparesFormats where
  refl m hm := ⟨hm, .refl m.markers⟩
  trans h h' hm := ⟨(h' (h hm).1).1, (h hm).2.trans (h' (h hm).1).2⟩
  unheld m held folders := (Ground.unheld (R := KeepsOnlyUnbound) m held folders).spares rfl
  closes m keep := (Ground.closes (R := KeepsOnlyUnbound) m keep).spares rfl
  touched m other := (Ground.touched (R := KeepsOnlyUnbound) m other).spares rfl
  clearRoots m := (Ground.clearRoots (R := KeepsOnlyUnbound) m).spares rfl

instance : Deaf SparesFormats where
  announced m log indexer := (Deaf.announced (R := KeepsOnlyUnbound) m log indexer).spares rfl
  references m w name names hw := (Deaf.references (R := KeepsOnlyUnbound) m w name names hw).spares rfl

end Model

namespace ModelM

open Model

/-- Whatever initializers do, a project comes to a result without other problems. -/
theorem onlyUnbound_of_resolution {i : Issued} (hm : m.OnlyUnbound)
    (h : (resolution project).runOn m = (.ok i, m')) : i.result.OnlyUnbound := by
  obtain ⟨⟨⟩, _, hproject, -⟩ := Action.bind_eq_ok.mp h
  obtain ⟨cells, hrun, -⟩ := resolutionBy_runOn findContainer (requireProject_eq_ok hproject).2
  rw [resolution, hrun] at h
  rcases (m.loaded project).begin_cases (project ∈ m.resolving) with
    ⟨j, hj, -, hb⟩ | ⟨-, hb⟩ | ⟨-, -, generation, hb⟩
  · rw [hb] at h
    cases h
    rw [loaded, Cell.storeRaw] at hj
    split at hj
    · exact hm project i hj
    · cases hj
  · rw [hb] at h
    cases h
    exact nofun
  · rw [hb] at h
    cases h
    exact onlyUnbound_resolve _ _ _ _

/-- Steps that bring no results with other problems and do not touch markers. -/
private theorem sparesFormats_of {x : ModelM α}
    (hunbound : x.Moves (Tamely (fun _ _ ↦ True) KeepsOnlyUnbound)) (hmarkers : x.Moves SameMarkers) :
    x.Moves SparesFormats :=
  fun m ↦ (hunbound m m.tame).1.spares (hmarkers m)

private theorem sameMarkers_resolution (project : String) :
    Action.Moves SameMarkers (resolution project) :=
  moves_resolutionBy (moves_findContainer fun _ _ ↦ rfl) project

theorem sparesFormats_loadRaw (project : String) : (loadRaw project).Moves SparesFormats :=
  sparesFormats_of (moves_loadRaw_tame project) (moves_loadRaw project)

theorem sparesFormats_resolution (project : String) : Action.Moves SparesFormats (resolution project) :=
  sparesFormats_of (moves_resolution_tame project) (sameMarkers_resolution project)

/-- A flush of other markers. -/
private theorem sparesFormats_flushMarkers (project : String) (cycles : Bool) :
    (flushMarkers project cycles false).Moves SparesFormats :=
  .modify fun m hm ↦
    ⟨Backdrop.volatile (R := KeepsOnlyUnbound) m _ _ _ _ hm, .flush m.markers project cycles⟩

private theorem sparesFormats_inspect (project : String) : (inspect project).Moves SparesFormats :=
  .bind (sparesFormats_flushMarkers project false) fun _ ↦ .bind (sparesFormats_loadRaw project) fun _ ↦
    .bind (sparesFormats_resolution project) fun _ ↦ sparesFormats_of
      (moves_knownFragments_tame project) (moves_knownFragments sameMarkers_resolution project)

private theorem sparesFormats_replaceEntries (project : String) (entries : List Entry)
    (fragments : Option (List Fragment)) :
    (replaceEntries project entries fragments).Moves SparesFormats :=
  sparesFormats_of (moves_replaceEntries_tame trivial fragments) (.bind (moves_cell project) fun _ ↦
    .bind (.bind (moves_cell project) fun _ ↦ .bind (.modify fun _ ↦ rfl) fun _ ↦ .pure _) fun _ ↦
      .bind (.modify fun _ ↦ rfl) fun _ ↦ .pure _)

/-- Showing an entry without a binding. -/
private theorem sparesFormats_showUnresolved (project : String) :
    (showUnresolved project).Moves SparesFormats := by
  intro m hm
  obtain ⟨hunbound, hsame⟩ := sparesFormats_resolution project m hm
  rcases hrun : (resolution project).runOn m with ⟨r, m₁⟩
  have hfirst : (resolution project).run.run m = (r, m₁) := hrun
  rw [hfirst] at hunbound hsame
  rw [showUnresolved, StateT.run_bind, hfirst]
  cases r with
  | error failure => exact ⟨hunbound, hsame⟩
  | ok i =>
    have hresult := onlyUnbound_of_resolution hm hrun
    dsimp only [Bind.bind]
    cases hproblem : i.result.unresolved with
    | none => exact ⟨hunbound, hsame⟩
    | some problem =>
      exact ⟨Backdrop.volatile (R := KeepsOnlyUnbound) m₁ _ _ _ _ hunbound, hsame.trans
        (.create _ project _ (Marker.isFileFormat_of_isUnbound (hresult problem hproblem) _ _))⟩

private theorem sparesFormats_validateCycles : (validateCycles []).Moves SparesFormats := by
  refine .bind (.bind_get fun m ↦ .bind_get fun m' ↦ ?_) fun participants ↦ .modify fun m hm ↦
    ⟨Backdrop.volatile (R := KeepsOnlyUnbound) m _ _ _ _ hm, .validateCycles _ _ participants _⟩
  exact moves_cycleParticipants (fun project ↦
    .bind (moves_resolvedBuildpath sparesFormats_resolution project true) fun _ ↦ .pure _) [] _

private theorem sparesFormats_applyChange (change : Change) (setsUpFolders : Bool) :
    (applyChange change setsUpFolders).Moves SparesFormats := by
  have hreset : ∀ (m : Model) path other,
      m.SparesFormats { m with registry := m.registry.reset path other } := fun m path other ↦
    (TameFrame.registry (R := KeepsOnlyUnbound) m (m.registry.reset path other)).spares rfl
  rw [applyChange_eq]
  refine .bind (moves_generateDelta sparesFormats_resolution hreset change) fun r ↦
    .bind (moves_followUpBy (moves_announce sparesFormats_resolution change r.1) ?_) fun _ ↦ .pure _
  exact moves_concludeBy sparesFormats_validateCycles (sparesFormats_flushMarkers _ _)
    (sparesFormats_showUnresolved change.project) r.1 setsUpFolders

theorem sparesFormats_replaceRaw (project : String) (entries : List Entry) (saves : Bool) :
    (replaceRaw project entries saves).Moves SparesFormats :=
  .bind (sparesFormats_inspect project) fun fragments ↦
    .bind (sparesFormats_replaceEntries project entries fragments) fun change ↦
      sparesFormats_applyChange change saves

/-- Setting a raw buildpath, whether it succeeds or not, leaves unreadable files shown where they are. -/
theorem sparesFormats_setRaw (project : String) (entries : List Entry) (saves : Bool) :
    Action.Moves SparesFormats (setRawBuildpath project entries saves) := by
  intro m hm
  obtain ⟨begun, m₂, held, held', rfl, hm', hcases⟩ := setRaw_cases m project entries saves
  have hbegun : m.SparesFormats { m with held } := Ground.unheld m held m.folders
  suffices hreached : m.SparesFormats m₂ by
    have hend : m₂.SparesFormats { m₂ with held := held' } :=
      Ground.unheld m₂ held' m₂.folders
    change Model.OnlyUnbound ((setRawBuildpath project entries saves).runOn m).2 ∧
      m.markers.SameFormats ((setRawBuildpath project entries saves).runOn m).2.markers
    rw [hm']
    exact (Chained.trans hreached hend : SparesFormats _ _) hm
  have hreplaced := Chained.trans hbegun (sparesFormats_replaceRaw project entries saves { m with held })
  generalize ((replaceRaw project entries saves).run { m with held }).2 = m₁ at hcases hreplaced
  rcases hcases with rfl | rfl | ⟨-, hsave⟩
  · exact hbegun
  · exact hreplaced
  · obtain ⟨isWritten, w, -, rfl⟩ := saveFile_eq_ok hsave
    have hwritten : m₁.KeepsOnlyUnbound { m₁ with workspace := w } := .of_cells rfl
    have hstamped : ({ m₁ with workspace := w } : Model).KeepsOnlyUnbound
        (({ m₁ with workspace := w } : Model).setCell project
          ((m₁.cell project).setStamp (w.stamp? (projectFilePath project)))) :=
      .setCell fun _ ↦ .inl
    exact Chained.trans hreplaced ((Chained.trans hwritten hstamped).spares rfl)

end ModelM

end Buildpath
