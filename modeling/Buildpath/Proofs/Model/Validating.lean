import Buildpath.Proofs.Markers
import Buildpath.Proofs.Model.Linking

/-!
# Changes and cycle markers

What applying a change does to cycle markers. If a change of projects is noted they are brought in line
with the links that projects have then. Otherwise they stay, and the project that changed has links of the
same texts as before (`applyChange_marks`).
-/

namespace Buildpath

variable {m m' m'' : Model} {project q : String} {change : Change} {g : GeneratedDelta}

namespace Model

/-! ### Projects and links -/

/-- Whether the same projects are script projects that exist. -/
structure SameNodes (m m' : Model) : Prop where
  names : m'.projectGraphNames = m.projectGraphNames
  isNode : ∀ q, m'.isNode q = m.isNode q
  scriptProjects : m'.workspace.scriptProjects = m.workspace.scriptProjects

namespace SameNodes

theorem refl (m : Model) : m.SameNodes m := ⟨rfl, fun _ ↦ rfl, rfl⟩

theorem trans (h : m.SameNodes m') (h' : m'.SameNodes m'') : m.SameNodes m'' :=
  ⟨h'.names.trans h.names, fun q ↦ (h'.isNode q).trans (h.isNode q),
    h'.scriptProjects.trans h.scriptProjects⟩

theorem of_files (h : m'.workspace.files = m.workspace.files) : m.SameNodes m' := by
  have hnode : ∀ q, m'.isNode q = m.isNode q := fun q ↦ by
    rw [Model.isNode, Model.isNode, Workspace.projectExists_of_files h, Workspace.isScript_of_files h]
  refine ⟨?_, hnode, Workspace.scriptProjects_of_files h⟩
  rw [projectGraphNames, projectGraphNames, Workspace.candidateNames_of_files h]
  exact List.filter_congr fun q _ ↦ hnode q

theorem participantsOver_eq (h : m.SameNodes m') : m'.participantsOver = m.participantsOver := by
  have hgraph : m'.linkGraph = m.linkGraph := by
    funext res
    rw [linkGraph, linkGraph, h.names]
    simp only [h.isNode]
  funext res
  rw [participantsOver, participantsOver, hgraph, h.scriptProjects]

end SameNodes

/-- Whether the same projects have the same raw buildpaths and the same shapes, where there are no
initializers. -/
structure SameLinks (m m' : Model) : Prop where
  bare : m'.Bare
  nodes : m.SameNodes m'
  shapesOf : ∀ q, m'.shapesOf q = m.shapesOf q
  raw : ∀ q, m'.raw q = m.raw q
  known : ∀ q raw, (m.cell q).raw = some raw → (m'.cell q).raw = some raw

theorem SameLinks.linksOf (h : m.SameLinks m') (q : String) : m'.linksOf q = m.linksOf q :=
  linksOf_eq (h.shapesOf q)

theorem SameLinks.trans (h : m.SameLinks m') (h' : m'.SameLinks m'') : m.SameLinks m'' :=
  ⟨h'.bare, h.nodes.trans h'.nodes, fun q ↦ (h'.shapesOf q).trans (h.shapesOf q),
    fun q ↦ (h'.raw q).trans (h.raw q), fun q raw ↦ h'.known q raw ∘ h.known q raw⟩

theorem Rereads.sameLinks (h : m.Rereads m') (hm : m.Bare) : m.SameLinks m' :=
  ⟨h.bare hm, .of_files h.files, h.shapesOf, h.raw, h.known⟩

/-! ### Markers -/

/-- Whether cycles are shown at those script projects that searches over given links find. -/
def ShowsOver (m : Model) (res : String → List Path) : Prop :=
  ∀ q ∈ m.workspace.scriptProjects, m.markers.showsCycle q = decide (q ∈ m.participantsOver res)

/-- Cycles that are shown still are those over the links. -/
theorem ShowsOver.of_same {res : String → List Path} (h : m.ShowsOver res) (hnodes : m.SameNodes m')
    (hshows : ∀ q, m'.markers.showsCycle q = m.markers.showsCycle q) : m'.ShowsOver res := by
  intro q hq
  rw [hshows, hnodes.participantsOver_eq]
  exact h q (hnodes.scriptProjects ▸ hq)

/-- Whether projects keep their links, and cycles are shown where they were. -/
structure Spares (m m' : Model) : Prop extends Rereads m m' where
  cycles : m.markers.SameCycles m'.markers

theorem Spares.trans (h : m.Spares m') (h' : m'.Spares m'') : m.Spares m'' :=
  ⟨h.toRereads.trans h'.toRereads, h.cycles.trans h'.cycles⟩

/-- Steps from models without initializers that keep links and leave cycles alone. -/
def SparesCycles (m m' : Model) : Prop := m.Bare → m.Spares m'

/-- Steps that keep links and do not touch markers. -/
theorem KeepsShapes.spares (h : KeepsShapes m m') (hmarkers : m'.markers = m.markers) :
    SparesCycles m m' := fun hm ↦ ⟨h hm, hmarkers ▸ .refl m.markers⟩

instance : CacheFrame SparesCycles where
  refl m _ := ⟨.refl m, .refl m.markers⟩
  trans h h' hm := (h hm).trans (h' ((h hm).bare hm))
  unheld m held folders := (Ground.unheld (R := KeepsShapes) m held folders).spares rfl
  closes m keep := (Ground.closes (R := KeepsShapes) m keep).spares rfl
  caches m project c hraw hg hstate hlast :=
    (CacheFrame.caches (R := KeepsShapes) m project c hraw hg hstate hlast).spares rfl
  clearRoots m := (Ground.clearRoots (R := KeepsShapes) m).spares rfl

instance : Deaf SparesCycles where
  announced m log indexer := (Deaf.announced (R := KeepsShapes) m log indexer).spares rfl
  references m w name names hw := (Deaf.references (R := KeepsShapes) m w name names hw).spares rfl

end Model

namespace ModelM

open Model

private theorem spares_resolution (project : String) :
    Action.Moves SparesCycles (resolution project) := by
  refine moves_resolution fun m hexists hm ↦ ?_
  obtain ⟨i, m', hrun, ⟨cells, folders, issued, rfl⟩, hrereads, -⟩ := resolution_links hm hexists
  rw [hrun]
  exact ⟨hrereads, .refl m.markers⟩

instance : Looks Model.Bare Model.SparesCycles where
  loadRaw project m hm := by
    refine KeepsShapes.spares (Looks.loadRaw (R := KeepsShapes) project m) ?_ hm
    obtain ⟨cells, hrun, -⟩ := loadRaw_run m project
    exact congrArg (fun r : RawBuildpath × Model ↦ r.2.markers) hrun
  resolution := spares_resolution
  holds m held := Ground.unheld m held m.folders
  resembles h hm := (h hm).toResembles
  stays h hm := (h hm).bare hm

/-! ### Steps of a change -/

/-- Removing the markers that are neither for cycles nor for project files. -/
theorem spares_flushMarkers (project : String) :
    (flushMarkers project false false).Moves SparesCycles :=
  .modify fun m hm ↦ ⟨Backdrop.volatile (R := KeepsShapes) m _ _ _ _ hm,
    MarkerStore.sameCycles_flush m.markers project⟩

/-- Showing an entry without a binding. -/
private theorem spares_showUnresolved (project : String) :
    (showUnresolved project).Moves SparesCycles := by
  intro m hm
  have hkeeps : (showUnresolved project).Moves KeepsShapes :=
    moves_showUnresolved Looks.resolution project
  refine ⟨hkeeps m hm, ?_⟩
  by_cases hexists : m.workspace.projectExists project
  · obtain ⟨i, m', hrun, hremembers, -, -, hresult⟩ := resolution_bare hm hexists
    have hmarkers : m'.markers = m.markers := by
      obtain ⟨cells, folders, issued, rfl⟩ := hremembers
      rfl
    have hfirst : (resolution project).run.run m = (.ok i, m') := hrun
    rw [← hmarkers, showUnresolved, StateT.run_bind, hfirst]
    dsimp only [Bind.bind]
    cases hproblem : i.result.unresolved with
    | none => exact .refl m'.markers
    | some problem =>
      refine MarkerStore.sameCycles_create m'.markers project _ ?_
      rcases hresult with ⟨-, hok⟩ | ⟨last, hresult⟩
      · rw [Resolved.isOk, hproblem] at hok
        cases hok
      · rw [hresult] at hproblem
        exact ne_cycle_of_unresolved hproblem
  · have hfirst : (resolution project).run.run m = (.error _, m) := resolution_missing hexists
    have hrest : ((showUnresolved project).run m).2 = m := by
      rw [showUnresolved, StateT.run_bind, hfirst]
      rfl
    rw [hrest]
    exact .refl m.markers

/-- Bringing cycle markers up to date keeps links, and shows cycles at those script projects that searches
over them find. -/
theorem validateCycles_marks (hm : m.Bare) (htidy : m.markers.Tidy) :
    m.Rereads ((validateCycles []).run m).2 ∧ ((validateCycles []).run m).2.markers.Tidy ∧
      ((validateCycles []).run m).2.ShowsOver ((validateCycles []).run m).2.linksOf := by
  have hrereads : m.Rereads ((validateCycles []).run m).2 :=
    moves_validateCycles (R := KeepsShapes) Looks.resolution [] m hm
  obtain ⟨m₁, hsearch, hstill⟩ := cycleParticipants_still hm.still []
  have hrun : ((validateCycles []).run m).2.markers = m₁.markers.validateCycles
      m₁.workspace.scriptProjects ((m.graph.cycleParticipants [] m.workspace.scriptProjects).run)
        m₁.optionsOf := by
    rw [validateCycles, StateT.run_bind, hsearch]
    rfl
  have hm₁ : m₁.markers = m.markers ∧ m₁.workspace = m.workspace := by
    obtain ⟨cells, folders, issued, rfl⟩ := hstill.remembers
    exact ⟨rfl, rfl⟩
  rw [hm₁.1, hm₁.2, cycleParticipants_graph] at hrun
  obtain ⟨htidy', hshows⟩ := MarkerStore.showsCycle_validateCycles htidy m.workspace.scriptProjects
    (m.participantsOver fun q ↦ links (m.entriesOf q)) m₁.optionsOf
  refine ⟨hrereads, hrun ▸ htidy', fun q hq ↦ ?_⟩
  have hnodes := SameNodes.of_files hrereads.files
  rw [hnodes.scriptProjects] at hq
  rw [hrun, hshows, if_pos hq, hnodes.participantsOver_eq, funext hrereads.linksOf]
  rfl

/-- What follows from a change once it was compared: links are kept, and cycles are shown where they were,
or where they are over the links if a change of projects was noted. -/
theorem followUp_marks (hm : m.Bare) (htidy : m.markers.Tidy) (change : Change) (g : GeneratedDelta)
    (setsUpFolders : Bool) : m.Rereads ((followUp change g setsUpFolders).run m).2 ∧
      ((followUp change g setsUpFolders).run m).2.markers.Tidy ∧
      (¬ g.flags.hasProjectChange ∧
        (∀ q, ((followUp change g setsUpFolders).run m).2.markers.showsCycle q =
          m.markers.showsCycle q) ∨
        ((followUp change g setsUpFolders).run m).2.ShowsOver
          ((followUp change g setsUpFolders).run m).2.linksOf) := by
  let announced : ModelM Unit := if g.hasDelta then announce change g else pure ()
  let concluded : ModelM Unit := (if g.flags.hasLibraryChange && setsUpFolders then
    modify fun m ↦ { m with folders := m.folders.createPending.2 } else pure ()) >>= fun _ ↦
      flushMarkers change.project false false >>= fun _ ↦ showUnresolved change.project
  have hannounced : announced.Moves SparesCycles := by
    unfold announced
    split
    · exact moves_announce Looks.resolution change g
    · exact .pure ()
  have hconcluded : concluded.Moves SparesCycles := by
    refine .bind ?_ fun _ ↦
      .bind (spares_flushMarkers change.project) fun _ ↦ spares_showUnresolved change.project
    split
    · exact .modify fun m ↦ Ground.unheld m _ _
    · exact .pure ()
  have hsteps : followUp change g setsUpFolders = announced >>= fun _ ↦
      (if g.flags.hasProjectChange then validateCycles [] else pure ()) >>= fun _ ↦ concluded := rfl
  have hfirst := hannounced m hm
  have hrun : ((followUp change g setsUpFolders).run m).2 = (concluded.run
      (((if g.flags.hasProjectChange then validateCycles [] else pure ()) : ModelM Unit).run
        (announced.run m).2).2).2 := by
    rw [hsteps]
    rfl
  rw [hrun]
  generalize (announced.run m).2 = m₁ at hfirst
  have hm₁ := hfirst.bare hm
  by_cases hnoted : g.flags.hasProjectChange
  · rw [if_pos hnoted]
    obtain ⟨hrereads, htidy₂, hshows₂⟩ := validateCycles_marks hm₁ (hfirst.cycles.tidy htidy)
    have hlast := hconcluded ((validateCycles []).run m₁).2 (hrereads.bare hm₁)
    refine ⟨hfirst.toRereads.trans (hrereads.trans hlast.toRereads), hlast.cycles.tidy htidy₂, .inr ?_⟩
    rw [funext hlast.linksOf]
    exact hshows₂.of_same (.of_files hlast.files) hlast.cycles.shows
  · rw [if_neg hnoted]
    have hboth := hfirst.trans (hconcluded m₁ hm₁)
    exact ⟨hboth.toRereads, hboth.cycles.tidy htidy, .inl ⟨hnoted, hboth.cycles.shows⟩⟩

/-! ### Changes -/

/-- Whether comparing the raw buildpaths of a change drops no binding that matters to shapes. -/
def KeepsBindings (m : Model) (change : Change) : Prop :=
  ∀ i m₁ g, (resolution change.project).runOn m = (.ok i, m₁) → g.project = change.project →
    ∀ m₂ : Model, m₂ = m₁.setCell change.project (m₁.cell change.project) → ∃ registry,
      ((compareRaws change (m₁.cell change.project).rawEntries g).run m₂).2 = { m₂ with registry } ∧
        ∀ q, ({ m₂ with registry } : Model).shapesOf q = m₂.shapesOf q

/-- Comparing keeps links, and if no change of projects is noted, the links of the project have the texts
that they had. -/
private theorem generateDelta_marks (hm : m.Bare) (hkeeps : KeepsBindings m change) :
    m.SameLinks ((generateDelta change).run m).2 ∧
      m.markers.SameCycles ((generateDelta change).run m).2.markers ∧
      (m.workspace.projectExists change.project → ∀ old, change.resolved = some old →
        ¬ ((generateDelta change).run m).1.1.flags.hasProjectChange →
          SameTexts (links old.result.entries) (m.linksOf change.project)) := by
  by_cases hexists : m.workspace.projectExists change.project
  · obtain ⟨i, m₁, hrun, -, -, hlinks⟩ := resolution_links hm hexists
    have hresolved : m.Spares m₁ := by
      have hmoves := spares_resolution change.project m hm
      have hm₁ : ((resolution change.project).run.run m).2 = m₁ := congrArg Prod.snd hrun
      rwa [hm₁] at hmoves
    have htouched := hresolved.trans ((Ground.touched m₁ change.project : SparesCycles _ _)
      (hresolved.bare hm))
    rw [generateDelta_run hrun]
    let begun : GeneratedDelta :=
      { project := change.project, delta := { project := change.project }
        old := change.resolved, new := some i }
    obtain ⟨registry, hdrop, hkept⟩ := hkeeps i m₁ begun hrun rfl _ rfl
    generalize m₁.setCell change.project (m₁.cell change.project) = m₂ at htouched hdrop hkept ⊢
    rw [StateT.run_bind]
    generalize (compareRaws change (m₁.cell change.project).rawEntries _).run m₂ = compared at hdrop ⊢
    obtain ⟨g, m₃⟩ := compared
    obtain rfl : m₃ = { m₂ with registry } := hdrop
    have hm₂ := htouched.bare hm
    have hdropped : m₂.SameLinks { m₂ with registry } :=
      ⟨⟨hm₂.initializers, hm₂.isIdle, hm₂.nesting⟩, .of_files rfl, hkept, fun _ ↦ rfl, fun _ _ ↦ id⟩
    have hcompared : m₂.SameLinks ((compareOutcomes change i g).run { m₂ with registry }).2 ∧
        m₂.markers.SameCycles ((compareOutcomes change i g).run { m₂ with registry }).2.markers := by
      have hmoves : SparesCycles _ _ := moves_compareOutcomes change i g { m₂ with registry }
      exact ⟨hdropped.trans ((hmoves hdropped.bare).sameLinks hdropped.bare),
        (hmoves hdropped.bare).cycles⟩
    refine ⟨(htouched.sameLinks hm).trans hcompared.1, htouched.cycles.trans hcompared.2,
      fun _ old hold hflag ↦ ?_⟩
    rw [← hlinks]
    exact sameTexts_of_compareOutcomes hold hflag
  · have hrun : (resolution change.project).run.run m = (.error _, m) := resolution_missing hexists
    rw [generateDelta_eq, StateT.run_bind, hrun]
    exact ⟨⟨hm, .refl m, fun _ ↦ rfl, fun _ ↦ rfl, fun _ _ ↦ id⟩, .refl m.markers,
      fun h ↦ absurd h hexists⟩

/-- Applying a change that drops no binding that matters keeps shapes. -/
theorem sameLinks_applyChange (hm : m.Bare) (hkeeps : KeepsBindings m change) (setsUpFolders : Bool) :
    m.SameLinks ((applyChange change setsUpFolders).run m).2 := by
  obtain ⟨hlinks, -, -⟩ := generateDelta_marks hm hkeeps
  rw [applyChange_leaves]
  have hrest := moves_followUp (R := KeepsShapes) Looks.resolution change
    ((generateDelta change).run m).1.1 setsUpFolders _ hlinks.bare
  exact hlinks.trans (hrest.sameLinks hlinks.bare)

/-- Applying a change keeps links, and cycles are shown where they were, unless they are brought in line
with the links. If they are not, the links of the project have the texts that they had. -/
theorem applyChange_marks (hm : m.Bare) (htidy : m.markers.Tidy) (hkeeps : KeepsBindings m change)
    (setsUpFolders : Bool) : m.SameLinks ((applyChange change setsUpFolders).run m).2 ∧
      ((applyChange change setsUpFolders).run m).2.markers.Tidy ∧
      ((∀ q, ((applyChange change setsUpFolders).run m).2.markers.showsCycle q =
          m.markers.showsCycle q) ∧
        (m.workspace.projectExists change.project → ∀ old, change.resolved = some old →
          SameTexts (links old.result.entries) (m.linksOf change.project)) ∨
        ((applyChange change setsUpFolders).run m).2.ShowsOver
          ((applyChange change setsUpFolders).run m).2.linksOf) := by
  obtain ⟨hlinks, hcycles, htexts⟩ := generateDelta_marks hm hkeeps
  rw [applyChange_leaves]
  obtain ⟨hrereads, htidy', hmarks⟩ := followUp_marks hlinks.bare (hcycles.tidy htidy) change
    ((generateDelta change).run m).1.1 setsUpFolders
  refine ⟨hlinks.trans (hrereads.sameLinks hlinks.bare), htidy', hmarks.imp_left fun ⟨hflag, hshows⟩ ↦ ?_⟩
  exact ⟨fun q ↦ (hshows q).trans (hcycles.shows q), fun hexists old hold ↦ htexts hexists old hold hflag⟩

end ModelM

end Buildpath
