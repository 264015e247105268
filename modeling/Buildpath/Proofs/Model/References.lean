import Buildpath.Proofs.Model.Relinking
import Buildpath.Proofs.Resource.References

/-!
# References that follow buildpaths

The references of a project follow what it requires. When a change is applied, the names that come from the
old result give way to those of the new one, and the others stay (`applyChange_exchanges`). Other projects keep
their references.
-/

namespace Buildpath

variable {m m' m'' : Model} {p name : String} {es : List Entry} {before ls : List Path}
  {manual : String → Prop}

/-! ### Names -/

private theorem mem_foldl_prerequisites {names acc : List String} :
    name ∈ names.foldl (fun acc n ↦ if n ∈ acc then acc else acc ++ [n]) acc ↔
      name ∈ acc ∨ name ∈ names := by
  induction names generalizing acc with
  | nil => simp
  | cons n names ih =>
    rw [List.foldl_cons, ih, List.mem_cons]
    split
    · next hmem =>
      refine ⟨Or.imp_right .inr, ?_⟩
      rintro (h | rfl | h)
      exacts [.inl h, .inl hmem, .inr h]
    · rw [List.mem_append, List.mem_singleton, or_assoc]

/-- What a buildpath requires are the projects that its links name. -/
theorem mem_prerequisites : name ∈ prerequisites es ↔ name ∈ Model.requiredNames (links es) := by
  rw [prerequisites, mem_foldl_prerequisites, filterMap_projectName?, Model.requiredNames]
  exact or_iff_right List.not_mem_nil

private theorem mem_eraseRepsBy_loop {a : String} {names acc : List String} :
    name ∈ List.eraseRepsBy.loop (· == ·) a names acc ↔ name ∈ acc ∨ name = a ∨ name ∈ names := by
  induction names generalizing a acc with
  | nil => simp [List.eraseRepsBy.loop, or_comm]
  | cons b names ih =>
    rw [List.eraseRepsBy.loop]
    split
    · next heq =>
      rw [ih, List.mem_cons, eq_of_beq heq]
      tauto
    · rw [ih, List.mem_cons, List.mem_cons]
      tauto

theorem ModelM.mem_sortNames {names : List String} : name ∈ sortNames names ↔ name ∈ names := by
  have hsorted : name ∈ names.mergeSort (· ≤ ·) ↔ name ∈ names := List.mem_mergeSort
  rw [sortNames, ← hsorted]
  cases names.mergeSort (· ≤ ·) with
  | nil => rfl
  | cons a names =>
    rw [List.eraseReps, List.eraseRepsBy, mem_eraseRepsBy_loop, List.mem_cons]
    exact or_iff_right List.not_mem_nil

namespace Model

/-! ### Steps that keep references -/

/-- Whether projects keep their links, and nothing is written to the workspace. -/
structure Unwritten (m m' : Model) : Prop extends Rereads m m' where
  workspace : m'.workspace = m.workspace

theorem Unwritten.trans (h : m.Unwritten m') (h' : m'.Unwritten m'') : m.Unwritten m'' :=
  ⟨h.toRereads.trans h'.toRereads, h'.workspace.trans h.workspace⟩

/-- Steps from models without initializers that keep links and leave the workspace alone. -/
def WritesNothing (m m' : Model) : Prop := m.Bare → m.Unwritten m'

/-- Steps that keep links and leave the workspace alone. -/
theorem KeepsShapes.unwritten (h : KeepsShapes m m') (hworkspace : m'.workspace = m.workspace) :
    WritesNothing m m' := fun hm ↦ ⟨h hm, hworkspace⟩

instance : Frame WritesNothing where
  refl m _ := ⟨.refl m, rfl⟩
  trans h h' hm := (h hm).trans (h' ((h hm).bare hm))
  volatile m held markers folders children :=
    (Backdrop.volatile (R := KeepsShapes) m held markers folders children).unwritten rfl
  caches m project c hraw hg hstate hlast :=
    (CacheFrame.caches (R := KeepsShapes) m project c hraw hg hstate hlast).unwritten rfl
  clearRoots m := (Ground.clearRoots (R := KeepsShapes) m).unwritten rfl

end Model

namespace ModelM

open Model

instance : Looks Model.Bare Model.WritesNothing where
  loadRaw project m := by
    refine (Looks.loadRaw (R := KeepsShapes) project m).unwritten ?_
    obtain ⟨cells, hrun, -⟩ := loadRaw_run m project
    exact congrArg (fun r : RawBuildpath × Model ↦ r.2.workspace) hrun
  resolution project := by
    refine moves_resolution fun m hexists hm ↦ ?_
    obtain ⟨i, m', hrun, ⟨cells, folders, issued, rfl⟩, hrereads, -⟩ := resolution_links hm hexists
    rw [hrun]
    exact ⟨hrereads, rfl⟩
  holds m held := (Looks.holds (R := KeepsShapes) m held).unwritten rfl
  resembles h hm := (h hm).toResembles
  stays h hm := (h hm).bare hm

end ModelM

namespace Model

/-! ### What a change does to references -/

/-- Whether what happens to links and references concerns one project only, and raw buildpaths stay as they
are. -/
structure Confined (project : String) (m m' : Model) : Prop where
  bare : m'.Bare
  files : m'.workspace.files = m.workspace.files
  raw : ∀ q, m'.raw q = m.raw q
  known : ∀ q raw, (m.cell q).raw = some raw → (m'.cell q).raw = some raw
  shapesOf : ∀ q, project ≠ q → m'.shapesOf q = m.shapesOf q
  references : ∀ q, project ≠ q → m'.workspace.references q = m.workspace.references q

theorem Confined.linksOf (h : m.Confined p m') {q : String} (hq : p ≠ q) : m'.linksOf q = m.linksOf q :=
  linksOf_eq (h.shapesOf q hq)

theorem Confined.trans (h : m.Confined p m') (h' : m'.Confined p m'') : m.Confined p m'' :=
  ⟨h'.bare, h'.files.trans h.files, fun q ↦ (h'.raw q).trans (h.raw q),
    fun q raw ↦ h'.known q raw ∘ h.known q raw, fun q hq ↦ (h'.shapesOf q hq).trans (h.shapesOf q hq),
    fun q hq ↦ (h'.references q hq).trans (h.references q hq)⟩

theorem Rereads.confined (h : m.Rereads m') (hm : m.Bare)
    (hreferences : ∀ q, p ≠ q → m'.workspace.references q = m.workspace.references q) : m.Confined p m' :=
  ⟨h.bare hm, h.files, h.raw, h.known, fun q _ ↦ h.shapesOf q, hreferences⟩

theorem Unwritten.confined (h : m.Unwritten m') (hm : m.Bare) : m.Confined p m' :=
  h.toRereads.confined hm fun _ _ ↦ by rw [h.workspace]

/-- Whether of the references of a project those that are named by some links give way to those that are named
by others, and the rest stays. -/
def Replaces (m m' : Model) (project : String) (before after : List Path) : Prop :=
  ∀ name, name ∈ m'.workspace.references project ↔
    name ∈ m.workspace.references project ∧ name ∉ requiredNames before ∨ name ∈ requiredNames after

/-- Whether the references of a project follow its links, which were others before. -/
def Exchanges (m m' : Model) (project : String) (before : List Path) : Prop :=
  m.Replaces m' project before (m'.linksOf project) ∨
    m'.linksOf project = before ∧ m'.workspace.references project = m.workspace.references project

/-- Whether a project refers to some names of its own and to the projects that links name. -/
def RefersTo (m : Model) (project : String) (manual : String → Prop) (ls : List Path) : Prop :=
  ∀ name, name ∈ m.workspace.references project ↔ manual name ∨ name ∈ requiredNames ls

/-- References follow links that are exchanged, if the project never requires a name of its own. -/
theorem RefersTo.exchange (h : m.RefersTo p manual ls) (hexchanges : m.Exchanges m' p before)
    (hdisjoint : ∀ name, manual name → name ∉ requiredNames before)
    (hlinks : ls = before ∨ ls = m'.linksOf p) : m'.RefersTo p manual (m'.linksOf p) := by
  rcases hexchanges with hreplaces | ⟨hsame, hreferences⟩
  · intro name
    rw [hreplaces name, h name]
    have hmanual := hdisjoint name
    rcases hlinks with rfl | rfl <;> tauto
  · have hls : ls = m'.linksOf p := hlinks.elim (·.trans hsame.symm) id
    intro name
    rw [hreferences, h name, hls]

end Model

namespace ModelM

open Model

variable {change : Change}

/-- The references of a project that exists are set as its result requires. -/
private theorem refer_run (m : Model) (project : String) (old : Option Issued) (i : Issued) :
    ∃ w, ((refer project old i).runOn m).2 = { m with workspace := w } ∧
      (∀ q, project ≠ q → w.references q = m.workspace.references q) ∧
      (m.workspace.projectExists project → m.Replaces { m with workspace := w } project
        ((old.map fun o ↦ links o.result.entries).getD []) (links i.result.entries)) := by
  let gone := (old.map fun o ↦ prerequisites o.result.entries).getD []
  let current := sortNames (m.workspace.references project)
  let after := sortNames ((current.filter (· ∉ gone)) ++ prerequisites i.result.entries)
  have hgone : ∀ name, name ∈ gone ↔
      name ∈ requiredNames ((old.map fun o ↦ links o.result.entries).getD []) := by
    intro name
    cases old with
    | none => exact iff_of_false List.not_mem_nil List.not_mem_nil
    | some o => exact mem_prerequisites
  have hafter : ∀ name, name ∈ after ↔ name ∈ m.workspace.references project ∧
      name ∉ requiredNames ((old.map fun o ↦ links o.result.entries).getD []) ∨
        name ∈ requiredNames (links i.result.entries) := by
    intro name
    rw [mem_sortNames, List.mem_append, List.mem_filter, mem_sortNames, decide_eq_true_iff, hgone,
      mem_prerequisites]
  have hrun : ((refer project old i).runOn m).2 = ((if after = current then pure false else
      access (projectPath project) (m.workspace.setReferences project after) >>= fun w ↦ do
        modify fun m ↦ { m with workspace := w }
        return true : Action Bool).runOn m).2 := rfl
  rw [hrun]
  by_cases hsame : after = current
  · rw [if_pos hsame]
    refine ⟨m.workspace, rfl, fun _ _ ↦ rfl, fun _ name ↦ ?_⟩
    rw [← hafter, hsame, mem_sortNames]
  · rw [if_neg hsame]
    cases hset : m.workspace.setReferences project after with
    | error error =>
      refine ⟨m.workspace, rfl, fun _ _ ↦ rfl, fun hexists ↦ ?_⟩
      obtain ⟨w, hw⟩ := Workspace.exists_setReferences hexists after
      rw [hset] at hw
      cases hw
    | ok w =>
      have hreferences := Workspace.references_setReferences hset
      refine ⟨w, rfl, fun q hq ↦ ?_, fun _ name ↦ ?_⟩
      · rw [hreferences, if_neg hq]
      · change name ∈ w.references project ↔ _
        rw [hreferences, if_pos rfl, hafter]

/-- Telling of a change makes the references of its project follow its links. -/
private theorem announce_references (hm : m.Bare) (change : Change) (g : GeneratedDelta) :
    (∀ q, change.project ≠ q →
      ((announce change g).run m).2.workspace.references q = m.workspace.references q) ∧
      (m.workspace.projectExists change.project → ∀ old, change.resolved = some old →
        m.Replaces ((announce change g).run m).2 change.project (links old.result.entries)
          (m.linksOf change.project)) := by
  let told : ModelM Unit := modify (·.notify g.delta g.flags) >>= fun _ ↦ requestIndexing g
  have htold : told.Moves WritesNothing :=
    .bind (moves_notify (fun m log ↦ KeepsShapes.unwritten (Deaf.announced m log m.indexer) rfl) _ _)
      fun _ ↦ .modify fun m ↦ KeepsShapes.unwritten (Deaf.announced m m.log _) rfl
  have hrun : ((announce change g).run m).2 =
      ((updateReferences change.project change.resolved).runOn (told.run m).2).2 := rfl
  have hunwritten := htold m hm
  rw [hrun]
  generalize (told.run m).2 = m₁ at hunwritten
  have hm₁ := hunwritten.bare hm
  have hupdate : updateReferences change.project change.resolved =
      resolution change.project >>= refer change.project change.resolved := rfl
  rw [hupdate, Action.bind_runOn, ← hunwritten.workspace]
  by_cases hexists : m₁.workspace.projectExists change.project
  · obtain ⟨i, m₂, hresolution, ⟨cells, folders, issued, rfl⟩, -, hi⟩ := resolution_links hm₁ hexists
    rw [hresolution]
    dsimp only
    obtain ⟨w, hrefer, hothers, hown⟩ :=
      refer_run { m₁ with cells, folders, issued } change.project change.resolved i
    rw [hrefer]
    refine ⟨hothers, fun _ old hold name ↦ ?_⟩
    rw [← hunwritten.linksOf, ← hi, ← hunwritten.workspace]
    rw [hold] at hown
    exact hown hexists name
  · rw [resolution_missing hexists]
    exact ⟨fun _ _ ↦ rfl, fun h ↦ absurd h hexists⟩

/-- What follows from a change keeps links. If anything changed, the references of the project follow its links;
otherwise they stay. -/
private theorem followUp_references (hm : m.Bare) (change : Change) (g : GeneratedDelta)
    (setsUpFolders : Bool) : m.Confined change.project ((followUp change g setsUpFolders).run m).2 ∧
      ((followUp change g setsUpFolders).run m).2.linksOf change.project = m.linksOf change.project ∧
      (¬ g.hasDelta → ((followUp change g setsUpFolders).run m).2.workspace = m.workspace) ∧
      (g.hasDelta → m.workspace.projectExists change.project → ∀ old, change.resolved = some old →
        m.Replaces ((followUp change g setsUpFolders).run m).2 change.project (links old.result.entries)
          (m.linksOf change.project)) := by
  have hfollow : m.Rereads ((followUp change g setsUpFolders).run m).2 :=
    moves_followUp (R := KeepsShapes) Looks.resolution change g setsUpFolders m hm
  have hannounce : m.Rereads ((announce change g).run m).2 :=
    moves_announce (R := KeepsShapes) Looks.resolution change g m hm
  have hconclude : (conclude change g setsUpFolders).Moves WritesNothing :=
    moves_conclude Looks.resolution change g setsUpFolders
  obtain ⟨hothers, hown⟩ := announce_references hm change g
  by_cases hdelta : g.hasDelta
  · have hrun : ((followUp change g setsUpFolders).run m).2 =
        ((conclude change g setsUpFolders).run ((announce change g).run m).2).2 := by
      rw [followUp, if_pos hdelta]
      rfl
    have hlast : ((followUp change g setsUpFolders).run m).2.workspace =
        ((announce change g).run m).2.workspace := by
      rw [hrun]
      exact (hconclude _ (hannounce.bare hm)).workspace
    refine ⟨hfollow.confined hm fun q hq ↦ ?_, hfollow.linksOf _, fun h ↦ absurd hdelta h,
      fun _ hexists old hold name ↦ ?_⟩
    · rw [hlast, hothers q hq]
    · rw [hlast]
      exact hown hexists old hold name
  · have hrun : ((followUp change g setsUpFolders).run m).2 =
        ((conclude change g setsUpFolders).run m).2 := by
      rw [followUp, if_neg hdelta]
      rfl
    have hlast : ((followUp change g setsUpFolders).run m).2.workspace = m.workspace := by
      rw [hrun]
      exact (hconclude m hm).workspace
    exact ⟨hfollow.confined hm fun q _ ↦ by rw [hlast], hfollow.linksOf _, fun _ ↦ hlast,
      fun h ↦ absurd h hdelta⟩

/-- Comparing raw buildpaths drops bindings of the project only, and none if no change is found. -/
private theorem compareRaws_references (hm : m.Bare) (change : Change) (es : List Entry) (g : GeneratedDelta)
    (hproject : g.project = change.project) :
    m.Confined change.project ((compareRaws change es g).run m).2 ∧
      ((compareRaws change es g).run m).2.workspace = m.workspace ∧
      (¬ ((compareRaws change es g).run m).1.hasDelta → ((compareRaws change es g).run m).2 = m) := by
  unfold compareRaws
  cases change.raw with
  | none => exact ⟨((.refl m : m.Rereads m)).confined hm fun _ _ ↦ rfl, rfl, fun _ ↦ rfl⟩
  | some old =>
    dsimp only
    have hcompared : ModelM.Moves (Model.Drops makeNothing g.project old es) (compareRaw old es g) :=
      drops_compareRaw old es g
    obtain ⟨registry, hstate, -, hothers⟩ := hcompared m
    rw [hproject] at hothers
    refine ⟨?_, by rw [hstate], fun hdelta ↦ ?_⟩
    · rw [hstate]
      refine ⟨⟨hm.initializers, hm.isIdle, hm.nesting⟩, rfl, fun _ ↦ rfl, fun _ _ ↦ id, fun q hq ↦ ?_,
        fun _ _ ↦ rfl⟩
      exact shapesOf_of_bindings hm (fun _ _ _ ↦ rfl) fun e _ _ ↦ by rw [hothers e.path q hq]
    · by_cases hsame : sameStructure old es
      · rw [compareRaw, if_pos hsame]
        rfl
      · exact absurd (hasDelta_compareRaw hsame g m) hdelta

/-- Comparing concerns the project only. If nothing changed, it has the links that it had. -/
private theorem generateDelta_references (hm : m.Bare) (change : Change) :
    m.Confined change.project ((generateDelta change).run m).2 ∧
      ((generateDelta change).run m).2.workspace = m.workspace ∧
      (m.workspace.projectExists change.project → ∀ old, change.resolved = some old →
        ¬ ((generateDelta change).run m).1.1.hasDelta →
          ((generateDelta change).run m).2.linksOf change.project = links old.result.entries) := by
  by_cases hexists : m.workspace.projectExists change.project
  · obtain ⟨i, m₁, hrun, ⟨cells, folders, issued, hremembers⟩, hrereads, hlinks⟩ :=
      resolution_links hm hexists
    have hresolved : m.Unwritten m₁ := ⟨hrereads, by rw [hremembers]⟩
    have htouched : m.Unwritten (m₁.setCell change.project (m₁.cell change.project)) :=
      hresolved.trans ((Ground.touched m₁ change.project : WritesNothing _ _) (hresolved.bare hm))
    have hspec := fun old ↦ @generateDelta_spec m m₁ change old i hrun
    rw [generateDelta_run hrun] at hspec ⊢
    generalize m₁.setCell change.project (m₁.cell change.project) = m₂ at htouched hspec ⊢
    have hm₂ := htouched.bare hm
    obtain ⟨hraws, hworkspace, hunchanged⟩ := compareRaws_references hm₂ change
      (m₁.cell change.project).rawEntries { project := change.project
                                            delta := { project := change.project }
                                            old := change.resolved, new := some i } rfl
    rw [StateT.run_bind] at hspec ⊢
    generalize (compareRaws change (m₁.cell change.project).rawEntries _).run m₂ = compared
      at hraws hworkspace hunchanged hspec ⊢
    obtain ⟨g, m₃⟩ := compared
    have houtcomes : (compareOutcomes change i g).Moves WritesNothing := moves_compareOutcomes change i g
    have hcompared := houtcomes m₃ hraws.bare
    have hextends := extends_compareOutcomes change i g m₃
    refine ⟨(htouched.confined hm).trans (hraws.trans (hcompared.confined hraws.bare)),
      hcompared.workspace.trans (hworkspace.trans htouched.workspace), fun _ old hold hdelta ↦ ?_⟩
    have hsame := (hspec old hold).2.2 hdelta
    have hraw : m₃ = m₂ := hunchanged fun h ↦ hdelta (hextends.hasDelta h)
    have hkept : ((compareOutcomes change i g).run m₃).2.linksOf change.project =
        m.linksOf change.project := by
      rw [hcompared.linksOf, hraw, htouched.linksOf]
    exact hkept.trans (hlinks.symm.trans (links_of_shapes (shapes_of_sameStructure hsame)).symm)
  · rw [generateDelta_missing hexists]
    exact ⟨((.refl m : m.Rereads m)).confined hm fun _ _ ↦ rfl, rfl, fun h ↦ absurd h hexists⟩

/-- Applying a change makes the references of its project follow its links. Other projects keep theirs. -/
theorem applyChange_exchanges (hm : m.Bare) (change : Change) (setsUpFolders : Bool) :
    m.Confined change.project ((applyChange change setsUpFolders).run m).2 ∧
      (m.workspace.projectExists change.project → ∀ old, change.resolved = some old →
        m.Exchanges ((applyChange change setsUpFolders).run m).2 change.project
          (links old.result.entries)) := by
  obtain ⟨hgenerated, hworkspace, hunchanged⟩ := generateDelta_references hm change
  rw [applyChange_leaves]
  obtain ⟨hconfined, hlinks, hquiet, htold⟩ := followUp_references hgenerated.bare change
    ((generateDelta change).run m).1.1 setsUpFolders
  refine ⟨hgenerated.trans hconfined, fun hexists old hold ↦ ?_⟩
  by_cases hdelta : ((generateDelta change).run m).1.1.hasDelta
  · refine .inl fun name ↦ ?_
    rw [htold hdelta (hworkspace ▸ hexists) old hold name, hlinks, hworkspace]
  · refine .inr ⟨hlinks.trans (hunchanged hexists old hold hdelta), ?_⟩
    rw [hquiet hdelta, hworkspace]

end ModelM

end Buildpath
