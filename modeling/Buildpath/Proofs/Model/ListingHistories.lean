import Buildpath.Proofs.Model.Listings
import Buildpath.Proofs.Model.References

/-!
# Children along operations

The children that are kept for a project are right for what it is resolved to (`Model.Coherent`) after containers
are bound, variables set and raw buildpaths replaced. Whenever the shapes of the project change, a change comes of
it that has the result of before, and closes its fragments (`closed_applyChange`). Only the bindings that are
dropped when a raw buildpath is replaced may change them afterwards (`Model.LosesNothing`).
-/

namespace Buildpath

variable {m m' m'' m₀ : Model} {p project : String} {ls before : List Entry} {change : Change}

namespace Model

/-- Whether no children are kept for a project. -/
def Closed (m : Model) (project : String) : Prop := ∀ path, m.children.find? (project, path) = none

theorem Closed.of_less (h : m.Closed project) (hless : m.ListsLess project m') : m'.Closed project := by
  intro path
  cases hkept : m'.children.find? (project, path) with
  | none => rfl
  | some paths => exact (hless path paths hkept).symm.trans (h path)

end Model

namespace ModelM

open Model

/-! ### Changes -/

/-- Applying a change keeps no children for a project, and backs its fragments. -/
private theorem keepsBacked_applyChange (change : Change) (setsUpFolders : Bool) :
    (applyChange change setsUpFolders).Moves (KeepsBacked project) :=
  moves_applyChange keepsBacked_resolution
    (fun m _ _ ↦ keepsBacked_bindings m _ m.variableValues) change setsUpFolders

/-- Entries that differ from those before close the fragments of a project. -/
private theorem closed_compareOutcomes (hm : m.Inert) {old i : Issued} (hold : change.resolved = some old)
    (hdiffer : ¬ sameStructure old.result.entries i.result.entries) (g : GeneratedDelta) :
    ((compareOutcomes change i g).run m).2.Closed change.project := by
  let closed : Model :=
    { m with children := m.children.filterKeys fun key ↦ key.1 ≠ change.project }
  let rest : ModelM GeneratedDelta := do
    modify Model.clearRoots
    compareResolved (change.fragments.getD []) old.result.entries i.result.entries
      (g.addFlags { resolvedChanged := true })
  have hrun : ((compareOutcomes change i g).run m).2 = (rest.run closed).2 := by
    rw [compareOutcomes_differ hold hdiffer]
    rfl
  have hrest : rest.Moves (KeepsBacked change.project) :=
    .bind (.modify fun m ↦ Ground.clearRoots m) fun _ ↦ moves_compareResolved _ _ _ _
  have hclosed : closed.Closed change.project := fun path ↦ by
    rw [Table.find?_filterKeys, if_neg (by simp)]
  rw [hrun]
  exact hclosed.of_less (hrest closed (hm.of_same rfl rfl rfl rfl)).children

/-- A change finds a project with the shapes that it had before, or closes its fragments. -/
private theorem closed_applyChange (hm : m.Inert) (hexists : m.workspace.projectExists change.project)
    {old : Issued} (hold : change.resolved = some old) (setsUpFolders : Bool) :
    shapes old.result.entries = m.shapesOf change.project ∨
      ((applyChange change setsUpFolders).run m).2.Closed change.project := by
  obtain ⟨i, m₁, hrun, -, -, -, hshapes⟩ := resolution_shapes hm.toBare hexists
  by_cases hsame : sameStructure old.result.entries i.result.entries
  · exact .inl ((shapes_of_sameStructure hsame).trans hshapes)
  · right
    let begun : GeneratedDelta :=
      { project := change.project, delta := { project := change.project }
        old := change.resolved, new := some i }
    let m₂ := m₁.setCell change.project (m₁.cell change.project)
    let compared := (compareRaws change (m₁.cell change.project).rawEntries begun).run m₂
    have hcompared : KeepsBacked change.project m compared.2 := by
      have hresolved : KeepsBacked change.project m ((resolution change.project).runOn m).2 :=
        keepsBacked_resolution change.project m
      rw [hrun] at hresolved
      exact Chained.trans hresolved (Chained.trans (Ground.touched m₁ change.project)
        (moves_compareRaws (fun m _ _ ↦ keepsBacked_bindings m _ m.variableValues) _ _ _ m₂))
    have hclosed := closed_compareOutcomes (hcompared hm).inert hold hsame compared.1
    have hinert := (moves_compareOutcomes (R := KeepsBacked change.project) change i compared.1 compared.2
      (hcompared hm).inert).inert
    have hgenerated : ((applyChange change setsUpFolders).run m).2 =
        ((followUp change ((compareOutcomes change i compared.1).run compared.2).1 setsUpFolders).run
          ((compareOutcomes change i compared.1).run compared.2).2).2 := by
      rw [applyChange_eq, StateT.run_bind, generateDelta_run hrun]
      rfl
    rw [hgenerated]
    exact hclosed.of_less (moves_followUp (R := KeepsBacked change.project) keepsBacked_resolution change _
      setsUpFolders _ hinert).children

/-- A change of a project leaves children that are right for what it is resolved to when it is applied, if they
were right for that or for what it was resolved to before. -/
private theorem serves_applyChange (h : m.Serves project ls) (hproject : change.project = project)
    {old : Issued} (hold : change.resolved = some old)
    (hls : ls = shapes old.result.entries ∨ ls = m.shapesOf project) (setsUpFolders : Bool) :
    ((applyChange change setsUpFolders).run m).2.Serves project (m.shapesOf project) := by
  subst hproject
  have hknown := (applyChange_exchanges h.inert.toBare change setsUpFolders).1.known change.project
  have hserves := h.of_backs (keepsBacked_applyChange change setsUpFolders m h.inert) (isSome_raw hknown)
  rcases closed_applyChange h.inert h.isThere hold setsUpFolders with hsame | hclosed
  · have hls' : ls = m.shapesOf change.project := hls.elim (·.trans hsame) id
    exact hls' ▸ hserves
  · exact ⟨hserves.inert, hserves.listed, hserves.isThere, hserves.backed, hserves.known,
      fun path paths hkept ↦ absurd ((hclosed path).symm.trans hkept) (by simp)⟩

/-- A change of another project leaves the shapes of a project, and children that are right. -/
private theorem serves_applyChange_other (h : m.Serves project ls) (hother : change.project ≠ project)
    (setsUpFolders : Bool) : ((applyChange change setsUpFolders).run m).2.Serves project ls ∧
      ((applyChange change setsUpFolders).run m).2.shapesOf project = m.shapesOf project := by
  obtain ⟨hconfined, -⟩ := applyChange_exchanges h.inert.toBare change setsUpFolders
  exact ⟨h.of_backs (keepsBacked_applyChange change setsUpFolders m h.inert)
    (isSome_raw (hconfined.known project)), hconfined.shapesOf project hother⟩

/-! ### Projects that are resolved anew -/

/-- A project whose result is forgotten keeps children that are right. -/
private theorem serves_forgotten (h : m.Serves project ls) {other : String} {cells : Table String Cell}
    (hcell : ∀ q, ({ m with cells } : Model).cell q =
      if other = q then (m.cell other).invalidate else m.cell q) :
    ({ m with cells } : Model).Serves project ls := by
  have hown := hcell project
  refine h.of_backs (.of_less (h.inert.of_same rfl rfl rfl rfl) rfl (fun _ _ ↦ id)
    ⟨fun i hi ↦ ?_, fun fs hfs ↦ ?_⟩) fun hknown ↦ ?_
  all_goals split at hown
  · rw [hown] at hi
    cases hi
  · exact hown ▸ hi
  · rw [hown] at hfs
    cases hfs
  · exact hown ▸ hfs
  · next hq => rw [hown, hq]; exact hknown
  · exact hown ▸ hknown

/-- A project that is resolved anew has children that are right for what it is resolved to then. -/
private theorem serves_renew (h : m.Serves project ls) {item : String × Option Issued}
    (hitem : item.1 = project) {old : Issued} (hold : item.2 = some old)
    (hls : ls = shapes old.result.entries ∨ ls = m.shapesAnew project) :
    ((renew item).run m).2.Serves project (m.shapesAnew project) ∧
      ((renew item).run m).2.shapesOf project = m.shapesAnew project := by
  subst hitem
  obtain ⟨-, hupholds, hrenewed⟩ := renew_upholds h.inert.toBare item
  obtain ⟨cells, change, hrun, hproject, hresolved, -, hcell⟩ := renew_run m item
  have hanew := (shapesOf_forgotten h.inert.toBare hcell).2 h.isThere
  refine ⟨?_, shapesOf_renewed h.inert.toBare hupholds h.isThere hrenewed⟩
  rw [hrun, ← hanew]
  exact serves_applyChange (serves_forgotten h hcell) hproject (hresolved.trans hold) (hanew ▸ hls) false

/-- Resolving another project anew leaves the shapes of a project, and children that are right. -/
private theorem serves_renew_other (h : m.Serves project ls) {item : String × Option Issued}
    (hitem : item.1 ≠ project) : ((renew item).run m).2.Serves project ls ∧
      ((renew item).run m).2.shapesOf project = m.shapesOf project := by
  obtain ⟨cells, change, hrun, hproject, -, -, hcell⟩ := renew_run m item
  have hothers := (shapesOf_forgotten h.inert.toBare hcell).1 project hitem
  obtain ⟨hserves, hshapes⟩ :=
    serves_applyChange_other (serves_forgotten h hcell) (hproject ▸ hitem) false
  rw [hrun]
  exact ⟨hserves, hshapes.trans hothers⟩

/-- Children are right after projects were resolved anew, given the shapes that they had. -/
private theorem coherent_refresh (h : m.Serves project before) {projects : List (String × Option Issued)}
    (htold : ∀ item ∈ projects, item.1 = project →
      ∃ i, item.2 = some i ∧ shapes i.result.entries = before)
    (hshapes : project ∉ projects.map Prod.fst → m.shapesOf project = before) :
    ((refresh projects).run m).2.Coherent project := by
  -- children are right for the shapes that a project had until it is resolved anew
  suffices hall : ∀ ls, m.Serves project ls → ls = before ∨ ls = m.shapesAnew project →
      (project ∉ projects.map Prod.fst → m.shapesOf project = ls) →
        ((projects.mapM renew).run m).2.Coherent project from
    (hall before h (.inl rfl) hshapes).of_listings (Ground.clearRoots _)
  clear h hshapes
  intro ls h hls hshapes
  induction projects generalizing m ls with
  | nil =>
    obtain rfl := hshapes List.not_mem_nil
    exact h
  | cons item projects ih =>
    rw [mapM_renew_cons]
    have halike := (renew_upholds h.inert.toBare item).2.1.toResembles
    have hanew := halike.shapesAnew_eq h.inert.toBare project
    have hrest := fun other hmem ↦ htold other (List.mem_cons_of_mem item hmem)
    by_cases hitem : item.1 = project
    · obtain ⟨i, hi, rfl⟩ := htold item List.mem_cons_self hitem
      obtain ⟨hserves, hshapes'⟩ := serves_renew h hitem hi hls
      exact ih hrest _ hserves (.inr hanew.symm) fun _ ↦ hshapes'
    · obtain ⟨hserves, hshapes'⟩ := serves_renew_other h hitem
      refine ih hrest ls hserves (hanew ▸ hls) fun hout ↦ hshapes'.trans (hshapes fun hin ↦ ?_)
      exact (List.mem_cons.mp hin).elim (fun heq ↦ hitem heq.symm) hout

/-! ### Bindings -/

/-- After bindings were changed, children are right once the projects were resolved anew that the change
matters to. -/
private theorem coherent_rebound {registry : Registry} {variableValues : Variables}
    (h : m.Coherent project) (hsteps : KeepsListings project m m')
    {projects : List (String × Option Issued)}
    (hrecalls : ∀ item ∈ projects, Recalls (KeepsListings project) m item)
    (hothers : project ∉ projects.map Prod.fst →
      ({ m' with registry, variableValues } : Model).shapesOf project = m.shapesOf project)
    {deltas : List GeneratedDelta}
    (hrenewed : Renewed projects { m' with registry, variableValues } deltas m'') (held : HeldRules) :
    ({ m'' with held } : Model).Coherent project := by
  have hserves : ({ m' with registry, variableValues } : Model).Serves project (m.shapesOf project) := by
    have hrereads := hsteps.1 h.inert.toBare
    have h' := (h.of_listings hsteps).of_backs (keepsBacked_bindings m' registry variableValues
      (hsteps.2 h.inert).inert) id
    rwa [hrereads.shapesOf] at h'
  suffices hm'' : m''.Coherent project from hm''.of_listings (Looks.holds m'' held)
  rcases hrenewed with ⟨rfl, rfl, rfl⟩ | hrun
  · rw [Coherent, hothers List.not_mem_nil]
    exact hserves
  · obtain ⟨rfl, rfl⟩ := Prod.mk.inj hrun
    refine coherent_refresh hserves (fun item hmem hitem ↦ ?_) hothers
    subst hitem
    refine shapes_of_recalls ((hrecalls item hmem).mono fun h ↦ h.1) h.inert.toBare h.isThere

/-- Binding containers keeps children right. -/
theorem coherent_setContainer (h : m.Coherent project) (path : Path)
    (containers : List (String × Option Container)) :
    ((setContainer path containers).runOn m).2.Coherent project := by
  obtain ⟨projects, m₁, hsteps, hprojects, hrecalls, deltas, m₃, held, hrun, hrenewed⟩ :=
    setContainer_run (R := KeepsListings project) h.inert path containers
  rw [hrun]
  refine coherent_rebound h hsteps hrecalls (fun hout ↦ ?_) hrenewed held
  exact shapesOf_put h.inert.toBare (hsteps.1 h.inert.toBare) (isScript_of_mem_scriptProjects h.listed)
    (hprojects ▸ hout)

/-- Setting variables keeps children right. -/
theorem coherent_setVariables (h : m.Coherent project) (values : List (String × Option Path)) :
    ((setVariables values).runOn m).2.Coherent project := by
  by_cases hunchanged : m.variableValues.changedBy values = []
  · rw [setVariables_unchanged hunchanged]
    exact h
  · obtain ⟨projects, m₁, hsteps, hprojects, hrecalls, deltas, m₃, held, hrun, hrenewed⟩ :=
      setVariables_run (R := KeepsListings project) h.inert hunchanged
    rw [hrun]
    refine coherent_rebound h hsteps hrecalls (fun hout ↦ ?_) hrenewed held
    obtain ⟨hname, hscript⟩ := List.mem_filter.mp h.listed
    refine shapesOf_assign h.inert.toBare (hsteps.1 h.inert.toBare) hscript fun hmentions ↦ hout ?_
    rw [hprojects]
    exact List.mem_filter.mpr ⟨hname, hmentions⟩

end ModelM

/-! ### Raw buildpaths -/

namespace Model

/-- Whether a raw buildpath may replace that of a project: each of its entries has a binding, or the containers
whose bindings are dropped with the old one are made again as they are bound. -/
def LosesNothing (m : Model) (project : String) (es : List Entry) : Prop :=
  (m.outcome makeNothing project es none).isOk ∨ m.Remakes makeNothing project es

theorem LosesNothing.of_resembles {es : List Entry} (h : m.LosesNothing p es) (halike : m.Resembles m') :
    m'.LosesNothing p es := by
  refine h.imp (fun hbound ↦ ?_) fun hremakes e he hkind old hold ↦ ?_
  · rw [halike.outcome_eq]
    exact hbound
  · rw [halike.registry]
    rw [halike.raw] at hold
    exact hremakes e he hkind old hold

end Model

namespace ModelM

open Model

/-- Replacing a raw buildpath keeps children right. -/
theorem coherent_replaceRaw (h : m.Coherent project) (p : String) (es : List Entry) (saves : Bool)
    (hloses : p = project → m.LosesNothing p es) :
    ((replaceRaw p es saves).run m).2.Coherent project ∧
      ((replaceRaw p es saves).run m).2.workspace.files = m.workspace.files := by
  obtain ⟨m₁, cells, change, hinspect, hrun, rfl, hraw, hresolved, -, hown, hothers⟩ :=
    replaceRaw_run m p es saves
  have hsteps : KeepsListings project m m₁ := hinspect ▸ keepsListings_inspect change.project m
  have hrereads : m.Rereads m₁ := hsteps.1 h.inert.toBare
  have h₁ := h.of_listings hsteps
  obtain ⟨hkept, -⟩ := shapesOf_replaced h₁.inert.toBare hown hothers
  have hinert : ({ m₁ with cells } : Model).Inert := h₁.inert.of_same rfl rfl rfl rfl
  have hfiles : ((applyChange change saves).run { m₁ with cells }).2.workspace.files =
      m.workspace.files :=
    (applyChange_exchanges hinert.toBare change saves).1.files.trans hrereads.files
  rw [hrun]
  refine ⟨?_, hfiles⟩
  by_cases hp : change.project = project
  · subst hp
    -- its own result and fragments are gone, but its children are still those of before
    have hserves : ({ m₁ with cells } : Model).Serves change.project (m₁.shapesOf change.project) :=
      h₁.of_backs ⟨hinert, rfl, fun _ _ ↦ id, fun _ i hi ↦ by rw [hown] at hi; cases hi⟩
        fun _ ↦ by rw [hown]; rfl
    obtain ⟨old, hold, hshapes⟩ := hinspect ▸ (spares_inspect h.inert.toBare change.project).2 h.isThere
    have hkeeps := keepsBindings_replaceRaw h.inert.toBare hrereads hraw hown (hloses rfl)
    have hafter := sameLinks_applyChange hinert.toBare hkeeps saves
    rw [Coherent, hafter.shapesOf]
    exact serves_applyChange hserves rfl (hresolved.trans (issued?_of_loaded hold)) (.inl hshapes.symm) saves
  · have hcell := hothers project hp
    have hserves : ({ m₁ with cells } : Model).Serves project (m₁.shapesOf project) :=
      h₁.of_backs (.of_less hinert rfl (fun _ _ ↦ id) (.of_cell
        ((congrArg Cell.issued? hcell).trans rfl) ((congrArg Cell.fragments hcell).trans rfl))) fun hknown ↦ by
          rw [hcell]; exact hknown
    obtain ⟨hserves', hshapes⟩ := serves_applyChange_other hserves hp saves
    rw [Coherent, hshapes, (hkept project hp).2]
    exact hserves'

end ModelM

end Buildpath
