import Buildpath.Proofs.Indexing
import Buildpath.Proofs.Model.Assigning
import Buildpath.Proofs.Model.Completing
import Buildpath.Proofs.Model.Histories

/-!
# Indexes of shared libraries

The index of a library is removed when a project loses the library and no other project is known to have
it. What other projects have is read off the results that are kept: while a project keeps a result that
counts, no index of its libraries is removed, whatever happens to other projects
(`kept_libraries_stay_indexed`). A project that was not resolved yet is not asked, so that its libraries
lose their indexes (`unresolved_project_loses_index`).
-/

namespace Buildpath

variable {project : String} {i : Issued} {m m' : Model} {path : Path}

/-! ### Requests -/

/-- Whether there is a library at a path. -/
def Resolved.HasLibrary (r : Resolved) (path : Path) : Prop :=
  ∃ e ∈ r.entries, e.kind = .library ∧ e.path = path

namespace Indexer

/-- Whether an indexer received more requests, and none of them removes an index that is to be kept. -/
def Spares (kept : Path → Prop) (i i' : Indexer) : Prop :=
  ∃ received, i'.requests = i.requests ++ received ∧ ∀ path, kept path → .removeIndex path ∉ received

variable {kept : Path → Prop} {i i' i'' : Indexer}

theorem Spares.refl (i : Indexer) : i.Spares kept i := ⟨[], (List.append_nil _).symm, fun _ _ ↦ nofun⟩

theorem Spares.trans (h : i.Spares kept i') (h' : i'.Spares kept i'') : i.Spares kept i'' := by
  obtain ⟨received, hreceived, hspares⟩ := h
  obtain ⟨received', hreceived', hspares'⟩ := h'
  refine ⟨received ++ received', by rw [hreceived', hreceived, List.append_assoc],
    fun path hpath hmem ↦ ?_⟩
  exact (List.mem_append.mp hmem).elim (hspares path hpath) (hspares' path hpath)

theorem requests_handle (i : Indexer) (r : IndexRequest) : (i.handle r).requests = i.requests ++ [r] := by
  cases r with
  | indexFragment | indexLibrary =>
    unfold handle
    dsimp only
    split <;> rfl
  | removeSourceFolder | removeIndex | discardJobs => rfl

/-- An indexer remembers the requests that it handles. -/
theorem requests_foldl (i : Indexer) (requests : List IndexRequest) :
    (requests.foldl handle i).requests = i.requests ++ requests := by
  induction requests generalizing i with
  | nil => exact (List.append_nil _).symm
  | cons r requests ih => rw [List.foldl_cons, ih, requests_handle, List.append_assoc, List.singleton_append]

end Indexer

namespace Model

/-- Whether a project keeps a result that counts: it was resolved for the raw buildpath that it has, and no
entry was unbound. -/
structure Knows (m : Model) (project : String) (i : Issued) : Prop where
  raw : (m.cell project).raw ≠ none
  issued : (m.cell project).issued? = some i
  isOk : i.result.isOk

end Model

namespace ModelM

open Model

/-- A library is shared if another project keeps a result with it. -/
theorem isLibraryShared_of_knows {other : String} (h : m.Knows project i) (hne : other ≠ project)
    (hlibrary : i.result.HasLibrary path) : isLibraryShared m path other := by
  obtain ⟨e, he, hkind, hpath⟩ := hlibrary
  have hissued := h.issued
  rw [Model.cell] at hissued
  cases hfind : m.cells.find? project with
  | none =>
    rw [hfind] at hissued
    cases hissued
  | some c =>
    rw [hfind, Option.getD_some] at hissued
    have hshared : (i.result.entries.any fun e ↦ e.kind = .library && e.path = path) = true :=
      List.any_eq_true.mpr ⟨e, he, by simp [hkind, hpath]⟩
    refine List.any_eq_true.mpr ⟨(project, c), Table.mem_of_find? hfind, ?_⟩
    simp [hne.symm, hissued, hshared]

/-- The requests for a change of a project remove no index of a library that another project is known to
have. -/
theorem removeIndex_notMem {g : GeneratedDelta} (h : m.Knows project i) (hne : g.project ≠ project)
    (hlibrary : i.result.HasLibrary path) : .removeIndex path ∉ indexRequests m g := by
  have hold : ∀ o : Entry, .removeIndex path ∉ requestsForOld m g.project o := by
    intro o hmem
    unfold requestsForOld at hmem
    cases hkind : o.kind with
    | library =>
      rw [hkind] at hmem
      dsimp only at hmem
      split at hmem
      · cases hmem
      · next hunshared =>
        obtain rfl : path = o.path := by simpa using hmem
        exact hunshared (isLibraryShared_of_knows h hne hlibrary)
    | source | project | variableRef | container => simp [hkind] at hmem
  have hnew : ∀ (old : List Entry) (n : Entry), .removeIndex path ∉ requestsForNew g.project old n := by
    intro old n hmem
    unfold requestsForNew at hmem
    cases hkind : n.kind with
    | library =>
      rw [hkind] at hmem
      dsimp only at hmem
      split at hmem <;> simp at hmem
    | source | project | variableRef | container => simp [hkind] at hmem
  unfold indexRequests
  cases g.new with
  | none => exact List.not_mem_nil
  | some new =>
    rw [List.mem_append, List.mem_flatMap, List.mem_flatMap]
    rintro (⟨o, -, hmem⟩ | ⟨n, -, hmem⟩)
    · exact hold o hmem
    · exact hnew _ n hmem

end ModelM

/-! ### Results that are kept -/

namespace Model

/-- Whether the result of a project was kept, and no index of its libraries removed. -/
structure Guarded (project : String) (i : Issued) (m m' : Model) : Prop where
  knows : m'.Knows project i
  raw : (m'.cell project).raw = (m.cell project).raw
  indexer : m.indexer.Spares i.result.HasLibrary m'.indexer

/-- Steps that keep the result of a project, if it has one, and remove no index of its libraries. -/
def Guards (project : String) (i : Issued) (m m' : Model) : Prop :=
  m.Knows project i → m.Guarded project i m'

/-- Steps that the indexer hears nothing of. -/
theorem Guards.of_cell (hindexer : m'.indexer = m.indexer)
    (hcell : m.Knows project i → (m'.cell project).raw = (m.cell project).raw ∧
      (m'.cell project).issued? = (m.cell project).issued?) : m.Guards project i m' := by
  intro h
  obtain ⟨hraw, hissued⟩ := hcell h
  exact ⟨⟨hraw ▸ h.raw, hissued ▸ h.issued, h.isOk⟩, hraw, hindexer ▸ .refl _⟩

/-- Changing the cell of some project. -/
theorem Guards.setCell {other : String} {c : Cell} (h : other = project → m.Knows project i →
      c.raw = (m.cell project).raw ∧ c.issued? = (m.cell project).issued?) :
    m.Guards project i (m.setCell other c) := by
  refine .of_cell rfl fun hm ↦ ?_
  rw [cell_setCell]
  split
  · next heq => exact h heq hm
  · exact ⟨rfl, rfl⟩

/-- A project keeps its raw buildpath with its result. -/
theorem Guarded.raw_eq (h : m.Guarded project i m') (hm : m.Knows project i) :
    m'.raw project = m.raw project := by
  obtain ⟨raw, hraw⟩ := Option.ne_none_iff_exists'.mp hm.raw
  rw [Model.raw, Model.raw, h.raw, hraw, Option.getD_some, Option.getD_some]

instance : TameFrame (fun other _ ↦ other ≠ project) (Guards project i) where
  refl _ := .of_cell rfl fun _ ↦ ⟨rfl, rfl⟩
  trans h h' hm := by
    have hfirst := h hm
    have hsecond := h' hfirst.knows
    exact ⟨hsecond.knows, hsecond.raw.trans hfirst.raw, hfirst.indexer.trans hsecond.indexer⟩
  volatile _ _ _ _ _ := .of_cell rfl fun _ ↦ ⟨rfl, rfl⟩
  touched m other := .setCell fun heq _ ↦ heq ▸ ⟨rfl, rfl⟩
  clearRoots m := .of_cell rfl fun _ ↦ by rw [cell_clearRoots]; exact ⟨rfl, rfl⟩
  noted _ _ := .of_cell rfl fun _ ↦ ⟨rfl, rfl⟩
  registry _ _ := .of_cell rfl fun _ ↦ ⟨rfl, rfl⟩
  issued _ := .of_cell rfl fun _ ↦ ⟨rfl, rfl⟩
  fragments m other _ := .setCell fun heq _ ↦ heq ▸ ⟨rfl, rfl⟩
  loads m other hnone := .setCell fun heq hm ↦ absurd (heq ▸ hnone) hm.raw
  begins m other generation _ _ hstale := .setCell fun heq hm ↦
    absurd hm.isOk (hstale i (heq ▸ hm.issued))
  completes {m m' other raw r} _ _ hnone _ h hm := by
    have hother : other ≠ project := by
      rintro rfl
      rw [hm.issued] at hnone
      cases hnone
    have hinner := h ⟨hm.raw, hm.issued, hm.isOk⟩
    have hcell : (m'.completed other (m.cell other).generation r).cell project = m'.cell project := by
      rw [cell_completed, if_neg hother]
    refine ⟨⟨?_, ?_, hm.isOk⟩, ?_, hinner.indexer⟩
    · rw [hcell]
      exact hinner.knows.raw
    · rw [hcell]
      exact hinner.knows.issued
    · rw [hcell]
      exact hinner.raw
  replaces _ _ _ hne := .setCell fun heq _ ↦ absurd heq hne

end Model

namespace ModelM

open Model

/-- Steps that keep the result of a project and the indexes of its libraries, where no initializer replaces
its raw buildpath. -/
abbrev Tended (project : String) (i : Issued) : Model → Model → Prop :=
  Tamely (fun other _ ↦ other ≠ project) (Guards project i)

/-- A project that keeps a result that counts is resolved to it. -/
theorem resolution_of_knows (h : m.Knows project i) (hexists : m.workspace.projectExists project) :
    ∃ m', (resolution project).runOn m = (.ok i, m') := by
  obtain ⟨raw, hraw⟩ := Option.ne_none_iff_exists'.mp h.raw
  obtain ⟨cells, hrun, -⟩ := resolutionBy_runOn findContainer hexists
  rw [loaded_of_raw hraw] at hrun
  have hbegin : ((m.cell project).begin (project ∈ m.resolving)).1 = .cached i := by
    rw [Cell.begin, h.issued]
    exact congrArg Prod.fst (if_pos h.isOk)
  rw [hbegin] at hrun
  exact ⟨_, hrun⟩

/-- A project that was resolved keeps the result if that counts. -/
theorem knows_of_resolution (htame : m.Tame fun other _ ↦ other ≠ project) (hidle : project ∉ m.resolving)
    (h : (resolution project).runOn m = (.ok i, m')) (hok : i.result.isOk) : m'.Knows project i := by
  obtain ⟨hissued, hraw, -⟩ := issued?_of_resolution_tame htame hidle h
  exact ⟨hraw ▸ Option.some_ne_none _, hissued, hok⟩

/-! ### Changes of other projects -/

private theorem guards_requestIndexing {g : GeneratedDelta} (hne : g.project ≠ project) :
    (requestIndexing g).Moves (Tended project i) :=
  .modify fun m ↦ .of_initializers (fun h ↦ ⟨⟨h.raw, h.issued, h.isOk⟩, rfl, indexRequests m g,
    Indexer.requests_foldl _ _, fun _ hlibrary ↦ removeIndex_notMem h hne hlibrary⟩) rfl

private theorem guards_workspace (m : Model) (w : Workspace) :
    Tended project i m { m with workspace := w } :=
  .of_initializers (.of_cell rfl fun _ ↦ ⟨rfl, rfl⟩) rfl

private theorem guards_log (m : Model) (log : List Event) : Tended project i m { m with log } :=
  .of_initializers (.of_cell rfl fun _ ↦ ⟨rfl, rfl⟩) rfl

private theorem guards_registry (m : Model) (registry : Registry) :
    Tended project i m { m with registry } :=
  .of_initializers (TameFrame.registry m registry) rfl

private theorem guards_held (m : Model) (held : HeldRules) : Tended project i m { m with held } :=
  Backdrop.volatile m held m.markers m.folders m.children

/-- What follows from a change of another project. -/
private theorem guards_followUp (change : Change) {g : GeneratedDelta} (hne : g.project ≠ project)
    (setsUpFolders : Bool) : (followUp change g setsUpFolders).Moves (Tended project i) :=
  moves_followUpBy
    (moves_announceBy moves_resolution_tame guards_log (guards_requestIndexing hne)
      (fun m w _ _ _ ↦ guards_workspace m w) change)
    (moves_conclude moves_resolution_tame change g setsUpFolders)

/-- Applying a change of another project. -/
theorem guards_applyChange {change : Change} (hne : change.project ≠ project)
    (setsUpFolders : Bool) : (applyChange change setsUpFolders).Moves (Tended project i) := by
  intro m
  have hgenerate : (generateDelta change).Moves (Tended project i) :=
    moves_generateDelta moves_resolution_tame (fun m _ _ ↦ guards_registry m _) change
  have hfollow : (followUp change ((generateDelta change).run m).1.1 setsUpFolders).Moves
      (Tended project i) :=
    guards_followUp change (by rwa [project_generateDelta]) setsUpFolders
  rw [applyChange_eq]
  exact Chained.trans (hgenerate m) (hfollow _)

/-- Replacing the raw buildpath of another project. -/
theorem guards_replaceRaw {other : String} (hne : other ≠ project) (entries : List Entry)
    (saves : Bool) : (replaceRaw other entries saves).Moves (Tended project i) := by
  intro m
  have hinspect : (inspect other).Moves (Tended project i) := moves_inspect_tame other
  let inspected := (inspect other).run m
  have hreplace : (replaceEntries other entries inspected.1).Moves (Tended project i) :=
    moves_replaceEntries_tame hne _
  let replaced := (replaceEntries other entries inspected.1).run inspected.2
  have happly : (applyChange replaced.1 saves).Moves (Tended project i) := guards_applyChange hne saves
  exact Chained.trans (hinspect m) (Chained.trans (hreplace inspected.2) (happly replaced.2))

/-- Resolving another project anew. -/
theorem guards_renew {item : String × Option Issued} (hne : item.1 ≠ project) :
    (renew item).Moves (Tended project i) := by
  intro m
  obtain ⟨cells, change, hrun, hproject, -, -, hcell⟩ := renew_run m item
  have hforget : Tended project i m { m with cells } :=
    .of_initializers (.of_cell rfl fun _ ↦ by rw [hcell, if_neg hne]; exact ⟨rfl, rfl⟩) rfl
  rw [hrun]
  exact Chained.trans hforget (guards_applyChange (hproject ▸ hne) false _)

/-- Resolving other projects anew. -/
theorem guards_refresh {projects : List (String × Option Issued)}
    (hne : ∀ item ∈ projects, item.1 ≠ project) : (refresh projects).Moves (Tended project i) := by
  have hall : (projects.mapM renew).Moves (Tended project i) :=
    .mapM fun item hitem ↦ guards_renew (hne item hitem)
  exact .bind hall fun _ ↦ .bind (.modify fun m ↦ Ground.clearRoots m) fun _ ↦ .pure _

/-! ### Operations on other projects -/

section Choosing

variable {chosen chosen' : List (String × Option Container) × List (String × Option Issued)}
  {item : String × Option Container} {containers : List (String × Option Container)}

private theorem guards_choose (path : Path)
    (chosen : List (String × Option Container) × List (String × Option Issued))
    (item : String × Option Container) : Action.Moves (Tended project i) (choose path chosen item) := by
  refine .bind (.lift (moves_rebinding_tame path item.1 item.2)) fun answer ↦ ?_
  cases answer with
  | none => exact .pure _
  | some isMentioned =>
    cases isMentioned with
    | true => exact .bind (moves_attempt (moves_resolution_tame item.1)) fun _ ↦ .pure _
    | false => exact .pure _

/-- A project that does not mention a container is not among those that are resolved anew. -/
private theorem choose_others (hmentions : item.1 = project → ¬ m.mentions (·.isContainerAt path) project)
    (hchosen : ∀ p ∈ chosen.2, p.1 ≠ project)
    (h : (choose path chosen item).runOn m = (.ok chosen', m')) : ∀ p ∈ chosen'.2, p.1 ≠ project := by
  obtain ⟨answer, m₁, hrebinding, h⟩ := Action.bind_eq_ok.mp h
  rw [Action.runOn_lift, rebinding_eq] at hrebinding
  cases answer with
  | none =>
    cases h
    exact hchosen
  | some isMentioned =>
    cases isMentioned with
    | false =>
      cases h
      exact hchosen
    | true =>
      obtain ⟨r, m₂, -, h⟩ := Action.bind_eq_ok.mp h
      cases h
      intro p hp
      rcases List.mem_append.mp hp with hp | hp
      · exact hchosen p hp
      · obtain rfl := List.mem_singleton.mp hp
        rintro rfl
        have hanswer := Except.ok.inj (Prod.mk.inj hrebinding).1
        rw [if_neg (hmentions rfl)] at hanswer
        cases hanswer

/-- The same of several projects, of which each is looked at after the ones before it. -/
private theorem foldlM_choose_others (htame : m.Tame fun other _ ↦ other ≠ project)
    (hm : m.Knows project i) (hmentions : project ∈ containers.map Prod.fst →
      ¬ (m.raw project).entries.any (·.isContainerAt path)) (hchosen : ∀ p ∈ chosen.2, p.1 ≠ project)
    (h : (containers.foldlM (choose path) chosen).runOn m = (.ok chosen', m')) :
    ∀ p ∈ chosen'.2, p.1 ≠ project := by
  induction containers generalizing m chosen with
  | nil =>
    cases h
    exact hchosen
  | cons item containers ih =>
    rw [List.foldlM_cons] at h
    obtain ⟨chosen₁, m₁, hfirst, hrest⟩ := Action.bind_eq_ok.mp h
    have hstep : Tended project i m ((choose path chosen item).runOn m).2 := guards_choose path chosen item m
    rw [hfirst] at hstep
    obtain ⟨hguards, htame₁⟩ := hstep htame
    have hfirst : ∀ p ∈ chosen₁.2, p.1 ≠ project := choose_others
      (fun heq h ↦ hmentions (heq ▸ List.mem_cons_self) (any_of_mentions h)) hchosen hfirst
    refine ih htame₁ (hguards hm).knows (fun hmem ↦ ?_) hfirst hrest
    rw [(hguards hm).raw_eq hm]
    exact hmentions (List.mem_cons_of_mem _ hmem)

/-- Binding containers that a project does not mention. -/
private theorem guards_setContainer (htame : m.Tame fun other _ ↦ other ≠ project)
    (hm : m.Knows project i) (hmentions : project ∈ containers.map Prod.fst →
      ¬ (m.raw project).entries.any (·.isContainerAt path)) :
    Tended project i m ((setContainer path containers).runOn m).2 := by
  let begun : Model := { m with held := (m.held.acquire (containers.map fun item ↦ .project item.1)).2 }
  have hbegun : begun.Knows project i := ⟨hm.raw, hm.issued, hm.isOk⟩
  rw [setContainer_eq]
  refine holding_moves guards_held (Action.Moves.bind_runOn
    (.foldlM (fun chosen item _ ↦ guards_choose path chosen item) _) fun chosen m₁ hchosen ↦ ?_)
  have hothers : ∀ p ∈ chosen.2, p.1 ≠ project :=
    foldlM_choose_others (m := begun) htame hbegun hmentions (fun _ hp ↦ absurd hp List.not_mem_nil) hchosen
  have hrest : Action.Moves (Tended project i)
      (monadLift (modifyRegistry (·.put path chosen.1)) >>= fun _ ↦
        if chosen.2.isEmpty then pure [] else monadLift (refresh chosen.2)) := by
    refine .bind (.lift (.modify fun m ↦ guards_registry m _)) fun _ ↦ ?_
    split
    · exact .pure _
    · exact .lift (guards_refresh hothers)
  exact hrest m₁

end Choosing

/-- A project that does not mention any of the variables is not among those that are resolved anew. -/
private theorem filterAuxM_others {test : Entry → Bool} {names picked picked' : List String}
    (htame : m.Tame fun other _ ↦ other ≠ project) (hm : m.Knows project i)
    (hmentions : ¬ (m.raw project).entries.any test) (hpicked : project ∉ picked)
    (h : Action.runOn (names.filterAuxM (fun other ↦ mentions other test) picked) m = (.ok picked', m')) :
    project ∉ picked' := by
  induction names generalizing m picked with
  | nil =>
    cases h
    exact hpicked
  | cons name names ih =>
    obtain ⟨isMentioned, m₁, hfirst, hrest⟩ := Action.bind_eq_ok.mp h
    rw [Action.runOn_lift, mentions_eq] at hfirst
    have hstep : Tended project i m ((mentions name test).run m).2 := moves_mentions_tame name test m
    obtain ⟨hanswer, rfl⟩ := Prod.mk.inj hfirst
    obtain ⟨hguards, htame₁⟩ := hstep htame
    refine ih htame₁ (hguards hm).knows (by rwa [(hguards hm).raw_eq hm]) ?_ hrest
    cases isMentioned with
    | false => exact hpicked
    | true =>
      intro hmem
      rcases List.mem_cons.mp hmem with rfl | hmem
      · exact hmentions (any_of_mentions (Except.ok.inj hanswer))
      · exact hpicked hmem

/-- Some projects are resolved, and given with what they are resolved to. -/
private theorem mapM_names {names : List String} {old : List (String × Option Issued)}
    (h : Action.runOn (names.mapM fun other ↦ attempt (resolution other) >>= fun r ↦
      pure (other, r.toOption)) m = (.ok old, m')) : old.map Prod.fst = names := by
  induction names generalizing m old with
  | nil =>
    cases h
    rfl
  | cons name names ih =>
    rw [List.mapM_cons] at h
    obtain ⟨first, m₁, hfirst, h⟩ := Action.bind_eq_ok.mp h
    obtain ⟨rest, m₂, hrest, h⟩ := Action.bind_eq_ok.mp h
    obtain ⟨r, m₃, -, hfirst⟩ := Action.bind_eq_ok.mp hfirst
    cases h
    cases hfirst
    rw [List.map_cons, ih hrest]

/-- Setting variables that a project does not mention. -/
private theorem guards_setVariables (htame : m.Tame fun other _ ↦ other ≠ project)
    (hm : m.Knows project i) {values : List (String × Option Path)}
    (hmentions : ¬ (m.raw project).entries.any (·.startsWith (m.variableValues.changedBy values))) :
    Tended project i m ((setVariables values).runOn m).2 := by
  have hget : (get : Action Model).runOn m = (.ok m, m) := rfl
  rw [setVariables_eq, Action.bind_runOn, hget]
  dsimp only
  split
  · exact Chained.refl m
  refine Action.Moves.bind_runOn (.filterM fun other _ ↦ .lift (moves_mentions_tame other _))
    fun affected m₁ haffected ↦ holding_moves guards_held (Action.Moves.bind_runOn (.mapM fun other _ ↦
      .bind (moves_attempt (moves_resolution_tame other)) fun _ ↦ .pure _) fun old m₂ hold ↦ ?_)
  have hothers : project ∉ affected := by
    obtain ⟨picked, m₂, hpicked, hrest⟩ := Action.bind_eq_ok.mp haffected
    cases hrest
    rw [List.mem_reverse]
    exact filterAuxM_others htame hm hmentions List.not_mem_nil hpicked
  have hrest : Action.Moves (Tended project i)
      ((modify fun m ↦ { m with variableValues := m.variableValues.assign values }) >>= fun _ : PUnit ↦
        monadLift (refresh old)) := by
    refine .bind (.lift (.modify fun m ↦ .of_initializers (.of_cell rfl fun _ ↦ ⟨rfl, rfl⟩) rfl))
      fun _ ↦ .lift (guards_refresh fun p hp ↦ ?_)
    rintro rfl
    exact hothers (mapM_names hold ▸ List.mem_map_of_mem hp)
  exact hrest m₂

/-- Writing the file of a project changes no result. -/
private theorem guards_saveFile {other : String} {es : List Entry}
    (h : (saveFile other es).runOn m = (.ok (), m')) : Tended project i m m' := by
  obtain ⟨-, w, -, rfl⟩ := saveFile_eq_ok h
  refine Chained.trans (guards_workspace m w) (.of_initializers (.setCell fun heq _ ↦ ?_) rfl)
  subst heq
  exact ⟨rfl, rfl⟩

/-- Replacing the raw buildpath of another project, and writing its file if that is wanted. -/
private theorem guards_setRaw {other : String} (hne : other ≠ project) (es : List Entry) (saves : Bool) :
    Action.Moves (Tended project i) (setRawBuildpath other es saves) := by
  intro m
  obtain ⟨begun, m₂, held, held', rfl, hm', hcases⟩ := setRaw_cases m other es saves
  have hreplace := guards_replaceRaw (i := i) hne es saves { m with held }
  have hstep : Tended project i { m with held } m₂ := by
    rcases hcases with rfl | rfl | ⟨-, hsave⟩
    · exact Chained.refl _
    · exact hreplace
    · exact Chained.trans hreplace (guards_saveFile hsave)
  have hend : Tended project i m { m₂ with held := held' } :=
    Chained.trans (guards_held m held) (Chained.trans hstep (guards_held m₂ held'))
  rwa [← hm'] at hend

end ModelM

/-- Whether an operation leaves alone what a project is resolved to: it is about other projects, or about
containers and variables that the project does not mention. -/
def Operation.LeavesAlone (project : String) (m : Model) : Operation → Prop
  | setRaw other _ _ | close other => other ≠ project
  | setContainer path containers =>
    project ∈ containers.map Prod.fst → ¬ (m.raw project).entries.any (·.isContainerAt path)
  | setVariables values =>
    ¬ (m.raw project).entries.any (·.startsWith (m.variableValues.changedBy values))
  | put .. | ask _ => True

/-- An operation that leaves a project alone keeps its result and the indexes of its libraries. -/
theorem Operation.guards {op : Operation} (htame : m.Tame fun other _ ↦ other ≠ project)
    (hm : m.Knows project i) (h : op.LeavesAlone project m) :
    m.Guarded project i (op.apply m) ∧ (op.apply m).Tame fun other _ ↦ other ≠ project := by
  suffices hstep : Model.Tamely (fun other _ ↦ other ≠ project) (Model.Guards project i) m (op.apply m) from
    ⟨(hstep htame).1 hm, (hstep htame).2⟩
  cases op with
  | setRaw other es saves => exact ModelM.guards_setRaw h es saves m
  | setContainer path containers => exact ModelM.guards_setContainer htame hm h
  | setVariables values => exact ModelM.guards_setVariables htame hm h
  | close other =>
    refine .of_initializers (.of_cell rfl fun _ ↦ ?_) rfl
    have hcell := ModelM.cell_closeProject m other project
    rw [if_neg h] at hcell
    have hraw := congrArg Cell.raw hcell
    have hissued := congrArg Cell.issued? hcell
    exact ⟨hraw, hissued⟩
  | put path containers => exact .of_initializers (TameFrame.registry m _) rfl
  | ask query =>
    refine ModelM.moves_query query (fun other _ ↦ ModelM.moves_visibleRoots_tame fun m roots ↦ ?_) m
    exact .setCell fun heq _ ↦ heq ▸ ⟨rfl, rfl⟩

/-- While operations leave a project alone that keeps a result that counts, it is resolved to that result,
and none of the requests that the indexer receives removes the index of one of its libraries. -/
theorem kept_libraries_stay_indexed {m₀ : Model} (htame : m₀.Tame fun other _ ↦ other ≠ project)
    (hm : m₀.Knows project i) (h : m₀.Reaches (fun m op ↦ op.LeavesAlone project m) m) :
    (m.workspace.projectExists project → ∃ m', (ModelM.resolution project).runOn m = (.ok i, m')) ∧
      ∃ received, m.indexer.requests = m₀.indexer.requests ++ received ∧
        ∀ path, .removeIndex path ∈ received →
          ∀ e ∈ i.result.entries, e.kind = .library → e.path ≠ path := by
  have hguarded : m₀.Guarded project i m ∧ m.Tame fun other _ ↦ other ≠ project := by
    induction h with
    | start => exact ⟨(Chained.refl m₀ : m₀.Guards project i m₀) hm, htame⟩
    | next _ hleaves ih =>
      obtain ⟨hsofar, htame'⟩ := ih
      obtain ⟨hlast, htame''⟩ := Operation.guards htame' hsofar.knows hleaves
      exact ⟨(Chained.trans (fun _ ↦ hsofar) (fun _ ↦ hlast) : m₀.Guards project i _) hm, htame''⟩
  obtain ⟨received, hreceived, hspares⟩ := hguarded.1.indexer
  refine ⟨ModelM.resolution_of_knows hguarded.1.knows, received, hreceived,
    fun path hpath e he hkind heq ↦ hspares path ⟨e, he, hkind, heq⟩ hpath⟩

namespace Model

/-- A library outside of the workspace. -/
def zippedLibrary (path : String) : Entry := { kind := .library, path := .parse path, external := true }

/-- Two projects with a library in common. One of them has another library. -/
def sharing : Model :=
  .ofBuildpaths [("p", [zippedLibrary "/ext/a.zip", zippedLibrary "/ext/b.zip"]),
    ("q", [zippedLibrary "/ext/a.zip"])]

/-- The project with one library was resolved. -/
def sharingResolved : Model := ((ModelM.resolution "q").runOn sharing).2

/-- Then the other project gave up both libraries. -/
def sharingLeft : Model := (Operation.setRaw "p" [] true).apply sharingResolved

/-- Only the index of the library that the project had to itself is removed. -/
theorem common_library_stays_indexed : ∃ i,
    (sharingResolved.Tame fun other _ ↦ other ≠ "q") ∧ sharingResolved.Knows "q" i ∧
    i.result.HasLibrary (.parse "/ext/a.zip") ∧
    sharingResolved.Reaches (fun m op ↦ op.LeavesAlone "q" m) sharingLeft ∧
    (∃ m', (ModelM.resolution "q").runOn sharingLeft = (.ok i, m')) ∧
    .removeIndex (.parse "/ext/b.zip") ∈ sharingLeft.indexer.requests ∧
    .removeIndex (.parse "/ext/a.zip") ∉ sharingLeft.indexer.requests := by
  obtain ⟨i, hrun⟩ := Action.runOn_eq_ok (ModelM.resolution "q") sharing (by decide +kernel)
  have htame : sharing.Tame fun other _ ↦ other ≠ "q" := .of_empty rfl
  have hparts : ((ModelM.resolution "q").runOn sharing).1.toOption.map (fun i ↦
      (i.result.isOk, i.result.entries)) = some (true, [zippedLibrary "/ext/a.zip"]) := by decide +kernel
  rw [hrun] at hparts
  obtain ⟨hok, hentries⟩ := Prod.mk.inj (Option.some.inj hparts)
  have hknows : sharingResolved.Knows "q" i := ModelM.knows_of_resolution htame (by decide) hrun hok
  have hlibrary : zippedLibrary "/ext/a.zip" ∈ i.result.entries := hentries ▸ List.mem_cons_self
  have hreaches : sharingResolved.Reaches (fun m op ↦ op.LeavesAlone "q" m) sharingLeft :=
    .next .start (by decide : "p" ≠ "q")
  have htame' : sharingResolved.Tame fun other _ ↦ other ≠ "q" :=
    (ModelM.moves_resolution_tame (R := Guards "q" i) "q" sharing htame).2
  obtain ⟨hresolution, received, hreceived, hspares⟩ :=
    kept_libraries_stay_indexed htame' hknows hreaches
  have hnone : sharingResolved.indexer.requests = [] := by decide +kernel
  rw [hnone, List.nil_append] at hreceived
  refine ⟨i, htame', hknows, ⟨_, hlibrary, rfl, rfl⟩, hreaches, hresolution (by decide +kernel),
    by decide +kernel, fun hmem ↦ ?_⟩
  exact hspares _ (hreceived ▸ hmem) _ hlibrary rfl rfl

/-- If the project that keeps the library was not resolved before, the index of the library is removed although
the project is resolved to it. -/
theorem unresolved_project_loses_index : ∃ m i, m = (Operation.setRaw "p" [] true).apply sharing ∧
    .removeIndex (.parse "/ext/a.zip") ∈ m.indexer.requests ∧ m.workspace.isScript "q" ∧
    ((ModelM.resolution "q").runOn m).1 = .ok i ∧ i.result.HasLibrary (.parse "/ext/a.zip") := by
  let m := (Operation.setRaw "p" [] true).apply sharing
  obtain ⟨i, hrun⟩ := Action.runOn_eq_ok (ModelM.resolution "q") m (by decide +kernel)
  have hentries : ((ModelM.resolution "q").runOn m).1.toOption.map (·.result.entries) =
      some [zippedLibrary "/ext/a.zip"] := by decide +kernel
  rw [hrun] at hentries
  have hentries : i.result.entries = [zippedLibrary "/ext/a.zip"] := Option.some.inj hentries
  have hlibrary : zippedLibrary "/ext/a.zip" ∈ i.result.entries := hentries ▸ List.mem_cons_self
  exact ⟨m, i, rfl, by decide +kernel, by decide +kernel, congrArg Prod.fst hrun, _, hlibrary, rfl, rfl⟩

end Model

end Buildpath
