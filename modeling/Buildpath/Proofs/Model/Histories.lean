import Buildpath.Proofs.Model.Tame

/-!
# Histories of models

Queries and operations in any order lead from a model to others (`Model.Reaches`). A relation that
resolutions keep is kept by queries (`moves_query`), and by operations as far as it is kept by what they
do to cells, bindings and variables (`moves_replaceRaw_tame`, `moves_setContainer`, `moves_setVariables`, `Operation.moves_tame`).
-/

namespace Buildpath

/-- What a model is asked. Queries that are put together from these lead to no other models. -/
inductive Query where
  | raw (project : String)
  | container (path : Path) (project : String)
  | resolution (project : String)
  | fragments (project : String)
  | visibleRoots (project : String)
  | expanded (project : String)
  | children (fragment : Fragment)
  | cycles (preferred : PreferredBuildpaths)
  | cycle (project : String) (entries : List Entry)

/-- What is done with a model. -/
inductive Operation where
  | setRaw (project : String) (entries : List Entry) (saves : Bool)
  | setContainer (path : Path) (containers : List (String × Option Container))
  | setVariables (values : List (String × Option Path))
  | close (project : String)
  | put (path : Path) (containers : List (String × Option Container))
  | ask (query : Query)

/-- The steps of a query. -/
def Query.steps : Query → ModelM Unit
  | raw project => discard (ModelM.rawBuildpath project).run
  | container path project => discard (ModelM.findContainer path project)
  | resolution project => discard (ModelM.resolution project).run
  | fragments project => discard (ModelM.fragments project).run
  | visibleRoots project => discard (ModelM.visibleRoots project).run
  | expanded project => discard (ModelM.expanded project).run
  | children fragment => discard (ModelM.fragmentChildren fragment).run
  | cycles preferred => discard (ModelM.cycleParticipants preferred)
  | cycle project entries => discard (ModelM.hasCycle project entries)

/-- The steps of an operation, which may fail. -/
def Operation.steps : Operation → ModelM Unit
  | setRaw project entries saves => discard (ModelM.setRawBuildpath project entries saves).run
  | setContainer path containers => discard (ModelM.setContainer path containers).run
  | setVariables values => discard (ModelM.setVariables values).run
  | close project => ModelM.closeProject project
  | put path containers => ModelM.modifyRegistry (·.put path containers)
  | ask query => query.steps

/-- The model after an operation. -/
def Operation.apply (op : Operation) (m : Model) : Model := (op.steps.run m).2

/-- Whether operations lead from one model to another. Each has to be allowed where it is done. -/
inductive Model.Reaches (allowed : Model → Operation → Prop) (m₀ : Model) : Model → Prop where
  | start : Reaches allowed m₀ m₀
  | next {m : Model} {op : Operation} (reaches : Reaches allowed m₀ m) (isAllowed : allowed m op) :
    Reaches allowed m₀ (op.apply m)

/-- A relation that is kept by all that changes of buildpaths and bindings do, too, apart from replacing
raw buildpaths as it is not allowed. -/
class OperationFrame (allows : outParam (String → List Entry → Prop)) (R : Model → Model → Prop) : Prop
    extends TameFrame allows R, Deaf R where
  bindsVariables : ∀ (m : Model) variableValues, R m { m with variableValues }
  invalidates : ∀ (m : Model) project, R m (m.setCell project (m.cell project).invalidate)

namespace Action.Moves

variable {R : Model → Model → Prop} [Chained R] {α β : Type}

/-- Steps that follow on the outcome of others, where it is known what that can be. -/
theorem bind_runOn {act : Action α} {f : α → Action β} {m : Model} (h : Moves R act)
    (hf : ∀ a m₁, act.runOn m = (.ok a, m₁) → R m₁ ((f a).runOn m₁).2) :
    R m ((act >>= f).runOn m).2 := by
  have hstep : R m (act.runOn m).2 := h m
  rw [Action.bind_runOn]
  rcases hact : act.runOn m with ⟨failure | a, m₁⟩
  · rwa [hact] at hstep
  · rw [hact] at hstep
    exact Chained.trans hstep (hf a m₁ hact)

theorem foldlM {f : β → α → Action β} {as : List α} (h : ∀ b, ∀ a ∈ as, Moves R (f b a)) (b : β) :
    Moves R (as.foldlM f b) := by
  induction as generalizing b with
  | nil => exact .pure b
  | cons a as ih =>
    rw [List.foldlM_cons]
    exact .bind (h b a List.mem_cons_self) fun b ↦ ih (fun b a ha ↦ h b a (List.mem_cons_of_mem _ ha)) b

theorem mapM {f : α → Action β} {as : List α} (h : ∀ a ∈ as, Moves R (f a)) :
    Moves R (as.mapM f) := by
  induction as with
  | nil => exact .pure _
  | cons a as ih =>
    rw [List.mapM_cons]
    exact .bind (h a List.mem_cons_self) fun b ↦
      .bind (ih fun a ha ↦ h a (List.mem_cons_of_mem _ ha)) fun bs ↦ .pure _

theorem filterM {f : α → Action Bool} {as : List α} (h : ∀ a ∈ as, Moves R (f a)) :
    Moves R (as.filterM f) := by
  have hkept : ∀ kept, Moves R (as.filterAuxM f kept) := by
    induction as with
    | nil => exact fun kept ↦ .pure _
    | cons a as ih =>
      exact fun kept ↦ .bind (h a List.mem_cons_self) fun b ↦
        ih (fun a ha ↦ h a (List.mem_cons_of_mem _ ha)) _
  exact .bind (hkept []) fun as ↦ .pure _

end Action.Moves

namespace ModelM

variable {allows : String → List Entry → Prop} {R : Model → Model → Prop} {α β : Type}

namespace Moves

theorem discard {x : ModelM α} (h : Moves R x) : Moves R (Functor.discard x) := h

theorem mapM [Chained R] {f : α → ModelM β} {as : List α} (h : ∀ a ∈ as, Moves R (f a)) :
    Moves R (as.mapM f) := by
  induction as with
  | nil => exact .pure _
  | cons a as ih =>
    rw [List.mapM_cons]
    exact .bind (h a List.mem_cons_self) fun b ↦
      .bind (ih fun a ha ↦ h a (List.mem_cons_of_mem _ ha)) fun bs ↦ .pure _

end Moves

/-! ### Queries -/

/-- A relation that looking at projects keeps is kept by queries, if what these store does not matter to
it. -/
theorem moves_queryBy [Scene R] (hload : ∀ project, (loadRaw project).Moves R)
    (hres : ∀ project, Action.Moves R (resolution project))
    (hfind : ∀ path project, (findContainer path project).Moves R) (query : Query)
    (hfragments : ∀ project, query = .fragments project → Action.Moves R (fragments project))
    (hroots : ∀ project, query = .visibleRoots project → Action.Moves R (visibleRoots project))
    (hchildren : ∀ f, query = .children f → Action.Moves R (fragmentChildren f)) :
    query.steps.Moves R := by
  cases query with
  | raw project => exact moves_rawBuildpath hload project
  | container path project => exact hfind path project
  | resolution project => exact hres project
  | fragments project => exact hfragments project rfl
  | visibleRoots project => exact hroots project rfl
  | expanded project => exact moves_expanded hres project
  | children fragment => exact hchildren fragment rfl
  | cycles preferred => exact moves_cycles hres preferred
  | cycle project entries => exact moves_hasCycle hres project entries

/-- A relation that resolutions keep is kept by queries, if storing the fragments that a project sees does
not matter to it. -/
theorem moves_query [TameFrame allows R] (query : Query) (hroots : ∀ project,
    query = .visibleRoots project → Action.Moves (Model.Tamely allows R) (visibleRoots project)) :
    query.steps.Moves (Model.Tamely allows R) :=
  moves_queryBy moves_loadRaw_tame moves_resolution_tame moves_findContainer_tame query
    (fun project _ ↦ moves_fragments_tame project) hroots
    fun _ _ ↦ moves_fragmentChildren moves_resolution_tame fun m _ ↦ Backdrop.volatile m _ _ _ _

/-! ### Operations -/

section Operations

variable [OperationFrame allows R]

theorem moves_applyChange_tame (change : Change) (setsUpFolders : Bool) :
    (applyChange change setsUpFolders).Moves (Model.Tamely allows R) :=
  moves_applyChange moves_resolution_tame
    (fun m _ _ ↦ .of_initializers (TameFrame.registry m _) rfl) change setsUpFolders

theorem moves_replaceRaw_tame {project : String} {entries : List Entry} (h : allows project entries)
    (saves : Bool) : (replaceRaw project entries saves).Moves (Model.Tamely allows R) :=
  .bind (moves_inspect_tame project) fun fragments ↦
    .bind (moves_replaceEntries_tame h fragments) fun change ↦ moves_applyChange_tame change saves

/-- Resolving projects anew. -/
theorem moves_refresh_tame (projects : List (String × Option Issued)) :
    (refresh projects).Moves (Model.Tamely allows R) := by
  have hchange : ∀ project fragments resolved, (changeBy project Cell.invalidate fragments resolved).Moves
      (Model.Tamely allows R) := fun project _ _ ↦
    .bind (moves_cell project) fun _ ↦ .bind (.modify fun m ↦
      .of_initializers (OperationFrame.invalidates m project) rfl) fun _ ↦ .pure _
  exact .bind (.mapM fun p _ ↦ .bind (moves_cell p.1) fun c ↦ .bind (hchange p.1 _ _) fun change ↦
    moves_applyChange_tame change false) fun _ ↦
      .bind (.modify fun m ↦ Ground.clearRoots m) fun _ ↦ .pure _

end Operations

theorem moves_attempt [Chained R] {act : Action α} (h : Action.Moves R act) :
    Action.Moves R (attempt act) :=
  .lift h

/-- Steps under rules keep what they keep without them, if it does not depend on the rules. -/
theorem holding_moves [Chained R] (hheld : ∀ (m : Model) held, R m { m with held }) {act : Action α}
    {rules : List Rule} {m : Model} (h : R { m with held := (m.held.acquire rules).2 }
      (act.runOn { m with held := (m.held.acquire rules).2 }).2) : R m ((holding rules act).runOn m).2 := by
  rw [holding_runOn]
  exact Chained.trans (hheld m _) (Chained.trans h (hheld _ _))

theorem moves_holding [Chained R] (hheld : ∀ (m : Model) held, R m { m with held }) {act : Action α}
    (h : Action.Moves R act) (rules : List Rule) : Action.Moves R (holding rules act) :=
  fun _ ↦ holding_moves hheld (h _)

/-- Binding containers keeps what looking at projects, binding them and resolving them anew keep. -/
theorem moves_setContainer [Chained R] (hheld : ∀ (m : Model) held, R m { m with held })
    (hres : ∀ project, Action.Moves R (resolution project))
    (hrebinding : ∀ path project container, (rebinding path project container).Moves R)
    (hregistry : ∀ (m : Model) registry, R m { m with registry })
    (hrefresh : ∀ projects, (refresh projects).Moves R) (path : Path)
    (containers : List (String × Option Container)) : Action.Moves R (setContainer path containers) := by
  refine moves_holding hheld ?_ _
  refine .bind (.foldlM (fun acc item _ ↦ ?_) _) fun found ↦ ?_
  · refine .bind (.lift (hrebinding path item.1 item.2)) fun isMentioned? ↦ ?_
    split
    · exact .pure _
    · dsimp only
      split
      · exact .bind (moves_attempt (hres item.1)) fun _ ↦ .pure _
      · exact .pure _
  · refine .bind (.lift (.modify fun m ↦ hregistry m _)) fun _ ↦ ?_
    split
    · exact .pure _
    · exact .lift (hrefresh _)

/-- Setting variables keeps what looking at projects, setting them and resolving projects anew keep. -/
theorem moves_setVariables [Chained R] (hheld : ∀ (m : Model) held, R m { m with held })
    (hres : ∀ project, Action.Moves R (resolution project))
    (hmentions : ∀ project test, (mentions project test).Moves R)
    (hrefresh : ∀ (set : Variables → Variables) projects,
      (modify (fun m ↦ { m with variableValues := set m.variableValues }) >>= fun _ : PUnit ↦
        refresh projects : ModelM (List GeneratedDelta)).Moves R)
    (values : List (String × Option Path)) : Action.Moves R (setVariables values) := by
  refine .bind .get fun m ↦ ?_
  dsimp only
  split
  · exact .pure _
  · refine .bind (.filterM fun project _ ↦ .lift (hmentions project _)) fun affected ↦
      moves_holding hheld ?_ _
    refine .bind (.mapM fun project _ ↦ .bind (moves_attempt (hres project)) fun _ ↦ .pure _)
      fun old ↦ ?_
    exact fun m ↦ (hrefresh
      (fun v ↦ values.foldl (fun v x ↦ setVariable v x.1 x.2) v) old m :)

/-- The steps of setting a raw buildpath that is not saved. -/
theorem setRawBuildpath_unsaved (project : String) (entries : List Entry) :
    setRawBuildpath project entries false =
      holding [.project project] (verify project entries >>= fun _ ↦
        monadLift (replaceRaw project entries false) >>= fun g ↦ pure g) := by
  rfl

/-- Where an operation that replaces a raw buildpath leads, whether it succeeds or not, apart from the rules
that are held: nothing changes, or the raw buildpath is replaced in the model, and its file may be saved. -/
theorem setRaw_cases (m : Model) (project : String) (entries : List Entry) (saves : Bool) :
    ∃ (begun m₂ : Model) (held held' : HeldRules), begun = { m with held } ∧
      ((setRawBuildpath project entries saves).runOn m).2 = { m₂ with held := held' } ∧
      (m₂ = begun ∨ m₂ = ((replaceRaw project entries saves).run begun).2 ∨
        saves ∧ (saveFile project entries).runOn ((replaceRaw project entries saves).run begun).2 =
          (.ok (), m₂)) := by
  cases saves with
  | true =>
    obtain ⟨begun, m₂, held, hbegun, hm', h⟩ := setRawBuildpath_cases m project entries
    exact ⟨begun, m₂, _, held, hbegun, hm', h.imp_right fun h ↦ h.2.imp_right fun h ↦ ⟨rfl, h⟩⟩
  | false =>
    let begun := { m with held := (m.held.acquire [.project project]).2 }
    rw [setRawBuildpath_unsaved, holding_runOn]
    refine ⟨begun, _, _, _, rfl, rfl, ?_⟩
    have hunchanged := verify_runOn begun project entries
    rw [Action.bind_runOn]
    rcases hverify : (verify project entries).runOn begun with ⟨failure | ⟨⟩, m₀⟩
    · rw [hverify] at hunchanged
      exact .inl hunchanged
    · rw [hverify] at hunchanged
      obtain rfl : m₀ = begun := hunchanged
      exact .inr (.inl rfl)

/-- Closing a project forgets its cell. -/
theorem cell_closeProject (m : Model) (other project : String) :
    ((closeProject other).run m).2.cell project =
      if other = project then {} else (m.cell project).clearRoots := by
  change ({ m with cells := m.cells.erase other } : Model).clearRoots.cell project = _
  rw [Model.cell_clearRoots, Model.cell, Table.find?_erase]
  split <;> rfl

end ModelM

/-- A relation that does not depend on what operations change is kept by an operation, if it is kept by saving
the file of a project, by closing one and by asking for what one sees. -/
theorem Operation.moves_tame {allows : String → List Entry → Prop} {R : Model → Model → Prop}
    [OperationFrame allows R] {op : Operation}
    (hallowed : ∀ project entries saves, op = .setRaw project entries saves → allows project entries)
    (hsave : ∀ (m m' : Model) project entries,
      (ModelM.saveFile project entries).runOn m = (.ok (), m') → Model.Tamely allows R m m')
    (hclose : ∀ project, (ModelM.closeProject project).Moves (Model.Tamely allows R))
    (hroots : ∀ project, Action.Moves (Model.Tamely allows R) (ModelM.visibleRoots project)) :
    op.steps.Moves (Model.Tamely allows R) := by
  have hheld : ∀ (m : Model) held, Model.Tamely allows R m { m with held } := fun m _ ↦
    Backdrop.volatile m _ _ _ _
  have hregistry : ∀ (m : Model) registry, Model.Tamely allows R m { m with registry } :=
    fun m registry ↦ .of_initializers (TameFrame.registry m registry) rfl
  cases op with
  | setRaw project entries saves =>
    intro m
    obtain ⟨begun, m₂, held, held', rfl, hm', hcases⟩ := ModelM.setRaw_cases m project entries saves
    have hm' : ((Operation.setRaw project entries saves).steps.run m).2 = { m₂ with held := held' } := hm'
    have hreplaced := ModelM.moves_replaceRaw_tame (R := R) (hallowed _ _ _ rfl) saves { m with held }
    rw [hm']
    refine Chained.trans (hheld m held) (Chained.trans ?_ (hheld m₂ held'))
    rcases hcases with rfl | rfl | ⟨-, hsaved⟩
    · exact Chained.refl _
    · exact hreplaced
    · exact Chained.trans hreplaced (hsave _ _ _ _ hsaved)
  | setContainer path containers =>
    exact .discard (ModelM.moves_setContainer hheld ModelM.moves_resolution_tame
      ModelM.moves_rebinding_tame hregistry ModelM.moves_refresh_tame path containers)
  | setVariables values =>
    exact .discard (ModelM.moves_setVariables hheld ModelM.moves_resolution_tame
      ModelM.moves_mentions_tame (fun set projects ↦ .bind (.modify fun m ↦
        .of_initializers (OperationFrame.bindsVariables m _) rfl) fun _ ↦
          ModelM.moves_refresh_tame projects) values)
  | close project => exact hclose project
  | put path containers => exact .modify fun m ↦ hregistry m _
  | ask query => exact ModelM.moves_query query fun project _ ↦ hroots project

end Buildpath
