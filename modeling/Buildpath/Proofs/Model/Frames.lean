import Buildpath.Proofs.Model.Moves
import Buildpath.Proofs.Model.Runs

/-!
# What operations leave alone

Relations that do not depend on what is only kept for others to read are kept by an operation if they
are kept by the resolutions that it asks for (`moves_applyChange`). Relations that are kept by what a
resolution makes of cells as well are kept by a resolution if they are kept by the look-ups of
containers (`moves_resolutionBy`).
-/

namespace Buildpath

/-- A relation that depends neither on the rules that are held nor on the folders that are to be set up, and
that is kept when children of fragments are forgotten. -/
class Ground (R : Model → Model → Prop) : Prop extends Chained R where
  unheld : ∀ (m : Model) held folders, R m { m with held, folders }
  closes : ∀ (m : Model) keep, R m { m with children := m.children.filterKeys keep }
  touched : ∀ (m : Model) project, R m (m.setCell project (m.cell project))
  clearRoots : ∀ m : Model, R m m.clearRoots

/-- A relation that does not depend on markers, either. -/
class Scene (R : Model → Model → Prop) : Prop extends Ground R where
  marked : ∀ (m : Model) markers, R m { m with markers }

/-- A relation that does not depend on what is only kept for others to read. -/
class Backdrop (R : Model → Model → Prop) : Prop extends Scene R where
  volatile : ∀ (m : Model) held markers folders children,
    R m { m with held, markers, folders, children }
  unheld := fun m held folders ↦ volatile m held m.markers folders m.children
  closes := fun m _ ↦ volatile m m.held m.markers m.folders _
  marked := fun m markers ↦ volatile m m.held markers m.folders m.children

/-- A relation that does not depend on what was computed from resolutions. -/
class CacheFrame (R : Model → Model → Prop) : Prop extends Ground R where
  caches : ∀ (m : Model) project (c : Cell), c.raw = (m.cell project).raw →
    c.generation = (m.cell project).generation → c.state = (m.cell project).state →
    c.last = (m.cell project).last → R m (m.setCell project c)
  touched := fun m project ↦ caches m project (m.cell project) rfl rfl rfl rfl

/-- A relation that depends neither on what is only kept for others to read nor on what was computed from
resolutions. -/
class Frame (R : Model → Model → Prop) : Prop extends Backdrop R, CacheFrame R

/-- A relation that does not depend on those that a change is announced to: the listeners, the indexer
and the references of projects. -/
class Deaf (R : Model → Model → Prop) : Prop where
  announced : ∀ (m : Model) log indexer, R m { m with log, indexer }
  references : ∀ (m : Model) w name names, m.workspace.setReferences name names = .ok w →
    R m { m with workspace := w }

/-- What resolutions and the scripts of initializers make of a cell. -/
inductive Cell.Step (c : Cell) : Cell → Prop where
  | storeRaw (raw : RawBuildpath) (stamp : Option Nat) : Step c (c.storeRaw raw stamp)
  | setRaw (entries : List Entry) : Step c (c.setRaw entries)
  | begin (isResolving : Bool) : Step c (c.begin isResolving).2
  | complete (generation : Nat) (issued : Issued) : Step c (c.complete generation issued)

/-- A relation that is kept by what resolutions make of cells, and that does not depend on the notes of
initializers, on the numbers of results and on the projects that are being resolved in between. -/
class StepFrame (R : Model → Model → Prop) : Prop extends Ground R where
  steps : ∀ (m : Model) project c, (m.cell project).Step c → R m (m.setCell project c)
  noted : ∀ (m : Model) value, R m (m.addEvent (.noted value))
  issued : ∀ (m : Model) n, R m { m with issued := n }
  resolving : ∀ (m m' : Model) project, R { m with resolving := project :: m.resolving } m' →
    R m { m' with resolving := m'.resolving.erase project }

/-- A relation that is kept by what resolutions make of cells and that does not depend on markers. -/
class ResolutionFrame (R : Model → Model → Prop) : Prop extends Backdrop R, StepFrame R

/-- A relation that does not depend on cells at all. -/
class OpenFrame (R : Model → Model → Prop) : Prop extends Frame R, ResolutionFrame R where
  cells : ∀ (m : Model) project c, R m (m.setCell project c)
  steps := fun m project c _ ↦ cells m project c

/-- The entries of the raw buildpath that a cell holds. -/
def Cell.rawEntries (c : Cell) : List Entry := (c.raw.map RawBuildpath.entries).getD []

namespace ModelM

variable {R : Model → Model → Prop} {α : Type}

/-! ### Cells and resolutions -/

theorem moves_cell [Ground R] (project : String) : (cell project).Moves R :=
  .modifyGet fun m ↦ Ground.touched m project

theorem moves_modifyCell [OpenFrame R] (project : String) (f : Cell → Cell) :
    (modifyCell project f).Moves R :=
  .modify fun m ↦ OpenFrame.cells m project _

theorem moves_stepCell [StepFrame R] (project : String) {f : Cell → Cell}
    (h : ∀ c : Cell, c.Step (f c)) : (modifyCell project f).Moves R :=
  .modify fun m ↦ StepFrame.steps m project _ (h _)

/-- Changing only what was computed from the resolution of a project. -/
theorem moves_caches [CacheFrame R] (project : String) {f : Cell → Cell} (h : ∀ c, (f c).raw = c.raw ∧
    (f c).generation = c.generation ∧ (f c).state = c.state ∧ (f c).last = c.last) :
    (modifyCell project f).Moves R :=
  .modify fun m ↦ by
    obtain ⟨hraw, hgeneration, hstate, hlast⟩ := h (m.cell project)
    exact CacheFrame.caches m project _ hraw hgeneration hstate hlast

theorem moves_issue [StepFrame R] (result : Resolved) : (issue result).Moves R :=
  .modifyGet fun m ↦ StepFrame.issued m _

theorem moves_addFolders [Ground R] (folders : List Path) :
    (modify (·.addFolders folders) : ModelM PUnit).Moves R :=
  .modify fun m ↦ Ground.unheld m _ _

theorem moves_loadRaw [StepFrame R] (project : String) : (loadRaw project).Moves R := by
  unfold loadRaw
  refine .bind (moves_cell project) fun c ↦ ?_
  cases c.raw with
  | some raw => exact .pure _
  | none =>
    exact .bind_get fun m ↦ .bind (moves_stepCell project fun c ↦ .storeRaw _ _) fun _ ↦ .pure _

theorem moves_requireProject [Chained R] (project : String) :
    Action.Moves R (requireProject project) := by
  unfold requireProject
  refine .bind .get fun m ↦ ?_
  split
  · exact .throw _
  · exact .pure _

theorem moves_mentions [Chained R] (hload : ∀ project, (loadRaw project).Moves R) (project : String)
    (test : Entry → Bool) : (mentions project test).Moves R := by
  refine .bind_get fun m ↦ ?_
  split
  · exact .pure _
  · exact .bind (hload project) fun _ ↦ .pure _

theorem moves_rawBuildpath [Scene R] (hload : ∀ project, (loadRaw project).Moves R) (project : String) :
    Action.Moves R (rawBuildpath project) := by
  refine .bind (moves_requireProject project) fun _ ↦ .bind (.lift (hload project)) fun raw ↦ ?_
  split
  · exact .bind (.lift (.modify fun m ↦ Scene.marked m _)) fun _ ↦ .pure _
  · exact .pure _

theorem moves_bindings [Chained R] {find : Path → String → ModelM (Option Container)}
    (hfind : ∀ path project, (find path project).Moves R) (project : String) :
    (∀ e, ( Bindings.variableEntry? (bindings find project) e).Moves R) ∧
      ∀ path, ((bindings find project).container? path).Moves R :=
  ⟨fun _ ↦ .bind_get fun _ ↦ .pure _, fun path ↦ hfind path project⟩

theorem moves_resolveRaw [Ground R] {find : Path → String → ModelM (Option Container)}
    (hfind : ∀ path project, (find path project).Moves R) (project : String) (raw : List Entry)
    (last : Option Issued) : (resolveRaw find project raw last).Moves R := by
  obtain ⟨hv, hc⟩ := moves_bindings hfind project
  exact .bind_get fun m ↦ .bind (moves_resolve hv hc _ raw) fun pass ↦
    .bind (moves_addFolders pass.folders) fun _ ↦ .pure _

/-- What a resolution does once it began. -/
def resume (find : Path → String → ModelM (Option Container)) (project : String) (raw : RawBuildpath) :
    Beginning → Action Issued
  | .cached result => pure result
  | .reentrant => issue Resolved.ofProgress
  | .start generation current last => do
    modify fun m ↦ { m with resolving := project :: m.resolving }
    let result ← resolveRaw find project (current.getD raw).entries last
    let issued ← issue result
    modifyCell project (·.complete generation issued)
    modify fun m ↦ { m with resolving := m.resolving.erase project }
    pure issued

theorem resolutionBy_eq (find : Path → String → ModelM (Option Container)) (project : String) :
    resolutionBy find project = (do
      requireProject project
      let raw ← loadRaw project
      let c ← cell project
      let m ← get
      modifyCell project fun _ ↦ (c.begin (project ∈ m.resolving)).2
      resume find project raw (c.begin (project ∈ m.resolving)).1) := by
  rfl

theorem moves_resume [StepFrame R] {find : Path → String → ModelM (Option Container)}
    (hfind : ∀ path project, (find path project).Moves R) (project : String) (raw : RawBuildpath)
    (beginning : Beginning) : Action.Moves R (resume find project raw beginning) := by
  cases beginning with
  | cached result => exact .pure _
  | reentrant => exact .lift (moves_issue _)
  | start generation current last =>
    -- the project stands among those being resolved only in between
    have hinner := ModelM.Moves.bind
      (moves_resolveRaw hfind project (current.getD raw).entries last) fun result ↦
        .bind (moves_issue result) fun issued ↦
          .bind (moves_stepCell project fun c ↦ .complete generation issued) fun _ ↦ .pure issued
    exact fun m ↦ StepFrame.resolving m _ project (hinner _)

/-- A resolution keeps what the look-ups of containers keep. -/
theorem moves_resolutionBy [StepFrame R] {find : Path → String → ModelM (Option Container)}
    (hfind : ∀ path project, (find path project).Moves R) (project : String) :
    Action.Moves R (resolutionBy find project) := by
  rw [resolutionBy_eq]
  refine .bind (moves_requireProject project) fun _ ↦ .bind (.lift (moves_loadRaw project)) fun raw m ↦ ?_
  -- the cell that the resolution begins with is the one that it puts back
  have hcell : (m.setCell project (m.cell project)).cell project = m.cell project := by
    rw [Model.cell_setCell, if_pos rfl]
  have hbegun : R (m.setCell project (m.cell project))
      ((m.setCell project (m.cell project)).setCell project
        ((m.cell project).begin (project ∈ m.resolving)).2) :=
    StepFrame.steps _ project _ (by rw [hcell]; exact .begin _)
  exact Chained.trans (Ground.touched m project)
    (Chained.trans hbegun (moves_resume hfind project raw _ _))

/-! ### Look-ups of containers -/

section Registry

variable [StepFrame R]

private theorem moves_answer (hr : ∀ (m : Model) registry, R m { m with registry })
    {find : Path → String → ModelM (Option Container)} {resolve : String → Action Issued}
    (hfind : ∀ path project, (find path project).Moves R)
    (hresolve : ∀ project, Action.Moves R (resolve project)) (call : Call) :
    (answer find resolve call).Moves R := by
  cases call with
  | find path project => exact hfind path project
  | peek path project => exact .bind_get fun _ ↦ .pure _
  | previous path project => exact .bind_get fun _ ↦ .pure _
  | put path containers => exact .modify fun m ↦ hr m _
  | reset path project => exact .modify fun m ↦ hr m _
  | removeProject project => exact .modify fun m ↦ hr m _
  | freeze => exact .modify fun m ↦ hr m _
  | containers project => exact .bind_get fun _ ↦ .pure _
  | resolve project => exact .bind (hresolve project) fun _ ↦ .pure _
  | setRaw project entries => exact moves_stepCell project fun c ↦ .setRaw entries
  | note value => exact .modify fun m ↦ StepFrame.noted m value

private theorem moves_runScript (hr : ∀ (m : Model) registry, R m { m with registry })
    {find : Path → String → ModelM (Option Container)} {resolve : String → Action Issued}
    (hfind : ∀ path project, (find path project).Moves R)
    (hresolve : ∀ project, Action.Moves R (resolve project)) (script : Script) :
    (runScript find resolve script).Moves R := by
  induction script with
  | done container => exact .pure _
  | ask call next ih => exact .bind (moves_answer hr hfind hresolve call) fun a ↦ ih a

/-- A resolution that a script asks for keeps what resolutions keep. -/
theorem moves_resolutionWithin {R : Model → Model → Prop} [Chained R] {depth : Nat}
    {find : Path → String → ModelM (Option Container)} {project : String}
    (h : Action.Moves R (resolutionBy find project)) :
    Action.Moves R (resolutionWithin depth find project) := by
  unfold resolutionWithin
  split
  · exact .throw _
  · exact h

private theorem moves_finish (hr : ∀ (m : Model) registry, R m { m with registry }) (path : Path)
    (project : String) (made : Option Container) : (finish path project made).Moves R := by
  refine .bind_get fun m ↦ ?_
  split
  · exact .pure _
  · exact .bind (.modify fun m ↦ hr m _) fun _ ↦ .pure _

/-- Looking up a container keeps what does not depend on bindings, whatever the initializers do. -/
theorem moves_findContainer (hr : ∀ (m : Model) registry, R m { m with registry }) (path : Path)
    (project : String) : (findContainer path project).Moves R := by
  have within : ∀ depth path project, (findContainerWithin depth path project).Moves R := by
    intro depth
    induction depth with
    | zero => exact fun _ _ ↦ .pure _
    | succ depth ih =>
      intro path project
      refine .bind_get fun m ↦ ?_
      split
      · exact .pure _
      · exact .pure _
      · split
        · exact .pure _
        · exact .bind (.modify fun m ↦ hr m _) fun _ ↦
            .bind (moves_runScript hr ih
              (fun _ ↦ moves_resolutionWithin (moves_resolutionBy ih _)) _) fun made ↦
                moves_finish hr path project made
  exact .bind_get fun m ↦ within _ path project

end Registry

/-! ### Operations -/

/-- Makes the references of a project follow its buildpath, once that is resolved. -/
def refer (project : String) (old : Option Issued) (issued : Issued) : Action Bool := do
  let required := prerequisites issued.result.entries
  let gone := (old.map fun o ↦ prerequisites o.result.entries).getD []
  let w := (← get).workspace
  let before := sortNames (w.references project)
  let after := sortNames ((before.filter (· ∉ gone)) ++ required)
  if after = before then return false
  let w ← access (projectPath project) (w.setReferences project after)
  modify fun m ↦ { m with workspace := w }
  return true

/-- Tells the listeners, the indexer and the references of the project of a change. -/
def announce (change : Change) (g : GeneratedDelta) : ModelM Unit := do
  modify (·.notify g.delta g.flags)
  requestIndexing g
  let _ ← (updateReferences change.project change.resolved).run

/-- Shows the first raw entry without a binding. -/
def showUnresolved (project : String) : ModelM Unit := do
  match ← (resolution project).run with
  | .ok issued =>
    match issued.result.unresolved with
    | some problem => createMarker project problem
    | none => pure ()
  | .error _ => pure ()

/-- What follows from a change once it was announced. -/
def conclude (change : Change) (g : GeneratedDelta) (setsUpFolders : Bool) : ModelM Unit :=
  (if g.flags.hasProjectChange then validateCycles [] else pure ()) >>= fun _ ↦
  (if g.flags.hasLibraryChange && setsUpFolders then
    modify fun m ↦ { m with folders := m.folders.createPending.2 } else pure ()) >>= fun _ ↦
  flushMarkers change.project false false >>= fun _ ↦
  showUnresolved change.project

/-- Everything that follows once a change was compared. -/
def followUp (change : Change) (g : GeneratedDelta) (setsUpFolders : Bool) : ModelM Unit :=
  (if g.hasDelta then announce change g else pure ()) >>= fun _ ↦ conclude change g setsUpFolders

private theorem showUnresolved_pure {α : Type} (project : String) (a : α) : (do
    let r ← (resolution project).run
    match r with
    | .ok issued =>
      if let some problem := issued.result.unresolved then createMarker project problem
    | .error _ => pure ()
    return a) = showUnresolved project >>= fun _ ↦ pure a := by
  rw [showUnresolved, bind_assoc]
  refine bind_congr fun r ↦ ?_
  cases r with
  | error failure => rfl
  | ok issued =>
    dsimp only
    cases issued.result.unresolved <;> rfl

/-- A change is compared first, and everything else follows from the outcome. -/
theorem applyChange_eq (change : Change) (setsUpFolders : Bool) :
    applyChange change setsUpFolders =
      generateDelta change >>= fun r ↦ followUp change r.1 setsUpFolders >>= fun _ ↦ pure r.1 := by
  unfold applyChange
  refine bind_congr fun r ↦ ?_
  unfold followUp conclude
  simp only [bind_assoc, ← showUnresolved_pure]
  split <;> split <;> split <;> rfl

/-- Applying a change leaves what following up its outcome leaves. -/
theorem applyChange_leaves (change : Change) (setsUpFolders : Bool) (m : Model) :
    ((applyChange change setsUpFolders).run m).2 =
      ((followUp change ((generateDelta change).run m).1.1 setsUpFolders).run
        ((generateDelta change).run m).2).2 := by
  rw [applyChange_eq]
  rfl

/-- Compares the raw buildpath before a change, if it is known, with the one after it. -/
def compareRaws (change : Change) (newRaw : List Entry) (g : GeneratedDelta) : ModelM GeneratedDelta :=
  match change.raw with
  | some oldRaw => compareRaw oldRaw newRaw g
  | none => pure g

/-- Compares the resolved buildpath before a change, if it is known, with the one after it. -/
def compareOutcomes (change : Change) (new : Issued) (g : GeneratedDelta) : ModelM GeneratedDelta :=
  match change.resolved with
  | none => pure g
  | some old =>
    if sameStructure old.result.entries new.result.entries then pure g
    else do
      closeChildren change.project
      modify Model.clearRoots
      compareResolved (change.fragments.getD []) old.result.entries new.result.entries
        (g.addFlags { resolvedChanged := true })

/-- A project that was not resolved before is not compared. -/
theorem compareOutcomes_none {change : Change} (h : change.resolved = none) (new : Issued)
    (g : GeneratedDelta) : compareOutcomes change new g = pure g := by
  rw [compareOutcomes, h]

/-- Results with the same entries come to nothing. -/
theorem compareOutcomes_same {change : Change} {old new : Issued} (hold : change.resolved = some old)
    (h : sameStructure old.result.entries new.result.entries) (g : GeneratedDelta) :
    compareOutcomes change new g = pure g := by
  unfold compareOutcomes
  rw [hold]
  exact if_pos h

/-- Results that differ are compared entry by entry. -/
theorem compareOutcomes_differ {change : Change} {old new : Issued} (hold : change.resolved = some old)
    (h : ¬ sameStructure old.result.entries new.result.entries) (g : GeneratedDelta) :
    compareOutcomes change new g = (do
      closeChildren change.project
      modify Model.clearRoots
      compareResolved (change.fragments.getD []) old.result.entries new.result.entries
        (g.addFlags { resolvedChanged := true })) := by
  unfold compareOutcomes
  rw [hold]
  exact if_neg h

/-- A project is resolved anew, and then compared twice. -/
theorem generateDelta_eq (change : Change) :
    generateDelta change = (resolution change.project).run >>= fun r ↦
      match r with
      | .error _ =>
        pure ({ project := change.project, delta := { project := change.project }
                old := change.resolved }, change)
      | .ok new => do
        let newRaw := (← cell change.project).rawEntries
        let g ← compareRaws change newRaw
          { project := change.project, delta := { project := change.project }
            old := change.resolved, new := some new }
        let g ← compareOutcomes change new g
        return (g, { project := change.project, raw := some newRaw, resolved := some new }) := by
  unfold generateDelta
  refine bind_congr fun r ↦ ?_
  cases r with
  | error failure => rfl
  | ok new =>
    refine bind_congr fun c ↦ ?_
    unfold compareRaws
    -- the outcomes are compared in the same way, whether the raw buildpath was compared or not
    have houtcomes : ∀ (g : GeneratedDelta) (now : Change), (match change.resolved with
        | none => pure (g, now)
        | some old =>
          if sameStructure old.result.entries new.result.entries then pure (g, now)
          else do
            closeChildren change.project
            modify Model.clearRoots
            let g ← compareResolved (change.fragments.getD []) old.result.entries
              new.result.entries (g.addFlags { resolvedChanged := true })
            pure (g, now) : ModelM (GeneratedDelta × Change)) =
        compareOutcomes change new g >>= fun g ↦ pure (g, now) := by
      intro g now
      unfold compareOutcomes
      cases change.resolved with
      | none => rfl
      | some old =>
        dsimp only
        split <;> rfl
    cases hraw : change.raw with
    | none => exact houtcomes _ _
    | some oldRaw => exact bind_congr fun g ↦ houtcomes g _

section Operations

theorem moves_flushMarkers [Scene R] (project : String) (cycles formats : Bool) :
    (flushMarkers project cycles formats).Moves R :=
  .modify fun m ↦ Scene.marked m _

theorem moves_createMarker [Scene R] (project : String) (problem : Status) :
    (createMarker project problem).Moves R :=
  .modify fun m ↦ Scene.marked m _

theorem moves_closeFragment [Ground R] (f : Fragment) : (closeFragment f).Moves R :=
  .modify fun m ↦ Ground.closes m _

theorem moves_compareOld [Ground R] (known : List Fragment) (new : List Entry) (g : GeneratedDelta)
    (index : Nat) (old : Entry) : (compareOld known new g index old).Moves R := by
  refine .bind_get fun m ↦ ?_
  split
  · split
    · exact .pure _
    · exact .bind (.forM fun f _ ↦ moves_closeFragment f) fun _ ↦ .pure _
  · split
    · exact .pure _
    · split <;> exact .pure _

theorem moves_compareResolved [Ground R] (known : List Fragment) (old new : List Entry) (g : GeneratedDelta) :
    (compareResolved known old new g).Moves R :=
  .bind (.foldlM (fun g item _ ↦ moves_compareOld known new g item.2 item.1) g) fun _ ↦
    .bind_get fun _ ↦ .pure _

theorem moves_compareRaw [Chained R] (hreset : ∀ (m : Model) path project,
    R m { m with registry := m.registry.reset path project }) (old new : List Entry)
    (g : GeneratedDelta) : (compareRaw old new g).Moves R := by
  unfold compareRaw
  split
  · exact .pure _
  · refine .bind (.forIn (fun e _ _ ↦ ?_) _) fun _ ↦ .pure _
    split
    · exact .bind (.modify fun m ↦ hreset m _ _) fun _ ↦ .pure _
    · exact .pure _

theorem moves_compareRaws [Chained R] (hreset : ∀ (m : Model) path project,
    R m { m with registry := m.registry.reset path project }) (change : Change) (new : List Entry)
    (g : GeneratedDelta) : (compareRaws change new g).Moves R := by
  unfold compareRaws
  cases change.raw with
  | none => exact .pure _
  | some old => exact moves_compareRaw hreset _ _ _

theorem moves_closeChildren [Ground R] (project : String) : (closeChildren project).Moves R :=
  .modify fun m ↦ Ground.closes m _

theorem moves_requestIndexing [Deaf R] (g : GeneratedDelta) : (requestIndexing g).Moves R :=
  .modify fun m ↦ Deaf.announced m _ _

theorem moves_notify [Chained R] (hlog : ∀ (m : Model) log, R m { m with log }) (delta : Delta)
    (flags : ChangeFlags) : (modify (·.notify delta flags) : ModelM PUnit).Moves R := by
  refine .modify fun m ↦ ?_
  unfold Model.notify
  generalize List.range m.listeners = listeners
  induction listeners generalizing m with
  | nil => exact Chained.refl m
  | cons listener listeners ih => exact Chained.trans (hlog m _) (ih _)

theorem moves_compareOutcomes [Ground R] (change : Change) (new : Issued) (g : GeneratedDelta) :
    (compareOutcomes change new g).Moves R := by
  unfold compareOutcomes
  split
  · exact .pure _
  · split
    · exact .pure _
    · exact .bind (moves_closeChildren change.project) fun _ ↦
        .bind (.modify fun m ↦ Ground.clearRoots m) fun _ ↦ moves_compareResolved _ _ _ _

theorem moves_refer [Chained R] (hreferences : ∀ (m : Model) w name names,
    m.workspace.setReferences name names = .ok w → R m { m with workspace := w }) (project : String)
    (old : Option Issued) (issued : Issued) : Action.Moves R (refer project old issued) := by
  intro m
  -- the references are set in the workspace as it is
  have hset : ∀ names, R m (((access (projectPath project)
      (m.workspace.setReferences project names) >>= fun w ↦ do
        modify fun m ↦ { m with workspace := w }
        return true : Action Bool).run).run m).2 := by
    intro names
    cases hw : m.workspace.setReferences project names with
    | error error => exact Chained.refl m
    | ok w => exact hreferences m w project names hw
  change R m ((if _ then pure false else _ : Action Bool).run.run m).2
  split
  · exact Chained.refl m
  · exact hset _

variable (hres : ∀ project, Action.Moves R (resolution project))

include hres

theorem moves_generateDelta [Ground R] (hreset : ∀ (m : Model) path project,
    R m { m with registry := m.registry.reset path project }) (change : Change) :
    (generateDelta change).Moves R := by
  rw [generateDelta_eq]
  refine .bind (hres change.project) fun r ↦ ?_
  cases r with
  | error failure => exact .pure _
  | ok new =>
    exact .bind (moves_cell change.project) fun c ↦
      .bind (moves_compareRaws hreset change c.rawEntries _) fun g ↦
        .bind (moves_compareOutcomes change new g) fun _ ↦ .pure _

theorem moves_updateReferences [Chained R] (hreferences : ∀ (m : Model) w name names,
    m.workspace.setReferences name names = .ok w → R m { m with workspace := w }) (project : String)
    (old : Option Issued) : Action.Moves R (updateReferences project old) :=
  .bind (hres project) fun issued ↦ moves_refer hreferences project old issued

/-- Telling of a change keeps what telling the listeners, the indexer and the references keep. -/
theorem moves_announceBy [Chained R] (hlog : ∀ (m : Model) log, R m { m with log }) {g : GeneratedDelta}
    (hrequests : (requestIndexing g).Moves R) (hreferences : ∀ (m : Model) w name names,
      m.workspace.setReferences name names = .ok w → R m { m with workspace := w }) (change : Change) :
    (announce change g).Moves R :=
  .bind (moves_notify hlog _ _) fun _ ↦ .bind hrequests fun _ ↦
    .bind (moves_updateReferences hres hreferences _ _) fun _ ↦ .pure ()

/-- Telling of a change keeps what resolutions keep. -/
theorem moves_announce [Chained R] [Deaf R] (change : Change) (g : GeneratedDelta) :
    (announce change g).Moves R :=
  moves_announceBy hres (fun m _ ↦ Deaf.announced m _ _) (moves_requestIndexing g) Deaf.references change

theorem moves_resolvedBuildpath [Chained R] (project : String) (ignoresUnresolved : Bool) :
    Action.Moves R (resolvedBuildpath project ignoresUnresolved) := by
  refine .bind (hres project) fun issued ↦ ?_
  split
  · split
    · exact .pure _
    · exact .throw _
  · exact .pure _

private theorem moves_entries [Chained R] (project : String) :
    ((resolvedBuildpath project true).run >>= fun r ↦ pure r.toOption).Moves R :=
  .bind (moves_resolvedBuildpath hres project true) fun _ ↦ .pure _

theorem moves_cycles [Chained R] (preferred : PreferredBuildpaths) :
    (cycleParticipants preferred).Moves R :=
  .bind_get fun _ ↦ .bind_get fun _ ↦ moves_cycleParticipants (moves_entries hres) preferred _

theorem moves_hasCycle [Chained R] (project : String) (entries : List Entry) :
    (hasCycle project entries).Moves R :=
  .bind_get fun _ ↦ .bind (moves_walkFrom (moves_entries hres) _ _ _ _) fun _ ↦ .pure _

theorem moves_validateCycles [Scene R] (preferred : PreferredBuildpaths) :
    (validateCycles preferred).Moves R :=
  .bind (moves_cycles hres preferred) fun _ ↦ .modify fun m ↦ Scene.marked m _

theorem moves_resolvedEntries? [Chained R] (project : String) :
    (resolvedEntries? project).Moves R :=
  .bind (hres project) fun _ ↦ .pure _

theorem moves_expanded [Chained R] (project : String) : Action.Moves R (expanded project) :=
  .bind (hres project) fun _ ↦ .lift (.bind_get fun _ ↦
    .bind (moves_walk (moves_resolvedEntries? hres) _ _ _ _ _) fun _ ↦ .pure _)

/-- Computing the fragments that a project sees keeps what resolutions and storing them keep. -/
theorem moves_visibleRoots [Ground R] {project : String}
    (hroots : ∀ (m : Model) roots, R m (m.setCell project { m.cell project with roots })) :
    Action.Moves R (visibleRoots project) := by
  refine .bind (hres project) fun issued ↦ .bind (.lift (moves_cell project)) fun c ↦ ?_
  cases c.roots with
  | some roots => exact .pure _
  | none =>
    refine .lift (.bind_get fun m ↦ .bind (moves_walk (moves_resolvedEntries? hres) _ _ _ _ _) fun w ↦
      .bind (.modify fun m ↦ ?_) fun _ ↦ .pure _)
    dsimp only [Cell.storeRoots]
    split
    · exact hroots m _
    · exact Ground.touched m project

omit hres in
private theorem moves_access {α : Type} [Chained R] (path : Path) (a : Except AccessError α) :
    Action.Moves R (access path a) := by
  cases a with
  | ok a => exact .pure a
  | error error => exact .throw _

/-- Listing the children of a fragment keeps what resolving its project keeps. -/
theorem moves_listFragment [Chained R] (f : Fragment) : Action.Moves R (listFragment f) := by
  refine .bind .get fun m ↦ .bind (moves_access _ _) fun members ↦ ?_
  dsimp only
  split
  · refine .bind (.bind (hres f.project) fun _ ↦ .pure _) fun found ↦ ?_
    split
    · exact .bind .get fun _ ↦ .pure _
    · exact .pure _
  · exact .pure _

/-- Asking for the children of a fragment keeps what resolutions and keeping the children keep. -/
theorem moves_fragmentChildren [Chained R] {f : Fragment} (hkept : ∀ (m : Model) paths,
    R m { m with children := m.children.insert (f.project, f.path) paths }) :
    Action.Moves R (fragmentChildren f) := by
  refine .bind .get fun m ↦ ?_
  split
  · exact .pure _
  · exact .bind (moves_listFragment hres f) fun paths ↦
      .bind (.lift (.modify fun m ↦ hkept m paths)) fun _ ↦ .pure _

theorem moves_fragments [CacheFrame R] (project : String) : Action.Moves R (fragments project) := by
  refine .bind (hres project) fun issued ↦ .bind (.lift (moves_cell project)) fun c ↦ ?_
  cases c.fragments with
  | some fragments => exact .pure _
  | none =>
    refine .bind .get fun m ↦ .bind (.lift (moves_caches project fun c ↦ ?_)) fun _ ↦ .pure _
    unfold Cell.storeFragments
    split <;> exact ⟨rfl, rfl, rfl, rfl⟩

theorem moves_knownFragments [CacheFrame R] (project : String) : (knownFragments project).Moves R := by
  refine .bind (moves_cell project) fun c ↦ ?_
  cases c.fragments with
  | some fragments => exact .pure _
  | none => exact .bind (moves_fragments hres project) fun _ ↦ .pure _

theorem moves_showUnresolved [Scene R] (project : String) : (showUnresolved project).Moves R := by
  refine .bind (hres project) fun r ↦ ?_
  cases r with
  | error failure => exact .pure _
  | ok issued =>
    dsimp only
    split
    · exact moves_createMarker _ _
    · exact .pure _

omit hres in
/-- What follows once a change was told keeps what showing cycles and problems keeps. -/
theorem moves_concludeBy [Ground R] {change : Change} (hcycles : (validateCycles []).Moves R)
    (hflush : (flushMarkers change.project false false).Moves R)
    (hshow : (showUnresolved change.project).Moves R) (g : GeneratedDelta) (setsUpFolders : Bool) :
    (conclude change g setsUpFolders).Moves R := by
  refine .bind ?_ fun _ ↦ .bind ?_ fun _ ↦ .bind hflush fun _ ↦ hshow
  · split
    · exact hcycles
    · exact .pure _
  · split
    · exact .modify fun m ↦ Ground.unheld m _ _
    · exact .pure _

theorem moves_conclude [Scene R] (change : Change) (g : GeneratedDelta) (setsUpFolders : Bool) :
    (conclude change g setsUpFolders).Moves R :=
  moves_concludeBy (moves_validateCycles hres []) (moves_flushMarkers _ _ _)
    (moves_showUnresolved hres change.project) g setsUpFolders

omit hres in
/-- What follows from a change keeps what telling of it, and what follows then, keep. -/
theorem moves_followUpBy [Chained R] {change : Change} {g : GeneratedDelta} {setsUpFolders : Bool}
    (hannounce : (announce change g).Moves R) (hconclude : (conclude change g setsUpFolders).Moves R) :
    (followUp change g setsUpFolders).Moves R := by
  refine .bind ?_ fun _ ↦ hconclude
  split
  · exact hannounce
  · exact .pure _

/-- What follows from a change keeps what resolutions keep. -/
theorem moves_followUp [Scene R] [Deaf R] (change : Change) (g : GeneratedDelta) (setsUpFolders : Bool) :
    (followUp change g setsUpFolders).Moves R :=
  moves_followUpBy (moves_announce hres change g) (moves_conclude hres change g setsUpFolders)

theorem moves_applyChange [Scene R] [Deaf R] (hreset : ∀ (m : Model) path project,
    R m { m with registry := m.registry.reset path project }) (change : Change)
    (setsUpFolders : Bool) : (applyChange change setsUpFolders).Moves R := by
  rw [applyChange_eq]
  exact .bind (moves_generateDelta hres hreset change) fun r ↦
    .bind (moves_followUp hres change r.1 setsUpFolders) fun _ ↦ .pure _

end Operations

end ModelM

end Buildpath
