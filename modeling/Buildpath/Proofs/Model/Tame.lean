import Buildpath.Proofs.Model.Lookups
import Buildpath.Proofs.Model.Saving

/-!
# Initializers that replace raw buildpaths as it is allowed

Whatever initializers ask for, a relation is kept by resolutions if it is kept by beginning one, by
completing one with what the raw buildpath of the project stands for, and by replacing raw buildpaths as
it is allowed to the initializers (`moves_resolution_tame`). It need not be kept by arbitrary changes of
cells.
-/

namespace Buildpath

/-- Scripts that replace raw buildpaths only as it is allowed, whatever they are answered. -/
inductive Script.Tame (allows : String → List Entry → Prop) : Script → Prop where
  | done (container : Option Container) : Tame allows (.done container)
  | ask {call : Call} {next : call.Answer → Script}
    (isAllowed : ∀ project entries, call = .setRaw project entries → allows project entries)
    (tame : ∀ a, Tame allows (next a)) : Tame allows (.ask call next)

theorem Script.Tame.mono {allows allows' : String → List Entry → Prop}
    (h : ∀ project entries, allows project entries → allows' project entries) {s : Script}
    (hs : s.Tame allows) : s.Tame allows' := by
  induction hs with
  | done container => exact .done container
  | ask hcall _ ih => exact .ask (fun project entries heq ↦ h _ _ (hcall project entries heq)) ih

/-- Any script will do if all raw buildpaths may be replaced. -/
theorem Script.tame (s : Script) : s.Tame fun _ _ ↦ True := by
  induction s with
  | done container => exact .done container
  | ask call next ih => exact .ask (fun _ _ _ ↦ trivial) ih

namespace Model

/-- Whether initializers replace raw buildpaths only as it is allowed. -/
def Tame (allows : String → List Entry → Prop) (m : Model) : Prop :=
  ∀ path project initializer, m.initializer? path = some initializer →
    (initializer path project).Tame allows

/-- A relation between models where initializers replace raw buildpaths only as it is allowed. -/
def Tamely (allows : String → List Entry → Prop) (R : Model → Model → Prop) (m m' : Model) : Prop :=
  m.Tame allows → R m m' ∧ m'.Tame allows

/-- What resolving a raw buildpath of a project may come to, given the result that its cell kept last. -/
def Outcome (m : Model) (project : String) (raw : List Entry) (r : Resolved) : Prop :=
  ∃ find m₁, ((resolve (ModelM.bindings find project)
    (m.resolutionContext project (m.cell project).last) raw).run m₁).1.result = r

/-- A model once a resolution that began in a generation is completed. -/
def completed (m : Model) (project : String) (generation : Nat) (r : Resolved) : Model :=
  { m.setCell project ((m.cell project).complete generation ⟨m.issued, r⟩) with
    issued := m.issued + 1, resolving := m.resolving.erase project }

theorem cell_completed (m : Model) (project other : String) (generation : Nat) (r : Resolved) :
    (m.completed project generation r).cell other =
      if project = other then (m.cell project).complete generation ⟨m.issued, r⟩ else m.cell other :=
  cell_setCell m project other _

/-- Looking at a cell puts it back as it is. -/
@[simp] theorem cell_touched (m : Model) (project other : String) :
    (m.setCell project (m.cell project)).cell other = m.cell other := by
  rw [cell_setCell]
  split
  · next h => rw [h]
  · rfl

end Model

/-- A relation that is kept by all that resolutions do where initializers replace raw buildpaths only as
it is allowed. -/
class TameFrame (allows : outParam (String → List Entry → Prop)) (R : Model → Model → Prop) : Prop
    extends Backdrop R where
  noted : ∀ (m : Model) value, R m (m.addEvent (.noted value))
  registry : ∀ (m : Model) registry, R m { m with registry }
  issued : ∀ m : Model, R m { m with issued := m.issued + 1 }
  fragments : ∀ (m : Model) project fragments,
    R m (m.setCell project { m.cell project with fragments })
  loads : ∀ (m : Model) project, (m.cell project).raw = none →
    R m (m.setCell project (m.loaded project))
  begins : ∀ (m : Model) project generation, project ∉ m.resolving → (m.cell project).raw ≠ none →
    (∀ i, (m.cell project).issued? = some i → ¬ i.result.isOk) →
      R m (m.setCell project { m.cell project with state := .resolving generation })
  completes : ∀ {m m' : Model} {project raw r}, project ∉ m.resolving →
    (m.cell project).raw = some raw → (m.cell project).issued? = none →
    m.Outcome project raw.entries r → R { m with resolving := project :: m.resolving } m' →
    R m (m'.completed project (m.cell project).generation r)
  replaces : ∀ (m : Model) project entries, allows project entries →
    R m (m.setCell project ((m.cell project).setRaw entries))

variable {allows : String → List Entry → Prop} {R : Model → Model → Prop}

namespace Model

theorem Tame.mono {allows' : String → List Entry → Prop} {m : Model} (hm : m.Tame allows)
    (h : ∀ project entries, allows project entries → allows' project entries) : m.Tame allows' :=
  fun path project initializer hi ↦ (hm path project initializer hi).mono h

/-- Any initializers will do if all raw buildpaths may be replaced. -/
theorem tame (m : Model) : m.Tame fun _ _ ↦ True := fun _ _ _ _ ↦ Script.tame _

/-- Without initializers, none replaces a raw buildpath. -/
theorem Tame.of_empty {m : Model} (h : m.initializers = .empty) : m.Tame allows := by
  intro path project initializer hi
  rw [initializer?, h] at hi
  cases hfirst : path.firstSegment? <;> rw [hfirst] at hi <;> cases hi

theorem Tame.of_initializers {m m' : Model} (h : m.Tame allows) (hi : m'.initializers = m.initializers) :
    m'.Tame allows := by
  unfold Tame initializer?
  rw [hi]
  exact h

theorem Tamely.of_initializers {m m' : Model} (h : R m m') (hi : m'.initializers = m.initializers) :
    Tamely allows R m m' :=
  fun hm ↦ ⟨h, hm.of_initializers hi⟩

instance [Chained R] : Chained (Tamely allows R) where
  refl m hm := ⟨Chained.refl m, hm⟩
  trans h h' hm := ⟨Chained.trans (h hm).1 (h' (h hm).2).1, (h' (h hm).2).2⟩

instance [Backdrop R] : Backdrop (Tamely allows R) where
  volatile m _ _ _ _ := .of_initializers (Backdrop.volatile m _ _ _ _) rfl
  touched m project := .of_initializers (Ground.touched m project) rfl
  clearRoots m := .of_initializers (Ground.clearRoots m) rfl

instance [Deaf R] : Deaf (Tamely allows R) where
  announced m _ _ := .of_initializers (Deaf.announced m _ _) rfl
  references m w name names h := .of_initializers (Deaf.references m w name names h) rfl

end Model

namespace ModelM

open Model

variable [TameFrame allows R] {find : Path → String → ModelM (Option Container)}

/-- Asking for a raw buildpath fills the cell. -/
private theorem loadRaw_tame (m : Model) (project : String) :
    Tamely allows R m ((loadRaw project).run m).2 ∧
      (((loadRaw project).run m).2.cell project).raw = some ((loadRaw project).run m).1 := by
  rw [loadRaw_run_eq]
  cases hraw : (m.cell project).raw with
  | some raw =>
    refine ⟨.of_initializers (Ground.touched m project) rfl, ?_⟩
    exact (congrArg Cell.raw (m.cell_touched project project)).trans hraw
  | none =>
    let m₁ := m.setCell project (m.cell project)
    have hnone : (m₁.cell project).raw = none := by rw [cell_touched, hraw]
    have hcell := (m₁.cell_setCell project project (m₁.loaded project)).trans (if_pos rfl)
    refine ⟨.of_initializers (Chained.trans (Ground.touched m project)
      (TameFrame.loads m₁ project hnone)) rfl, (congrArg Cell.raw hcell).trans ?_⟩
    rw [raw_loaded, raw, hnone]
    rfl

theorem moves_loadRaw_tame (project : String) : (loadRaw project).Moves (Tamely allows R) :=
  fun m ↦ (loadRaw_tame m project).1

/-- A project that is not being resolved is resolved anew. -/
private theorem resolveAnew_tame (hfind : ∀ path project, (find path project).Moves (Tamely allows R))
    {m : Model} {project : String} {raw : RawBuildpath} (hidle : project ∉ m.resolving)
    (hraw : (m.cell project).raw = some raw) (hstale : (m.cell project).issued? = none) :
    Tamely allows R m ((resolveAnew find project (m.cell project).generation raw.entries
      (m.cell project).last).run m).2 := by
  have hinner := moves_resolveRaw hfind project raw.entries (m.cell project).last
    { m with resolving := project :: m.resolving }
  intro hm
  exact ⟨TameFrame.completes hidle hraw hstale ⟨find, _, rfl⟩ (hinner hm).1, (hinner hm).2⟩

/-- A resolution goes on from a cell with a raw buildpath. -/
private theorem resume_tame (hfind : ∀ path project, (find path project).Moves (Tamely allows R)) {m : Model}
    {project : String} {raw : RawBuildpath} (hraw : (m.cell project).raw = some raw) :
    Tamely allows R m (((resume find project raw ((m.cell project).begin (project ∈ m.resolving)).1).run.run
      (m.setCell project ((m.cell project).begin (project ∈ m.resolving)).2)).2) := by
  rcases (m.cell project).begin_cases (project ∈ m.resolving) with
    ⟨i, -, -, hb⟩ | ⟨-, hb⟩ | ⟨hidle, hstale, generation, hb⟩
  · rw [hb]
    exact Ground.touched m project
  · rw [hb]
    exact Chained.trans (Ground.touched m project) (.of_initializers (TameFrame.issued _) rfl)
  · rw [hb]
    have hidle : project ∉ m.resolving := of_decide_eq_false hidle
    let m₁ := m.setCell project { m.cell project with state := .resolving generation }
    have hcell : m₁.cell project = { m.cell project with state := .resolving generation } :=
      (m.cell_setCell project project _).trans (if_pos rfl)
    have hraw₁ : (m₁.cell project).raw = some raw := (congrArg Cell.raw hcell).trans hraw
    have hanew := resolveAnew_tame hfind (m := m₁) hidle hraw₁ (by rw [hcell]; rfl)
    have hcurrent : (m.cell project).raw.getD raw = raw := by rw [hraw, Option.getD_some]
    rw [hcell, ← hcurrent] at hanew
    exact Chained.trans (.of_initializers (TameFrame.begins m project generation hidle
      (hraw ▸ Option.some_ne_none raw) hstale) rfl) hanew

/-- A resolution keeps what the look-ups of containers keep. -/
theorem moves_resolutionBy_tame (hfind : ∀ path project, (find path project).Moves (Tamely allows R))
    (project : String) : Action.Moves (Tamely allows R) (resolutionBy find project) := by
  rw [resolutionBy_eq]
  refine .bind (moves_requireProject project) fun _ m ↦ ?_
  obtain ⟨hload, hraw⟩ := loadRaw_tame (R := R) m project
  let m₁ := ((loadRaw project).run m).2
  have hcell := m₁.cell_touched project project
  have hresume := @resume_tame allows R _ find hfind (m₁.setCell project (m₁.cell project)) project _
    ((congrArg Cell.raw hcell).trans hraw)
  rw [hcell] at hresume
  exact Chained.trans hload (Chained.trans (Ground.touched m₁ project) hresume)

private theorem answer_tame {resolve : String → Action Issued}
    (hfind : ∀ path project, (find path project).Moves (Tamely allows R))
    (hresolve : ∀ project, Action.Moves (Tamely allows R) (resolve project)) {call : Call}
    (hcall : ∀ project entries, call = .setRaw project entries → allows project entries) :
    (answer find resolve call).Moves (Tamely allows R) := by
  have hregistry : ∀ f : Registry → Registry, (modifyRegistry f).Moves (Tamely allows R) :=
    fun f ↦ .modify fun m ↦ .of_initializers (TameFrame.registry m _) rfl
  cases call with
  | find path project => exact hfind path project
  | peek path project => exact .bind_get fun _ ↦ .pure _
  | previous path project => exact .bind_get fun _ ↦ .pure _
  | put path containers => exact hregistry _
  | reset path project => exact hregistry _
  | removeProject project => exact hregistry _
  | freeze => exact hregistry _
  | containers project => exact .bind_get fun _ ↦ .pure _
  | resolve project => exact .bind (hresolve project) fun _ ↦ .pure _
  | setRaw project entries =>
    exact .modify fun m ↦ .of_initializers
      (TameFrame.replaces m project entries (hcall project entries rfl)) rfl
  | note value => exact .modify fun m ↦ .of_initializers (TameFrame.noted m value) rfl

private theorem runScript_tame {resolve : String → Action Issued}
    (hfind : ∀ path project, (find path project).Moves (Tamely allows R))
    (hresolve : ∀ project, Action.Moves (Tamely allows R) (resolve project)) {script : Script}
    (h : script.Tame allows) : (runScript find resolve script).Moves (Tamely allows R) := by
  induction h with
  | done container => exact .pure _
  | ask hcall _ ih => exact .bind (answer_tame hfind hresolve hcall) fun a ↦ ih a

/-- Looking up a container keeps what all resolutions keep. -/
theorem moves_findContainer_tame (path : Path) (project : String) :
    (findContainer path project).Moves (Tamely allows R) := by
  have hregistry : ∀ f : Registry → Registry, (modifyRegistry f).Moves (Tamely allows R) :=
    fun f ↦ .modify fun m ↦ .of_initializers (TameFrame.registry m _) rfl
  have within : ∀ depth path project, (findContainerWithin depth path project).Moves (Tamely allows R) := by
    intro depth
    induction depth with
    | zero => exact fun _ _ ↦ .pure _
    | succ depth ih =>
      intro path project m hm
      rw [findContainerWithin_run]
      split
      · exact ⟨Chained.refl m, hm⟩
      · exact ⟨Chained.refl m, hm⟩
      · split
        · exact ⟨Chained.refl m, hm⟩
        · next initializer hi =>
          have hresolve : ∀ q, Action.Moves (Tamely allows R)
              (resolutionWithin depth (findContainerWithin depth) q) :=
            fun q ↦ moves_resolutionWithin (moves_resolutionBy_tame ih q)
          have hscript := runScript_tame ih hresolve (hm path project initializer hi)
          have hmake : (makeContainer (findContainerWithin depth)
              (resolutionWithin depth (findContainerWithin depth)) path project
              (initializer path project)).Moves (Tamely allows R) :=
            .bind (hregistry _) fun _ ↦ .bind hscript fun made ↦ .bind_get fun m ↦ by
              split
              · exact .pure _
              · exact .bind (hregistry _) fun _ ↦ .pure _
          exact hmake m hm
  exact .bind_get fun m ↦ within _ path project

/-- A resolution keeps a relation that is kept by beginning and by completing one, and by what is allowed
to initializers. -/
theorem moves_resolution_tame (project : String) : Action.Moves (Tamely allows R) (resolution project) :=
  moves_resolutionBy_tame moves_findContainer_tame project

/-! ### Queries and changes -/

theorem moves_fragments_tame (project : String) : Action.Moves (Tamely allows R) (fragments project) := by
  refine .bind (moves_resolution_tame project) fun issued ↦ .bind (.lift (moves_cell project)) fun c ↦ ?_
  cases c.fragments with
  | some fragments => exact .pure _
  | none =>
    refine .bind .get fun m ↦ .bind (.lift (.modify fun m ↦ .of_initializers ?_ rfl)) fun _ ↦ .pure _
    dsimp only [Cell.storeFragments]
    split
    · exact TameFrame.fragments m project _
    · exact Ground.touched m project

theorem moves_knownFragments_tame (project : String) : (knownFragments project).Moves (Tamely allows R) := by
  refine .bind (moves_cell project) fun c ↦ ?_
  cases c.fragments with
  | some fragments => exact .pure _
  | none => exact .bind (moves_fragments_tame project) fun _ ↦ .pure _

/-- Computing the fragments that a project sees keeps a relation that is kept by storing them. -/
theorem moves_visibleRoots_tame {project : String}
    (hroots : ∀ (m : Model) roots, R m (m.setCell project { m.cell project with roots })) :
    Action.Moves (Tamely allows R) (visibleRoots project) :=
  moves_visibleRoots moves_resolution_tame fun m roots ↦ .of_initializers (hroots m roots) rfl

theorem moves_inspect_tame (project : String) : (inspect project).Moves (Tamely allows R) :=
  .bind (moves_flushMarkers _ _ _) fun _ ↦ .bind (moves_loadRaw_tame _) fun _ ↦
    .bind (moves_resolution_tame project) fun _ ↦ moves_knownFragments_tame project

theorem moves_replaceEntries_tame {project : String} {entries : List Entry} (h : allows project entries)
    (fragments : Option (List Fragment)) :
    (replaceEntries project entries fragments).Moves (Model.Tamely allows R) := by
  have hchange : ∀ resolved, (changeBy project (·.setRaw entries) fragments resolved).Moves
      (Model.Tamely allows R) := fun _ ↦
    .bind (moves_cell project) fun _ ↦ .bind (.modify fun m ↦
      .of_initializers (TameFrame.replaces m project entries h) rfl) fun _ ↦ .pure _
  exact .bind (moves_cell project) fun c ↦ .bind (hchange _) fun _ ↦
    .bind (.modify fun m ↦ Ground.clearRoots m) fun _ ↦ .pure _

theorem moves_mentions_tame (project : String) (test : Entry → Bool) :
    (mentions project test).Moves (Tamely allows R) :=
  moves_mentions moves_loadRaw_tame project test

theorem moves_rebinding_tame (path : Path) (project : String) (container : Option Container) :
    (rebinding path project container).Moves (Tamely allows R) := by
  refine .bind (moves_mentions_tame project _) fun isMentioned ↦ ?_
  split
  · exact .bind_get fun _ ↦ .pure _
  · exact .pure _

end ModelM

end Buildpath
