import Buildpath.Proofs.Model.Calm
import Buildpath.Proofs.Model.Completing
import Buildpath.Proofs.Model.Fragments
import Buildpath.Proofs.Model.Still

/-!
# Kept fragments of other projects

The fragments that a project sees are kept with its own result, though they depend on the results of the
projects that it requires. A result that counts stays until a change drops all that is kept
(`Model.Calm`), but one with an unbound entry is replaced whenever its project is asked for. So what is kept
is what would be computed anew as long as the projects that are required come to results without unbound
entries where it is computed (`visibleRoots_are_fresh`), and not in general.
-/

namespace Buildpath

variable {project : String} {m m' m'' : Model} {α β : Type}

namespace Model

/-- Whether nothing is being resolved, no initializer replaces a raw buildpath, and the valid results are
those that were kept last. -/
structure Quiet (m : Model) : Prop where
  tame : m.Tame fun _ _ ↦ False
  idle : m.resolving = []
  latest : m.Latest

theorem Quiet.of_calm (h : m.Quiet) (hcalm : m.Calm project m') (htame : m'.Tame fun _ _ ↦ False) :
    m'.Quiet :=
  ⟨htame, hcalm.resolving.trans h.idle, hcalm.latest h.latest⟩

/-- The entries of a project that has a result without an unbound entry, or that there are none for a project
that is missing. -/
def bound? (m : Model) (project : String) : Option (Option (List Entry)) :=
  if m.workspace.projectExists project then
    ((m.cell project).issued?.filter (·.result.isOk)).map fun i ↦ some i.result.entries
  else some none

theorem bound?_eq_some {x : Option (List Entry)} : m.bound? project = some x ↔
    (m.workspace.projectExists project ∧ ∃ i, (m.cell project).issued? = some i ∧ i.result.isOk ∧
        x = some i.result.entries) ∨
      ¬ m.workspace.projectExists project ∧ x = none := by
  unfold bound?
  by_cases hexists : m.workspace.projectExists project
  · rw [if_pos hexists]
    simp only [hexists, Option.map_eq_some_iff, Option.filter_eq_some_iff, not_true_eq_false, false_and,
      or_false, true_and]
    exact ⟨fun ⟨i, ⟨hi, hok⟩, hx⟩ ↦ ⟨i, hi, hok, hx.symm⟩, fun ⟨i, hi, hok, hx⟩ ↦ ⟨i, ⟨hi, hok⟩, hx.symm⟩⟩
  · rw [if_neg hexists]
    exact ⟨fun hx ↦ .inr ⟨hexists, (Option.some.inj hx).symm⟩,
      fun hx ↦ hx.elim (fun hx ↦ absurd hx.1 hexists) fun hx ↦ congrArg some hx.2.symm⟩

/-- Results that count stay. -/
theorem Calm.bound? (h : m.Calm project m') (hm : m.Latest) {other : String} {x : Option (List Entry)}
    (hx : m.bound? other = some x) : m'.bound? other = some x := by
  rw [bound?_eq_some] at hx ⊢
  rw [h.workspace]
  refine hx.imp_left fun ⟨hexists, i, hi, hok, hx⟩ ↦ ⟨hexists, i, ?_, hok, hx⟩
  obtain ⟨-, -, hstate, -⟩ := h.holds other ⟨(hm other i hi).1, .inr ⟨i, hi, hok⟩⟩
  rw [Cell.issued?, hstate]
  exact hi

/-- The turns of a walk do not depend on cells. -/
theorem Calm.turn (h : m.Calm project m') : FragmentWalk.turn m' = FragmentWalk.turn m := by
  have hterms : m.SameTerms m' := ⟨by rw [h.workspace], h.settings, h.factories⟩
  unfold FragmentWalk.turn FragmentWalk.visit requiredProject?
  rw [hterms.fragment?, h.workspace]

theorem Calm.depth (h : m.Calm project m') : m'.depth = m.depth := by
  rw [Model.depth, Model.depth, h.nesting, h.workspace]

/-- The walk that fragments are computed by, from the entries that a project is resolved to. -/
def walkRoots {M : Type → Type} [Monad M] (m : Model) (project : String)
    (entries? : String → M (Option (List Entry))) (i : Issued) : M FragmentWalk :=
  walk (FragmentWalk.turn m) entries? m.depth project none i.result.entries (.ofProject project)

theorem Calm.walkRoots {M : Type → Type} [Monad M] {other : String} (h : m.Calm other m') (project : String)
    (entries? : String → M (Option (List Entry))) (i : Issued) :
    m'.walkRoots project entries? i = m.walkRoots project entries? i := by
  rw [Model.walkRoots, h.turn, h.depth, Model.walkRoots]

/-- A walk finds what it found before calm steps. -/
theorem Calm.walkRoots_bound? {other : String} {i : Issued} {w : FragmentWalk} (h : m.Calm other m')
    (hm : m.Latest) (hw : m.walkRoots project m.bound? i = some w) :
    m'.walkRoots project m'.bound? i = some w := by
  rw [h.walkRoots]
  exact walk_mono (fun _ _ hx ↦ h.bound? hm hx) hw

end Model

namespace ModelM

/-- Resolutions are calm. -/
theorem quiet_resolution {other : String} {r : Except Failure Issued} (hm : m.Quiet)
    (h : (resolution other).runOn m = (r, m')) : m'.Quiet ∧ m.Calm project m' := by
  have hmoves := moves_resolution_tame (R := Model.Calm project) other m hm.tame
  obtain rfl : ((resolution other).run.run m).2 = m' := congrArg Prod.snd h
  exact ⟨hm.of_calm hmoves.1 hmoves.2, hmoves.1⟩

/-- A project that is resolved has the result afterwards. -/
theorem issued?_of_resolution {i : Issued} (hm : m.Quiet)
    (h : (resolution project).runOn m = (.ok i, m')) : (m'.cell project).issued? = some i :=
  (issued?_of_resolution_tame (hm.tame.mono fun _ _ ↦ False.elim) (hm.idle ▸ List.not_mem_nil) h).1

/-- A project that has a result without an unbound entry keeps it. -/
theorem resolvedEntries?_of_bound {other : String} {x : Option (List Entry)} (hm : m.Quiet)
    (hx : m.bound? other = some x) : ((resolvedEntries? other).run m).1 = x := by
  have hread : ((resolvedEntries? other).run m).1 =
      ((resolution other).runOn m).1.toOption.map fun i ↦ i.result.entries := rfl
  rw [hread]
  rcases Model.bound?_eq_some.mp hx with ⟨hexists, i, hi, hok, rfl⟩ | ⟨hmissing, rfl⟩
  · obtain ⟨raw, hraw⟩ := Option.ne_none_iff_exists'.mp (hm.latest other i hi).1
    obtain ⟨cells, hrun, -⟩ := resolutionBy_runOn findContainer hexists
    have hb : ((m.loaded other).begin (other ∈ m.resolving)).1 = .cached i := by
      rw [Model.loaded_of_raw hraw, Cell.begin, hi]
      exact congrArg Prod.fst (if_pos hok)
    rw [hb] at hrun
    rw [resolution, hrun]
    rfl
  · rw [resolution_missing hmissing]
    rfl

/-! ### Walks -/

/-- The entries that a project is resolved to. Fails if one of its raw entries has no binding. -/
def boundEntries? (project : String) : OptionT ModelM (Option (List Entry)) := OptionT.mk do
  match ← (resolution project).run with
  | .ok issued => return if issued.result.isOk then some (some issued.result.entries) else none
  | .error _ => return some none

/-- Reading the buildpath of a project, if it has a result without an unbound entry or is missing. -/
theorem boundEntries?_eq_some {other : String} {x : Option (List Entry)}
    (h : (boundEntries? other).run.run m = (some x, m')) :
    (∃ i, (resolution other).runOn m = (.ok i, m') ∧ i.result.isOk ∧ x = some i.result.entries) ∨
      (∃ failure, (resolution other).runOn m = (.error failure, m')) ∧ x = none := by
  have hrun : (boundEntries? other).run.run m = StateT.run (match ((resolution other).runOn m).1 with
      | .ok issued => return if issued.result.isOk then some (some issued.result.entries) else none
      | .error _ => return some none : ModelM _) ((resolution other).runOn m).2 := rfl
  rw [hrun] at h
  rcases hres : (resolution other).runOn m with ⟨failure | i, m₁⟩
  · rw [hres] at h
    cases h
    exact .inr ⟨⟨failure, rfl⟩, rfl⟩
  · rw [hres] at h
    by_cases hok : i.result.isOk
    · simp only [if_pos hok] at h
      cases h
      exact .inl ⟨i, rfl, hok, rfl⟩
    · simp only [if_neg hok] at h
      cases h

theorem resolvedEntries?_run (m : Model) (other : String) : (resolvedEntries? other).run m =
    (((resolution other).runOn m).1.toOption.map fun i ↦ i.result.entries,
      ((resolution other).runOn m).2) := rfl

/-- Steps that may fail go on if they do not fail. -/
private theorem optionT_bind_run {x : OptionT ModelM α} {f : α → OptionT ModelM β} {b : β}
    (h : (x >>= f).run.run m = (some b, m')) :
    ∃ a m₁, x.run.run m = (some a, m₁) ∧ (f a).run.run m₁ = (some b, m') := by
  rw [OptionT.run_bind, Option.elimM, StateT.run_bind] at h
  rcases hx : x.run.run m with ⟨_ | a, m₁⟩
  · rw [hx] at h
    cases h
  · rw [hx] at h
    exact ⟨a, m₁, rfl, h⟩

/-- Whether steps that fail where there is no binding do the same as others if they do not fail. -/
def Tells (x : OptionT ModelM α) (y : ModelM α) : Prop :=
  ∀ m a m', x.run.run m = (some a, m') → y.run m = (a, m')

/-- Whether steps that fail where there is no binding are calm, and come to what can be read from the results
that count in the end, if they do not fail. -/
def Leaves (project : String) (m'' : Model) (x : OptionT ModelM α) (z : Option α) : Prop :=
  ∀ m a m', m.Quiet → x.run.run m = (some a, m') →
    m'.Quiet ∧ m.Calm project m' ∧ (m'.Calm project m'' → z = some a)

variable {σ : Type} {turn : String → Option Entry → σ → Entry → Turn σ}

theorem walk_tells (depth : Nat) (other : String) (referring : Option Entry) (es : List Entry) (s : σ) :
    Tells (walk turn boundEntries? depth other referring es s)
      (walk turn resolvedEntries? depth other referring es s) := by
  refine walk_related (R := @Tells) (fun a m b m' h ↦ ?_) (fun hx hf m b m' h ↦ ?_)
    (fun q m x m' h ↦ ?_) depth other referring es s
  · cases h
    rfl
  · obtain ⟨a, m₁, hrun, h⟩ := optionT_bind_run h
    rw [StateT.run_bind, hx m a m₁ hrun]
    exact hf a m₁ b m' h
  · rw [resolvedEntries?_run]
    rcases boundEntries?_eq_some h with ⟨i, hres, -, rfl⟩ | ⟨⟨failure, hres⟩, rfl⟩ <;> rw [hres] <;> rfl

theorem walk_leaves (depth : Nat) (other : String) (referring : Option Entry) (es : List Entry) (s : σ) :
    Leaves project m'' (walk turn boundEntries? depth other referring es s)
      (walk turn m''.bound? depth other referring es s) := by
  refine walk_related (R := fun {α} ↦ @Leaves α project m'') (fun a m b m' hm h ↦ ?_)
    (fun hx hf m b m' hm h ↦ ?_) (fun q m x m' hm h ↦ ?_) depth other referring es s
  · cases h
    exact ⟨hm, Chained.refl m, fun _ ↦ rfl⟩
  · obtain ⟨a, m₁, hrun, h⟩ := optionT_bind_run h
    obtain ⟨hm₁, hcalm₁, hz⟩ := hx m a m₁ hm hrun
    obtain ⟨hm', hcalm', hz'⟩ := hf a m₁ b m' hm₁ h
    refine ⟨hm', Chained.trans hcalm₁ hcalm', fun hcalm ↦ ?_⟩
    rw [hz (Chained.trans hcalm' hcalm)]
    exact hz' hcalm
  · rcases boundEntries?_eq_some h with ⟨i, hres, hok, rfl⟩ | ⟨⟨failure, hres⟩, rfl⟩
    · obtain ⟨hm', hcalm⟩ := quiet_resolution hm hres
      obtain ⟨⟨⟩, _, hproject, -⟩ := Action.bind_eq_ok.mp hres
      have hexists := (requireProject_eq_ok hproject).2
      refine ⟨hm', hcalm, fun hlater ↦ hlater.bound? hm'.latest (Model.bound?_eq_some.mpr (.inl ?_))⟩
      exact ⟨hcalm.workspace ▸ hexists, i, issued?_of_resolution hm hres, hok, rfl⟩
    · obtain ⟨hm', hcalm⟩ := quiet_resolution hm hres
      refine ⟨hm', hcalm, fun hlater ↦ hlater.bound? hm'.latest (Model.bound?_eq_some.mpr (.inr ?_))⟩
      rw [hcalm.workspace]
      refine ⟨fun hexists ↦ ?_, rfl⟩
      obtain ⟨i, m'', hsucceeds⟩ := resolution_succeeds hexists
      rw [hres] at hsucceeds
      cases hsucceeds

/-- Whether steps come to what is read from the results that count in a model, where these were left. -/
def Finds (project : String) (m : Model) (z : Option α) (y : ModelM α) : Prop :=
  ∀ a, z = some a → Comes (fun m' ↦ m'.Quiet ∧ m.Calm project m') y a

theorem walk_finds (hm : m.Quiet) (depth : Nat) (other : String) (referring : Option Entry)
    (es : List Entry) (s : σ) : Finds project m (walk turn m.bound? depth other referring es s)
      (walk turn resolvedEntries? depth other referring es s) := by
  refine walk_related (R := fun {α} ↦ @Finds α project m) (fun a b h ↦ ?_) (fun hx hf b h ↦ ?_)
    (fun q x hx m' hm' ↦ ?_) depth other referring es s
  · cases h
    exact .pure a
  · obtain ⟨a, ha, hb⟩ := Option.bind_eq_some_iff.mp h
    exact .bind (hx a ha) (hf a b hb)
  · have hres := moves_resolution_tame (R := Model.Calm project)
    obtain ⟨hcalm, htame⟩ := moves_resolvedEntries? hres q m' hm'.1.tame
    exact ⟨_, Prod.ext (resolvedEntries?_of_bound hm'.1 (hm'.2.bound? hm.latest hx)) rfl,
      hm'.1.of_calm hcalm htame, Chained.trans hm'.2 hcalm⟩

/-- Whether the projects that are followed come to results without unbound entries where the fragments that
a project sees are computed. -/
def followsBound (project : String) : Action Bool := do
  let issued ← resolution project
  let _ ← cell project
  let w ← ((← get).walkRoots project boundEntries? issued).run
  return w.isSome

/-- Fragments are computed by a walk and kept. -/
theorem computeRoots_run (m : Model) (project : String) (i : Issued) : (computeRoots project i).run m =
    let r := (m.walkRoots project resolvedEntries? i).run m
    (r.1.roots, r.2.setCell project ((r.2.cell project).storeRoots i r.1.roots)) := rfl

/-- The fragments that a project sees are the ones that are kept, or they are computed. -/
theorem visibleRoots_runOn {i : Issued} (h : (resolution project).runOn m = (.ok i, m')) :
    (visibleRoots project).runOn m = match (m'.cell project).roots with
      | some roots => (.ok roots, m'.setCell project (m'.cell project))
      | none => (.ok ((computeRoots project i).run (m'.setCell project (m'.cell project))).1,
          ((computeRoots project i).run (m'.setCell project (m'.cell project))).2) := by
  rw [visibleRoots, Action.bind_runOn, h]
  dsimp only
  rw [Action.bind_runOn, Action.runOn_lift]
  have hcell : (cell project).run m' = (m'.cell project, m'.setCell project (m'.cell project)) := rfl
  rw [hcell]
  dsimp only
  cases (m'.cell project).roots <;> rfl

end ModelM

namespace Model

open ModelM

/-- Whether the fragments that are kept for a project are those that its entries and the results that count
lead to. -/
structure UpToDate (project : String) (m : Model) : Prop where
  quiet : m.Quiet
  roots : ∀ roots, (m.cell project).roots = some roots → ∃ i w, (m.cell project).last = some i ∧
    m.walkRoots project m.bound? i = some w ∧ w.roots = roots

theorem UpToDate.of_none (h : m.Quiet) (hnone : (m.cell project).roots = none) : m.UpToDate project :=
  ⟨h, fun _ hroots ↦ absurd (hnone.symm.trans hroots) nofun⟩

/-- Calm steps keep what is kept up to date. -/
theorem UpToDate.of_calm (h : m.UpToDate project) (hcalm : m.Calm project m')
    (htame : m'.Tame fun _ _ ↦ False) : m'.UpToDate project := by
  have hm' := h.quiet.of_calm hcalm htame
  rcases hcalm.roots with hnone | ⟨hroots, hlast⟩
  · exact .of_none hm' hnone
  · refine ⟨hm', fun roots hkept ↦ ?_⟩
    obtain ⟨i, w, hi, hw, hwroots⟩ := h.roots roots (hroots ▸ hkept)
    exact ⟨i, w, hlast.trans hi, hcalm.walkRoots_bound? h.quiet.latest hw, hwroots⟩

end Model

namespace ModelM

open Model

/-- Storing the fragments that were computed from the result that a project still has. -/
private theorem upToDate_stored {i : Issued} {w : FragmentWalk} (hm : m.Quiet)
    (hi : (m.cell project).issued? = some i) (hw : m.walkRoots project m.bound? i = some w) :
    (m.setCell project { m.cell project with roots := some w.roots }).UpToDate project := by
  -- for any other project this is a calm step
  obtain ⟨other, hother⟩ : ∃ other, project ≠ other := by
    by_cases hempty : project = ""
    · exact ⟨"p", hempty ▸ by decide⟩
    · exact ⟨"", hempty⟩
  have hcalm : m.Calm other (m.setCell project { m.cell project with roots := some w.roots }) :=
    .of_roots (absurd · hother) m
  have hcell := (m.cell_setCell project project { m.cell project with roots := some w.roots }).trans
    (if_pos rfl)
  refine ⟨hm.of_calm hcalm hm.tame, fun roots hroots ↦
    ⟨i, w, ?_, hcalm.walkRoots_bound? hm.latest hw, ?_⟩⟩
  · rw [hcell]
    exact (hm.latest project i hi).2.1
  · rw [hcell] at hroots
    exact Option.some.inj hroots

/-- Where the projects that are followed come to results without unbound entries, the fragments that are
computed and kept are up to date. -/
private theorem upToDate_computeRoots {i : Issued} {w : FragmentWalk} (h : m.UpToDate project)
    (hi : (m.cell project).issued? = some i)
    (hw : (m.walkRoots project boundEntries? i).run.run m = (some w, m')) :
    ((computeRoots project i).run m).2.UpToDate project := by
  obtain ⟨hm', hcalm, hfound⟩ := walk_leaves _ _ _ _ _ m w m' h.quiet hw
  have hfound : m.walkRoots project m'.bound? i = some w := hfound (Chained.refl m')
  have hrun : (m.walkRoots project resolvedEntries? i).run m = (w, m') := walk_tells _ _ _ _ _ m w m' hw
  rw [computeRoots_run, hrun]
  dsimp only
  have h' : m'.UpToDate project := h.of_calm hcalm hm'.tame
  unfold Cell.storeRoots
  split
  · next hcurrent =>
    obtain ⟨j, hj, hnumber⟩ := (Option.any_eq_true _ _).mp hcurrent
    have hnumber : j.number = i.number := of_decide_eq_true hnumber
    have hji : j = i := by
      rcases hcalm.numbers j hj with hsame | hlater
      · exact Option.some.inj (hsame.symm.trans hi)
      · have hlt := (h.quiet.latest project i hi).2.2
        omega
    subst hji
    exact upToDate_stored hm' hj ((hcalm.walkRoots project _ _).trans hfound)
  · exact h'.of_calm (Ground.touched m' project) hm'.tame

/-- Where the projects that are followed come to results without unbound entries, looking at the fragments
that a project sees leaves what is kept up to date. -/
theorem upToDate_visibleRoots (h : m.UpToDate project)
    (hbound : ((followsBound project).runOn m).1 ≠ .ok false) :
    ((visibleRoots project).runOn m).2.UpToDate project := by
  rcases hres : (resolution project).runOn m with ⟨failure | i, m₁⟩
  · obtain ⟨hm₁, hcalm₁⟩ := quiet_resolution h.quiet hres
    rw [visibleRoots, Action.bind_runOn, hres]
    exact h.of_calm hcalm₁ hm₁.tame
  · obtain ⟨hm₁, hcalm₁⟩ := quiet_resolution h.quiet hres
    -- looking at the cell puts it back as it is
    obtain ⟨m₂, hm₂⟩ : ∃ m₂, m₂ = m₁.setCell project (m₁.cell project) := ⟨_, rfl⟩
    have hcalm₂ : m₁.Calm project m₂ := hm₂ ▸ Ground.touched m₁ project
    have hquiet₂ : m₂.Quiet := hm₁.of_calm hcalm₂ (hm₂ ▸ hm₁.tame)
    have h₂ : m₂.UpToDate project := h.of_calm (Chained.trans hcalm₁ hcalm₂) hquiet₂.tame
    rw [visibleRoots_runOn hres, ← hm₂]
    cases hroots : (m₁.cell project).roots with
    | some roots => exact h₂
    | none =>
      have hi : (m₂.cell project).issued? = some i := by
        rw [hm₂, Model.cell_touched]
        exact issued?_of_resolution h.quiet hres
      have hfollows : ((followsBound project).runOn m).1 =
          .ok ((m₂.walkRoots project boundEntries? i).run.run m₂).1.isSome := by
        rw [followsBound, Action.bind_runOn, hres, hm₂]
        rfl
      rcases hw : (m₂.walkRoots project boundEntries? i).run.run m₂ with ⟨_ | w, m₃⟩
      · rw [hw] at hfollows
        exact absurd hfollows hbound
      · exact upToDate_computeRoots h₂ hi hw

end ModelM

/-! ### Changes -/

namespace Model

theorem Quiet.of_cleared (h : m.Quiet) (hcleared : m.StaysCleared project m') : m'.Quiet :=
  ⟨h.tame.of_initializers hcleared.initializers, hcleared.resolving.trans h.idle,
    hcleared.latest h.latest⟩

/-- Steps that leave what is kept for a project up to date. -/
def KeepsUpToDate (project : String) (m m' : Model) : Prop := m.UpToDate project → m'.UpToDate project

instance : Chained (KeepsUpToDate project) where
  refl _ := id
  trans h h' := h' ∘ h

end Model

namespace ModelM

open Model

theorem keepsUpToDate_of_calm {x : ModelM α} (h : x.Moves (Tamely (fun _ _ ↦ False) (Calm project))) :
    x.Moves (KeepsUpToDate project) := fun m hm ↦
  hm.of_calm (h m hm.quiet.tame).1 (h m hm.quiet.tame).2

private theorem staysCleared {x : ModelM α} (h : x.Moves (Tamely (fun _ _ ↦ True) (StaysCleared project)))
    (hm : m.Quiet) : m.StaysCleared project (x.run m).2 :=
  (h m (hm.tame.mono fun _ _ ↦ False.elim)).1

/-- Replacing a raw buildpath in the model drops what is kept for all projects. -/
theorem upToDate_replaceRaw (hm : m.Quiet) (project other : String) (entries : List Entry) (saves : Bool) :
    ((replaceRaw other entries saves).run m).2.Quiet ∧
      (((replaceRaw other entries saves).run m).2.cell project).roots = none := by
  let change := inspect other >>= replaceEntries other entries
  have hchange : change.Moves (Tamely (fun _ _ ↦ True) (StaysCleared project)) :=
    .bind (moves_inspect_tame other) fun fragments ↦ moves_replaceEntries_tame trivial fragments
  have hm₁ := hm.of_cleared (staysCleared hchange hm)
  have hnone : ((change.run m).2.cell project).roots = none :=
    congrArg Cell.roots (Model.cell_clearRoots _ project)
  have hrest : StaysCleared project (change.run m).2 _ :=
    staysCleared (moves_applyChange_tame (change.run m).1 saves) hm₁
  exact ⟨hm₁.of_cleared hrest, hrest.roots hnone⟩

/-- Resolving projects anew drops what is kept for all projects. -/
theorem upToDate_refresh (hm : m.Quiet) (projects : List (String × Option Issued)) :
    ((refresh projects).run m).2.UpToDate project := by
  have hcleared : m.StaysCleared project _ := staysCleared (moves_refresh_tame projects) hm
  exact .of_none (hm.of_cleared hcleared) (congrArg Cell.roots (Model.cell_clearRoots _ project))

/-- Writing the file of a project. -/
private theorem upToDate_saveFile {other : String} {entries : List Entry} (hm : m.Quiet)
    (hnone : (m.cell project).roots = none) (hsave : (saveFile other entries).runOn m = (.ok (), m')) :
    m'.UpToDate project := by
  obtain ⟨isWritten, w, -, rfl⟩ := saveFile_eq_ok hsave
  refine .of_none ⟨hm.tame, hm.idle, ?_⟩ ?_
  · have hlatest : Latest { m with workspace := w } := hm.latest.of_cells (fun _ ↦ rfl) (Nat.le_refl _)
    exact hlatest.setCell fun i hi ↦ ⟨hi, id, rfl⟩
  · rw [Model.cell_setCell]
    split
    · next heq => exact heq ▸ hnone
    · exact hnone

/-- Closing a project drops what is kept for all projects. -/
private theorem upToDate_closeProject (hm : m.Quiet) (other : String) :
    ((closeProject other).run m).2.UpToDate project := by
  let m' := ((closeProject other).run m).2
  have hcell : ∀ q, m'.cell q = if other = q then {} else (m.cell q).clearRoots := cell_closeProject m other
  have hlatest : m'.Latest := by
    intro q i hi
    rw [hcell] at hi ⊢
    split at hi
    · cases hi
    · next hne =>
      rw [if_neg hne]
      exact hm.latest q i hi
  have hnone : (m'.cell project).roots = none := by
    rw [hcell]
    split <;> rfl
  exact .of_none ⟨hm.tame, hm.idle, hlatest⟩ hnone

end ModelM

/-- Operations leave what is kept for a project up to date, if the projects that it requires come to results
without unbound entries where it is asked for. -/
theorem Operation.upToDate {op : Operation} (h : m.UpToDate project)
    (hbound : op = .ask (.visibleRoots project) →
      ((ModelM.followsBound project).runOn m).1 ≠ .ok false) : (op.apply m).UpToDate project := by
  have hheld : ∀ (m : Model) held, m.KeepsUpToDate project { m with held } := fun m _ h ↦
    h.of_calm (Backdrop.volatile m _ _ _ _) h.quiet.tame
  have hregistry : ∀ (m : Model) registry, m.KeepsUpToDate project { m with registry } := fun m _ h ↦
    h.of_calm (TameFrame.registry m _) h.quiet.tame
  have hres : ∀ other, Action.Moves (Model.KeepsUpToDate project) (ModelM.resolution other) := fun other ↦
    ModelM.keepsUpToDate_of_calm (ModelM.moves_resolution_tame other)
  have hrebinding : ∀ path other container,
      (ModelM.rebinding path other container).Moves (Model.KeepsUpToDate project) :=
    fun path other container ↦
      ModelM.keepsUpToDate_of_calm (ModelM.moves_rebinding_tame path other container)
  cases op with
  | setRaw other entries saves =>
    obtain ⟨begun, m₂, held, held', hbegun, hm', hcases⟩ := ModelM.setRaw_cases m other entries saves
    have hm' : (Operation.setRaw other entries saves).apply m = { m₂ with held := held' } := hm'
    have hbegun : begun.UpToDate project := hbegun ▸ hheld m held h
    obtain ⟨hm₁, hnone⟩ := ModelM.upToDate_replaceRaw hbegun.quiet project other entries saves
    rw [hm']
    refine hheld m₂ held' ?_
    rcases hcases with rfl | rfl | ⟨-, hsave⟩
    · exact hbegun
    · exact .of_none hm₁ hnone
    · exact ModelM.upToDate_saveFile hm₁ hnone hsave
  | setContainer path containers =>
    exact ModelM.moves_setContainer hheld hres hrebinding hregistry
      (fun projects m hm ↦ ModelM.upToDate_refresh hm.quiet projects) path containers m h
  | setVariables values =>
    refine ModelM.moves_setVariables hheld hres
      (fun other test ↦ ModelM.keepsUpToDate_of_calm (ModelM.moves_mentions_tame other test))
      (fun set projects m hm ↦ ?_) values m h
    exact ModelM.upToDate_refresh
      (m := { m with variableValues := set m.variableValues }) ⟨hm.quiet.tame, hm.quiet.idle, hm.quiet.latest⟩
      projects
  | close other => exact ModelM.upToDate_closeProject h.quiet other
  | put path containers => exact hregistry m _ h
  | ask query =>
    by_cases hasked : query = .visibleRoots project
    · subst hasked
      exact ModelM.upToDate_visibleRoots h (hbound rfl)
    · refine ModelM.keepsUpToDate_of_calm (ModelM.moves_query query fun other hother ↦ ?_) m h
      have hne : other ≠ project := fun heq ↦ hasked (heq ▸ hother)
      exact ModelM.moves_visibleRoots_tame fun m roots ↦ .of_roots (absurd · hne) m

namespace ModelM

/-- The fragments that a project sees, computed whether any are kept for it or not. -/
def recomputedRoots (project : String) : Action VisibleRoots := do
  let issued ← resolution project
  modifyCell project Cell.clearRoots
  computeRoots project issued

theorem recomputedRoots_runOn {i : Issued} (h : (resolution project).runOn m = (.ok i, m')) :
    ((recomputedRoots project).runOn m).1 =
      .ok ((computeRoots project i).run (m'.setCell project (m'.cell project).clearRoots)).1 := by
  rw [recomputedRoots, Action.bind_runOn, h]
  rfl

/-- Where the results that count suffice, they are what the fragments are computed from. -/
private theorem computeRoots_of_walk {i : Issued} {w : FragmentWalk} (hm : m.Quiet) (hm' : m'.Quiet)
    (hcalm : m.Calm project m') (hw : m.walkRoots project m.bound? i = some w) :
    ((computeRoots project i).run m').1 = w.roots := by
  obtain ⟨m'', hrun, -⟩ := walk_finds hm _ _ _ _ _ w hw m' ⟨hm', hcalm⟩
  have hrun : (m.walkRoots project resolvedEntries? i).run m' = (w, m'') := hrun
  rw [computeRoots_run, hcalm.walkRoots, hrun]

/-- What is kept and up to date is what is computed anew. -/
theorem visibleRoots_upToDate (h : m.UpToDate project) (hexists : m.workspace.projectExists project) :
    ∃ roots, ((visibleRoots project).runOn m).1 = .ok roots ∧
      ((recomputedRoots project).runOn m).1 = .ok roots := by
  obtain ⟨i, m₁, hres⟩ := resolution_succeeds hexists
  rw [visibleRoots_runOn hres, recomputedRoots_runOn hres]
  cases hroots : (m₁.cell project).roots with
  | none =>
    have hsame : (m₁.cell project).clearRoots = m₁.cell project := by
      rw [Cell.clearRoots, ← hroots]
    rw [hsame]
    exact ⟨_, rfl, rfl⟩
  | some roots =>
    refine ⟨roots, rfl, ?_⟩
    obtain ⟨hm₁, hcalm₁⟩ : m₁.Quiet ∧ m.Calm project m₁ := quiet_resolution h.quiet hres
    obtain ⟨j, w, hj, hw, hwroots⟩ := (h.of_calm hcalm₁ hm₁.tame).roots roots hroots
    obtain rfl : i = j := Option.some.inj
      ((hm₁.latest project i (issued?_of_resolution h.quiet hres)).2.1.symm.trans hj)
    have hcalm₂ : m₁.Calm project (m₁.setCell project (m₁.cell project).clearRoots) :=
      .of_roots (fun _ ↦ rfl) m₁
    rw [computeRoots_of_walk hm₁ (hm₁.of_calm hcalm₂ hm₁.tame) hcalm₂ hw, hwroots]

end ModelM

/-- However buildpaths, bindings and variables are changed and asked for, the fragments that a project sees
are those that are computed anew, if the projects that it requires came to results without unbound entries
each time that it was asked for them. -/
theorem visibleRoots_are_fresh {m₀ : Model} (htame : m₀.Tame fun _ _ ↦ False) (hidle : m₀.resolving = [])
    (hnew : ∀ other, (m₀.cell other).issued? = none ∧ (m₀.cell other).roots = none)
    (hreaches : m₀.Reaches (fun m op ↦ op = .ask (.visibleRoots project) →
      ((ModelM.followsBound project).runOn m).1 ≠ .ok false) m)
    (hexists : m.workspace.projectExists project) :
    ∃ roots, ((ModelM.visibleRoots project).runOn m).1 = .ok roots ∧
      ((ModelM.recomputedRoots project).runOn m).1 = .ok roots := by
  have h : m.UpToDate project := by
    clear hexists
    induction hreaches with
    | start =>
      refine .of_none ⟨htame, hidle, fun other i hi ↦ ?_⟩ (hnew project).2
      rw [(hnew other).1] at hi
      cases hi
    | next _ hbound ih => exact Operation.upToDate ih hbound
  exact ModelM.visibleRoots_upToDate h hexists

namespace Model

/-- A project that requires another one, which exports a container that is not bound yet. -/
def unboundCore : Model :=
  .ofBuildpaths [("p", [.project (.parse "/q")]),
    ("q", [{ kind := .container, path := .parse "LIBS/core", exported := true }])]

/-- Binds the container to a library of the interpreter. -/
def bindsCore : Operation :=
  .put (.parse "LIBS/core") [("q", some (.ofEntries (.parse "LIBS/core") .application
    [{ kind := .library, path := .parse (builtinMark ++ "/core"), exported := true }]))]

/-- The fragments that the project sees are asked for once the container is bound. -/
def askedAfterBinding : Model := (Operation.ask (.visibleRoots "p")).apply (bindsCore.apply unboundCore)

/-- The fragments that the project sees are asked for before the container is bound. -/
def askedBeforeBinding : Model := bindsCore.apply ((Operation.ask (.visibleRoots "p")).apply unboundCore)

theorem fresh_askedAfterBinding :
    ((ModelM.visibleRoots "p").runOn askedAfterBinding).1.toOption.map VisibleRoots.fragments =
      some [⟨"q", .parse (builtinMark ++ "/core"), .builtin⟩] ∧
    ∃ roots, ((ModelM.visibleRoots "p").runOn askedAfterBinding).1 = .ok roots ∧
      ((ModelM.recomputedRoots "p").runOn askedAfterBinding).1 = .ok roots := by
  have hnew : ∀ other, (unboundCore.cell other).issued? = none ∧ (unboundCore.cell other).roots = none := by
    intro other
    obtain ⟨raw, hcell⟩ := cell_ofBuildpaths _ other
    rw [unboundCore, hcell]
    exact ⟨rfl, rfl⟩
  refine ⟨by decide +kernel, visibleRoots_are_fresh (.of_empty rfl) rfl hnew
    (.next (.next .start fun heq ↦ nomatch heq) fun _ hfalse ↦ ?_) (by decide +kernel)⟩
  exact absurd (congrArg Except.toOption hfalse) (by decide +kernel)

/-- Fragments that were computed while a container of a required project was not bound are kept after it is
bound. -/
theorem fragments_before_binding_are_kept :
    unboundCore.Reaches (fun _ _ ↦ True) askedBeforeBinding ∧ askedBeforeBinding.resolving = [] ∧
    ((ModelM.visibleRoots "p").runOn askedBeforeBinding).1.toOption.map VisibleRoots.fragments = some [] ∧
    ((ModelM.recomputedRoots "p").runOn askedBeforeBinding).1.toOption.map VisibleRoots.fragments =
      some [⟨"q", .parse (builtinMark ++ "/core"), .builtin⟩] :=
  ⟨.next (.next .start trivial) trivial, by decide +kernel, by decide +kernel, by decide +kernel⟩

end Model

end Buildpath
