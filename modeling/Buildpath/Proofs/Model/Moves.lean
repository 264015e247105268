import Buildpath.Model.Expansion
import Buildpath.Model.Operations

/-!
# Steps that keep a relation

A relation between the model before and after some steps is followed through the queries and
operations: each lemma says of one of them that it keeps the relation if the steps it consists of do.
The relation may be that an observation stays the same, or that an invariant is kept.
-/

namespace Buildpath

/-- A relation that steps can be chained in. -/
class Chained (R : Model → Model → Prop) : Prop where
  refl : ∀ m, R m m
  trans : ∀ {m m' m''}, R m m' → R m' m'' → R m m''

/-- Whether steps lead from every model to a related one. -/
def ModelM.Moves (R : Model → Model → Prop) {α : Type} (x : ModelM α) : Prop :=
  ∀ m, R m (x.run m).2

/-- Whether steps that can fail lead from every model to a related one, also when they fail. -/
def Action.Moves (R : Model → Model → Prop) {α : Type} (act : Action α) : Prop :=
  ModelM.Moves R act.run

variable {R : Model → Model → Prop} [Chained R] {α β : Type}

namespace ModelM.Moves

theorem pure (a : α) : Moves R (pure a : ModelM α) := fun m ↦ Chained.refl m

theorem bind {x : ModelM α} {f : α → ModelM β} (hx : Moves R x) (hf : ∀ a, Moves R (f a)) :
    Moves R (x >>= f) :=
  fun m ↦ Chained.trans (hx m) (hf _ _)

theorem get : Moves R (get : ModelM Model) := fun m ↦ Chained.refl m

omit [Chained R] in
theorem modify {f : Model → Model} (h : ∀ m, R m (f m)) : Moves R (modify f : ModelM PUnit) := h

omit [Chained R] in
theorem modifyGet {f : Model → α × Model} (h : ∀ m, R m (f m).2) :
    Moves R (modifyGet f : ModelM α) := h

/-- Steps that look at the model first. -/
theorem bind_get {f : Model → ModelM α} (hf : ∀ m, Moves R (f m)) :
    Moves R ((MonadState.get : ModelM Model) >>= f) :=
  bind get hf

theorem foldlM {f : β → α → ModelM β} {as : List α} (h : ∀ b, ∀ a ∈ as, Moves R (f b a)) (b : β) :
    Moves R (as.foldlM f b) := by
  induction as generalizing b with
  | nil => exact pure b
  | cons a as ih =>
    rw [List.foldlM_cons]
    exact bind (h b a List.mem_cons_self) fun b ↦
      ih (fun b a ha ↦ h b a (List.mem_cons_of_mem _ ha)) b

theorem forM {f : α → ModelM PUnit} {as : List α} (h : ∀ a ∈ as, Moves R (f a)) :
    Moves R (as.forM f) := by
  induction as with
  | nil => exact pure _
  | cons a as ih =>
    exact bind (h a List.mem_cons_self) fun _ ↦ ih fun a ha ↦ h a (List.mem_cons_of_mem _ ha)

theorem forIn {f : α → PUnit → ModelM (ForInStep PUnit)} {as : List α}
    (h : ∀ a ∈ as, ∀ u, Moves R (f a u)) (u : PUnit) : Moves R (forIn as u f) := by
  induction as generalizing u with
  | nil => exact pure _
  | cons a as ih =>
    rw [List.forIn_cons]
    refine bind (h a List.mem_cons_self u) fun step ↦ ?_
    cases step with
    | done u => exact pure u
    | yield u => exact ih (fun a ha ↦ h a (List.mem_cons_of_mem _ ha)) u

end ModelM.Moves

namespace Action.Moves

theorem pure (a : α) : Moves R (pure a : Action α) := ModelM.Moves.pure _

theorem throw (failure : Failure) : Moves R (throw failure : Action α) := ModelM.Moves.pure _

theorem bind {act : Action α} {f : α → Action β} (h : Moves R act) (hf : ∀ a, Moves R (f a)) :
    Moves R (act >>= f) := by
  rw [Moves, ExceptT.run_bind]
  refine ModelM.Moves.bind h fun r ↦ ?_
  cases r with
  | ok a => exact hf a
  | error failure => exact ModelM.Moves.pure _

/-- Steps that cannot fail, among such as can. -/
theorem lift {x : ModelM α} (h : ModelM.Moves R x) : Moves R (monadLift x : Action α) :=
  ModelM.Moves.bind h fun _ ↦ ModelM.Moves.pure _

theorem get : Moves R (get : Action Model) := lift ModelM.Moves.get

end Action.Moves

/-! ### Passes in any monad -/

theorem moves_entriesBehind {b : Bindings ModelM} (hv : ∀ e, ( b.variableEntry? e).Moves R)
    (hc : ∀ path, (b.container? path).Moves R) (c : ResolutionContext) (raw : Entry) :
    (entriesBehind b c raw).Moves R := by
  unfold entriesBehind
  cases raw.kind with
  | variableRef => exact .bind (hv raw) fun e ↦ by cases e <;> exact .pure _
  | container => exact .bind (hc raw.path) fun container ↦ by cases container <;> exact .pure _
  | library => exact .pure _
  | source => exact .pure _
  | project => exact .pure _

/-- A resolution keeps what its look-ups keep. -/
theorem moves_resolve {b : Bindings ModelM} (hv : ∀ e, ( b.variableEntry? e).Moves R)
    (hc : ∀ path, (b.container? path).Moves R) (c : ResolutionContext) (raw : List Entry) :
    (resolve b c raw).Moves R := by
  unfold resolve
  refine .foldlM (fun p e _ ↦ ?_) _
  refine .bind (moves_entriesBehind hv hc c e) fun r ↦ ?_
  cases r <;> exact .pure _

/-- A walk through projects keeps what reading their buildpaths keeps. -/
theorem moves_walk {σ : Type} {turn : String → Option Entry → σ → Entry → Turn σ}
    {entries? : String → ModelM (Option (List Entry))} (h : ∀ project, (entries? project).Moves R)
    (depth : Nat) (project : String) (referring : Option Entry) (es : List Entry) (s : σ) :
    (walk turn entries? depth project referring es s).Moves R := by
  induction depth generalizing project referring es s with
  | zero => exact .pure s
  | succ depth ih =>
    refine .foldlM (fun s e _ ↦ ?_) s
    split
    · exact .pure _
    · refine .bind (h _) fun found ↦ ?_
      split
      · exact .pure _
      · exact ih _ _ _ _

/-- A walk that looks for cycles keeps what reading the buildpaths keeps. -/
theorem moves_walkFrom {g : ProjectGraph ModelM} (hg : ∀ project, (g.entries? project).Moves R)
    (preferred : PreferredBuildpaths) (depth : Nat) (project : String) (w : CycleWalk) :
    (g.walkFrom preferred depth project w).Moves R := by
  induction depth generalizing project w with
  | zero => exact .pure w
  | succ depth ih =>
    have hentries : (g.entriesWith preferred project).Moves R := by
      unfold ProjectGraph.entriesWith
      cases preferred.lookup project with
      | some entries => exact .pure _
      | none => exact hg project
    unfold ProjectGraph.walkFrom
    refine .bind hentries fun entries ↦ .bind (.foldlM (fun w required _ ↦ ?_) _) fun w ↦ .pure _
    split
    · exact .pure _
    · split
      · exact .pure _
      · exact ih required w

theorem moves_cycleParticipants {g : ProjectGraph ModelM}
    (hg : ∀ project, (g.entries? project).Moves R) (preferred : PreferredBuildpaths)
    (projects : List String) : (g.cycleParticipants preferred projects).Moves R := by
  unfold ProjectGraph.cycleParticipants
  refine .bind (.foldlM (fun w project _ ↦ ?_) _) fun w ↦ .pure _
  split
  · exact .pure _
  · exact moves_walkFrom hg preferred _ project w

end Buildpath
