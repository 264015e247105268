import Buildpath.Proofs.Model.Resolving

/-!
# Look-ups of containers

Where initializers are steady, looking up a container comes to what a table of containers says, and
binds it (`looksUp_findContainer`). So a look-up can be repeated, and none changes what another one
finds, though the initializers may look up containers and resolve projects in turn.
-/

namespace Buildpath

variable {make : Path → String → Option Container} {m m' : Model} {project : String}

namespace ModelM

variable {find : Path → String → ModelM (Option Container)} {resolve : String → Action Issued}

theorem resolutionBy_missing (find : Path → String → ModelM (Option Container))
    (h : ¬ m.workspace.projectExists project) :
    (resolutionBy find project).runOn m = (.error (.projectNotFound project), m) := by
  rw [resolutionBy, Action.bind_runOn, requireProject_missing h]

/-- A project that comes to the same when it is resolved again is firm once that was done. -/
theorem firm_of_resolves {i : Issued} {es : List Entry} {r : Resolved}
    (h : m.Rests make project es r) (htouched : m.Touched make project m')
    (hresolves : m.Resolves make project i m') :
    m'.Firm make project es r ∧ i.result.known = r.known := by
  obtain ⟨raw, hraw, hes⟩ := h.raw
  obtain ⟨last, hstate, hlast, hknown⟩ := h.resolved
  have hloaded := Model.loaded_of_raw hraw
  cases hresolves with
  | cached hissued hok hcell =>
    rw [hloaded] at hissued hcell
    have hi : i = last := by
      rw [Cell.issued?, hstate] at hissued
      exact (Option.some.inj hissued).symm
    refine ⟨⟨?_, .inl fun j hj ↦ ?_⟩, hi ▸ hknown⟩
    · obtain ⟨cells, registry, log, folders, issued, rfl, hg⟩ := htouched.rest
      exact (h.of_grows hg).of_cell hcell h.isIdle
    · rw [hcell, hissued] at hj
      exact Option.some.inj hj ▸ hok
  | reentrant hin _ _ => exact absurd hin h.isIdle
  | anew _ _ hresult hcell hfixed =>
    rw [Model.raw, hraw, Option.getD_some, hes] at hresult hfixed
    rw [hloaded, hlast] at hresult
    rw [hloaded] at hcell
    have hi : i.result.known = r.known := hresult ▸ h.again last hknown
    refine ⟨⟨?_, .inr hfixed⟩, hi⟩
    obtain ⟨cells, registry, log, folders, issued, rfl, hg⟩ := htouched.rest
    exact ⟨h.isIdle, ⟨raw, (congrArg Cell.raw hcell).trans hraw, hes⟩,
      ⟨i, congrArg Cell.state hcell, congrArg Cell.last hcell, hi⟩, (h.of_grows hg).again⟩

/-- What counts stays, and what does not count comes to the same, so resolving a project changes no more
than a look-up. -/
theorem bound_of_resolves {i : Issued} (htouched : m.Touched make project m')
    (hresolves : m.Resolves make project i m') : m.Bound make m' := by
  refine ⟨htouched.rest, htouched.raws, fun other hm ↦ ?_, fun other es r hm ↦ ?_⟩
  · by_cases ho : project = other
    · subst ho
      obtain ⟨raw, hraw⟩ := Option.ne_none_iff_exists'.mp hm.1
      have hloaded := Model.loaded_of_raw hraw
      cases hresolves with
      | cached _ _ hcell => exact hcell.trans hloaded
      | reentrant _ _ hcell => exact hcell.trans hloaded
      | anew hidle hstale _ _ _ =>
        rcases hm.2 with hin | ⟨j, hj, hok⟩
        · exact absurd hin hidle
        · exact absurd hok (hstale j (by rw [hloaded, hj]))
    · exact htouched.holds other ho hm
  · by_cases ho : project = other
    · subst ho
      exact (firm_of_resolves hm.toRests htouched hresolves).1
    · exact htouched.firm other es r ho hm

/-- Resolving a project only binds. -/
theorem binds_resolutionBy (hfind : LooksUp make find) (project : String) :
    Action.Moves (Model.Binds make) (resolutionBy find project) := by
  intro m hs
  by_cases hexists : m.workspace.projectExists project
  · obtain ⟨i, m', hrun, htouched, hresolves⟩ := resolutionBy_steady hfind hs hexists
    have hm' : ((resolutionBy find project).run.run m).2 = m' := congrArg Prod.snd hrun
    rw [hm']
    exact bound_of_resolves htouched hresolves
  · have hm' : ((resolutionBy find project).run.run m).2 = m :=
      congrArg Prod.snd (resolutionBy_missing find hexists)
    rw [hm']
    exact .refl m

/-! ### Initializers -/

private theorem binds_answer (hfind : ∀ path project, (find path project).Moves (Model.Binds make))
    (hresolve : ∀ project, Action.Moves (Model.Binds make) (resolve project)) {call : Call}
    (hc : call.IsHarmless) : (answer find resolve call).Moves (Model.Binds make) := by
  cases call with
  | find path project => exact hfind path project
  | resolve project => exact .bind (hresolve project) fun _ ↦ .pure _
  | peek path project => exact .bind_get fun _ ↦ .pure _
  | previous path project => exact .bind_get fun _ ↦ .pure _
  | containers project => exact .bind_get fun _ ↦ .pure _
  | freeze => exact .modify fun m _ ↦ .of_bindings rfl
  | note value => exact .modify fun m _ ↦ .of_bindings rfl
  | put | reset | removeProject | setRaw => cases hc

private theorem binds_runScript (hfind : ∀ path project, (find path project).Moves (Model.Binds make))
    (hresolve : ∀ project, Action.Moves (Model.Binds make) (resolve project)) {script : Script}
    {made : Option Container} (h : script.Makes made) :
    (runScript find resolve script).Moves (Model.Binds make) := by
  induction h with
  | done => exact .pure _
  | ask hc _ ih => exact .bind (binds_answer hfind hresolve hc) ih

private theorem runScript_made {script : Script} {made : Option Container} (h : script.Makes made)
    (m : Model) : ((runScript find resolve script).run m).1 = made := by
  induction h generalizing m with
  | done => rfl
  | ask _ _ ih => exact ih _ _

/-! ### Containers that are made -/

/-- Marking a container of a project that nothing is bound to, and binding what was made for it in the
end, does not change what the containers of a firm project hold: none is made for it, or the project does
not mention it. -/
private theorem firm_started {path : Path} (hb : m.registry.bindings.find? (project, path) = none)
    {other : String} {es : List Entry} {r : Resolved} (h : m.Firm make other es r)
    (hf : m.registry.Fixed make other es) :
    ({ m with registry := m.registry.start path project } : Model).Firm make other es r := by
  refine h.of_registry (fun _ e he hkind hnone ↦ ?_) fun e he hkind ↦ ?_
  · rw [Registry.find?_start] at hnone
    split at hnone
    · cases hnone
    · exact hf e he hkind hnone
  · rw [Registry.container?, Registry.container?, Registry.find?_start]
    by_cases hkey : (project, path) = (other, e.path)
    · obtain ⟨rfl, rfl⟩ := Prod.mk.inj hkey
      rw [if_pos rfl, hb, hf e he hkind hb]
      rfl
    · rw [if_neg hkey]

private theorem firm_finished {path : Path} {made : Option Container}
    (hb : m.registry.bindings.find? (project, path) = some .inProgress) {other : String}
    {es : List Entry} {r : Resolved} (h : m.Firm make other es r)
    (hmade : ∀ e ∈ es, e.kind = .container → (project, path) = (other, e.path) →
      made = none ∧ make path project = none) :
    ({ m with registry := m.registry.set path project made } : Model).Firm make other es r := by
  refine h.of_registry (fun hf e he hkind hnone ↦ ?_) fun e he hkind ↦ ?_
  · rw [Registry.find?_set] at hnone
    split at hnone
    · next hkey =>
      obtain ⟨rfl, rfl⟩ := Prod.mk.inj hkey
      exact (hmade e he hkind rfl).2
    · exact hf e he hkind hnone
  · rw [Registry.container?, Registry.container?, Registry.find?_set]
    by_cases hkey : (project, path) = (other, e.path)
    · obtain ⟨hnone, hunmade⟩ := hmade e he hkind hkey
      obtain ⟨rfl, rfl⟩ := Prod.mk.inj hkey
      rw [if_pos rfl, hb, hnone]
      change containerEntries (make e.path project) = _
      rw [hunmade]
      rfl
    · rw [if_neg hkey]

/-- Makes a container that is not bound and binds it. -/
def makeContainer (find : Path → String → ModelM (Option Container)) (resolve : String → Action Issued)
    (path : Path) (project : String) (script : Script) : ModelM (Option Container) := do
  modifyRegistry (·.start path project)
  finish path project (← runScript find resolve script)

theorem finish_run_eq (path : Path) (project : String) (made : Option Container) (m : Model) :
    (finish path project made).run m = StateT.run (match m.registry.peek? path project with
      | some container => pure (some container)
      | none => do
        modifyRegistry (·.set path project made)
        pure made : ModelM (Option Container)) m := rfl

/-- What was made is bound if nothing else was bound meanwhile. -/
private theorem finish_run {path : Path} (made : Option Container)
    (hb : m.registry.bindings.find? (project, path) = some .inProgress) :
    (finish path project made).run m =
      (made, { m with registry := m.registry.set path project made }) := by
  rw [finish_run_eq, Registry.peek?, hb]
  rfl

/-- While a container is made, the model is one that only bindings were added to since it was marked. -/
private theorem makeContainer_run
    (hfind : ∀ path project, (find path project).Moves (Model.Binds make))
    (hresolve : ∀ project, Action.Moves (Model.Binds make) (resolve project)) {path : Path}
    {script : Script} (hmakes : script.Makes (make path project)) (hs : m.Steady make) :
    ∃ m', (makeContainer find resolve path project script).run m = (make path project,
        { m' with registry := m'.registry.set path project (make path project) }) ∧
      ({ m with registry := m.registry.start path project } : Model).Bound make m' ∧
      m'.registry.bindings.find? (project, path) = some .inProgress := by
  obtain ⟨m₁, hm₁⟩ : ∃ m₁ : Model, m₁ =
      { m with registry := m.registry.start path project } := ⟨_, rfl⟩
  have hbound : m₁.Bound make ((runScript find resolve script).run m₁).2 :=
    binds_runScript hfind hresolve hmakes m₁ (hm₁ ▸ ⟨hs.made, hs.unmade, hs.nesting⟩)
  generalize hm₂ : ((runScript find resolve script).run m₁).2 = m₂ at hbound
  have hprogress : m₂.registry.bindings.find? (project, path) = some .inProgress := by
    have hstart : m₁.registry.bindings.find? (project, path) = some .inProgress := by
      rw [hm₁]
      exact (Registry.find?_start m.registry path project _).trans (if_pos rfl)
    rcases hbound.grows path project with h | ⟨hnone, -⟩
    · rw [h, hstart]
    · rw [hstart] at hnone
      cases hnone
  refine ⟨m₂, ?_, hm₁ ▸ hbound, hprogress⟩
  have hscript : (runScript find resolve script).run m₁ = (make path project, m₂) :=
    Prod.ext (runScript_made hmakes _) hm₂
  have hfinish : (makeContainer find resolve path project script).run m =
      (finish path project ((runScript find resolve script).run m₁).1).run
        ((runScript find resolve script).run m₁).2 := by
    rw [hm₁]
    rfl
  rw [hfinish, hscript, finish_run _ hprogress]

/-- What was not bound is bound as it is made. Meanwhile it cannot be bound in another way, since a
binding in progress stays. -/
private theorem makeContainer_steady
    (hfind : ∀ path project, (find path project).Moves (Model.Binds make))
    (hresolve : ∀ project, Action.Moves (Model.Binds make) (resolve project)) {path : Path}
    {script : Script} (hmakes : script.Makes (make path project)) (hs : m.Steady make)
    (hb : m.registry.bindings.find? (project, path) = none) :
    ∃ m', (makeContainer find resolve path project script).run m = (make path project, m') ∧
      m.Bound make m' ∧
      (m'.registry.bindings.find? (project, path) = none → make path project = none) := by
  obtain ⟨m₂, hrun, hbound, hprogress⟩ := makeContainer_run hfind hresolve hmakes hs
  have hrest : ∃ cells registry log folders issued,
      ({ m₂ with registry := m₂.registry.set path project (make path project) } : Model) =
        { m with cells, registry, log, folders, issued } ∧ m.registry.Grows make registry := by
    obtain ⟨cells, registry, log, folders, issued, rfl, hg⟩ := hbound.rest
    exact ⟨cells, _, log, folders, issued, rfl, .of_start hg hb⟩
  have hholds : ∀ other, m.Holds other → m₂.cell other = m.cell other :=
    fun other hm ↦ hbound.holds other ⟨hm.1, hm.2⟩
  refine ⟨_, hrun, ⟨hrest, fun other raw hraw ↦ hbound.raws other raw hraw, hholds,
    fun other es r hm ↦ ?_⟩, fun hnone ↦ ?_⟩
  · rcases hm.fixed with hok | hf
    · -- nobody resolves the project again while the container is being made
      have hcell := hholds other (hm.toRests.holds hok)
      obtain ⟨cells, registry, log, folders, issued, hsame, hg⟩ := hrest
      rw [hsame]
      exact (hm.of_grows hg).of_cell ((congrArg (Model.cell · other) hsame.symm).trans hcell) hm.isIdle
    · refine firm_finished hprogress (hbound.firm other es r (firm_started hb hm hf))
        fun e he hkind hkey ↦ ?_
      obtain ⟨rfl, rfl⟩ := Prod.mk.inj hkey
      have hunmade := hf e he hkind hb
      exact ⟨hunmade, hunmade⟩
  · have hset := Registry.find?_set m₂.registry path project (make path project) (project, path)
    rw [if_pos rfl] at hset
    cases hc : make path project with
    | none => rfl
    | some c =>
      rw [hc] at hset
      rw [hc, hset] at hnone
      cases hnone

/-! ### Look-ups that nest -/

/-- A look-up that may nest takes the container that is bound, or has it made. -/
theorem findContainerWithin_run (depth : Nat) (path : Path) (project : String) (m : Model) :
    (findContainerWithin (depth + 1) path project).run m =
      StateT.run (match m.registry.bindings.find? (project, path) with
        | some (.bound container) => pure (some container)
        | some .inProgress => pure (some (Container.placeholder path))
        | none =>
          match m.initializer? path with
          | none => pure none
          | some initializer => makeContainer (findContainerWithin depth)
              (resolutionWithin depth (findContainerWithin depth)) path project
              (initializer path project) : ModelM (Option Container)) m := rfl

/-- A look-up of a container that is bound, or that is made when the look-ups of its initializer only
bind. -/
private theorem looksUp_succ {depth : Nat}
    (hfind : ∀ path project, (findContainerWithin depth path project).Moves (Model.Binds make))
    (hresolve : ∀ project, Action.Moves (Model.Binds make)
      (resolutionWithin depth (findContainerWithin depth) project)) :
    LooksUp make (findContainerWithin (depth + 1)) := by
  have hall : ∀ path project m, m.Steady make → ∃ m',
      (findContainerWithin (depth + 1) path project).run m =
        (m.registry.container? make path project, m') ∧ m.Bound make m' ∧
      (m'.registry.bindings.find? (project, path) = none → make path project = none) := by
    intro path project m hs
    rw [findContainerWithin_run, Registry.container?]
    cases hb : m.registry.bindings.find? (project, path) with
    | some binding =>
      cases binding with
      | bound container => exact ⟨m, rfl, .refl m, fun h ↦ absurd (hb.symm.trans h) (Option.some_ne_none _)⟩
      | inProgress =>
        exact ⟨m, rfl, .refl m, fun h ↦ absurd (hb.symm.trans h) (Option.some_ne_none _)⟩
    | none =>
      cases hi : m.initializer? path with
      | none =>
        have hunmade := hs.unmade path project hi
        exact ⟨m, Prod.ext hunmade.symm rfl, .refl m, fun _ ↦ hunmade⟩
      | some initializer =>
        exact makeContainer_steady hfind hresolve (hs.made path project initializer hi) hs hb
  refine ⟨fun path project m hs ↦ ?_, fun path project m hs ↦ ?_, fun path project m hs ↦ ?_⟩
  · obtain ⟨m', hm', hbound, -⟩ := hall path project m hs
    rw [hm']
    exact hbound
  · obtain ⟨m', hm', -⟩ := hall path project m hs
    rw [hm']
  · obtain ⟨m', hm', -, hfixed⟩ := hall path project m hs
    rw [hm']
    exact hfixed

/-- A look-up that may nest finds the container of the project, and binds it. -/
theorem looksUp_findContainerWithin (depth : Nat) :
    LooksUp make (findContainerWithin (depth + 1)) := by
  induction depth with
  | zero => exact looksUp_succ (fun _ _ ↦ .pure none) fun _ ↦ .throw _
  | succ depth ih => exact looksUp_succ ih.binds (binds_resolutionBy ih)

/-- A look-up finds the container of the project, and binds it. -/
theorem looksUp_findContainer : LooksUp make findContainer := by
  have hdepth : ∀ m : Model, m.Steady make → ∃ depth, m.depth = depth + 1 := by
    intro m hs
    obtain ⟨n, hn⟩ := Nat.exists_eq_succ_of_ne_zero (Nat.ne_of_gt hs.nesting)
    exact ⟨n + m.workspace.pathBound, by rw [Model.depth, hn]; omega⟩
  have hrun : ∀ path project (m : Model), m.Steady make → ∃ depth,
      (findContainer path project).run m = (findContainerWithin (depth + 1) path project).run m := by
    intro path project m hs
    obtain ⟨depth, hd⟩ := hdepth m hs
    exact ⟨depth, by rw [← hd]; rfl⟩
  refine ⟨fun path project m hs ↦ ?_, fun path project m hs ↦ ?_, fun path project m hs ↦ ?_⟩
  · obtain ⟨depth, hd⟩ := hrun path project m hs
    rw [hd]
    exact (looksUp_findContainerWithin depth).binds path project m hs
  · obtain ⟨depth, hd⟩ := hrun path project m hs
    rw [hd]
    exact (looksUp_findContainerWithin depth).finds path project m hs
  · obtain ⟨depth, hd⟩ := hrun path project m hs
    rw [hd]
    exact (looksUp_findContainerWithin depth).fixes path project m hs

/-- Resolving a project that exists gives a result. -/
theorem resolution_steady (hs : m.Steady make) (hexists : m.workspace.projectExists project) :
    ∃ i m', (resolution project).runOn m = (.ok i, m') ∧ m.Touched make project m' ∧
      m.Resolves make project i m' :=
  resolutionBy_steady looksUp_findContainer hs hexists

end ModelM

end Buildpath
