import Buildpath.Proofs.Model.Moves
import Buildpath.Proofs.Model.Runs
import Buildpath.Proofs.Resolution

/-!
# Steady initializers

Initializers are steady if each makes the same container whenever it runs, and only looks at the model
and resolves projects meanwhile. What they ask for changes a model in a limited way (`Model.Bound`):
bindings that are added are what is made, results that count stay, and those that do not count come to
the same when they are computed again.
-/

namespace Buildpath

/-- Whether a call leaves the bindings in force and the raw buildpaths alone. -/
def Call.IsHarmless : Call → Bool
  | find .. | peek .. | previous .. | containers _ | freeze | resolve _ | note _ => true
  | put .. | reset .. | removeProject _ | setRaw .. => false

/-- Scripts that make a container, whatever they are answered, and make harmless calls only. -/
inductive Script.Makes (made : Option Container) : Script → Prop where
  | done : Makes made (.done made)
  | ask {call : Call} {next : call.Answer → Script} (isHarmless : call.IsHarmless)
    (makes : ∀ a, Makes made (next a)) : Makes made (.ask call next)

/-- The initializer for a container path. -/
def Model.initializer? (m : Model) (path : Path) : Option Initializer :=
  path.firstSegment?.bind m.initializers.find?

/-- What is made for a path and a project does not depend on anything else: it is what a table says, and
nothing where there is no initializer. Look-ups may nest. -/
structure Model.Steady (make : Path → String → Option Container) (m : Model) : Prop where
  made : ∀ path project initializer, m.initializer? path = some initializer →
    (initializer path project).Makes (make path project)
  unmade : ∀ path project, m.initializer? path = none → make path project = none
  nesting : 0 < m.nesting

/-- Without initializers nothing is made. -/
theorem Model.Steady.of_empty {m : Model} (h : m.initializers = .empty) (hn : 0 < m.nesting) :
    m.Steady fun _ _ ↦ none := by
  have hinitializer : ∀ path, m.initializer? path = none := by
    intro path
    rw [initializer?, h]
    cases path.firstSegment? <;> rfl
  refine ⟨fun path project initializer hi ↦ ?_, fun _ _ _ ↦ rfl, hn⟩
  rw [hinitializer] at hi
  cases hi

/-! ### Bindings -/

namespace Registry

variable {make : Path → String → Option Container} {r r' r'' : Registry} {path : Path}
  {project : String} {es : List Entry}

/-- A binding that was set or dropped. -/
theorem find?_set (r : Registry) (path : Path) (project : String) (container : Option Container)
    (key : BindingKey) : (r.set path project container).bindings.find? key =
      if (project, path) = key then container.map .bound else r.bindings.find? key := by
  cases container with
  | some container => exact Table.find?_insert _ _ _ _
  | none => exact Table.find?_erase _ _ _

theorem peek?_set (r : Registry) (path : Path) (project : String) (container : Option Container) :
    (r.set path project container).peek? path project = container := by
  rw [peek?, find?_set, if_pos rfl]
  cases container <;> rfl

theorem find?_of_peek? {c : Container} (h : r.peek? path project = some c) :
    r.bindings.find? (project, path) = some (.bound c) := by
  obtain ⟨binding, hbinding, hbound⟩ := Option.bind_eq_some_iff.mp h
  cases binding with
  | inProgress => cases hbound
  | bound c' => exact hbinding.trans (congrArg _ (congrArg _ (Option.some.inj hbound)))

/-- A binding that is being made. -/
theorem find?_start (r : Registry) (path : Path) (project : String) (key : BindingKey) :
    (r.start path project).bindings.find? key =
      if (project, path) = key then some .inProgress else r.bindings.find? key :=
  Table.find?_insert _ _ _ _

/-- The container of a project: the one it is bound to, or what is made for it. -/
def container? (make : Path → String → Option Container) (r : Registry) (path : Path)
    (project : String) : Option Container :=
  match r.bindings.find? (project, path) with
  | some (.bound container) => some container
  | some .inProgress => some (Container.placeholder path)
  | none => make path project

/-- Bindings stay as they are, and new ones are what is made. -/
def Grows (make : Path → String → Option Container) (r r' : Registry) : Prop :=
  ∀ path project, r'.bindings.find? (project, path) = r.bindings.find? (project, path) ∨
    r.bindings.find? (project, path) = none ∧
      ∃ c, make path project = some c ∧ r'.bindings.find? (project, path) = some (.bound c)

theorem Grows.refl (r : Registry) : Grows make r r := fun _ _ ↦ .inl rfl

theorem Grows.trans (h : Grows make r r') (h' : Grows make r' r'') : Grows make r r'' := by
  intro path project
  rcases h' path project with h' | ⟨hnone, hmade⟩
  · rw [h']
    exact h path project
  · rcases h path project with h | ⟨-, c, -, hbound⟩
    · exact .inr ⟨h ▸ hnone, hmade⟩
    · rw [hbound] at hnone
      cases hnone

/-- A container that is not bound is bound as it is made in the end. -/
theorem Grows.of_start {path : Path} (h : Grows make (r.start path project) r')
    (hb : r.bindings.find? (project, path) = none) :
    Grows make r (r'.set path project (make path project)) := by
  intro path' project'
  rw [find?_set]
  by_cases hkey : (project, path) = (project', path')
  · obtain ⟨rfl, rfl⟩ := Prod.mk.inj hkey
    rw [if_pos rfl, hb]
    cases make path project with
    | none => exact .inl rfl
    | some c => exact .inr ⟨rfl, c, rfl, rfl⟩
  · have hother := (find?_start r path project (project', path')).trans (if_neg hkey)
    rw [if_neg hkey]
    exact hother ▸ h path' project'

/-- Growing does not change the containers of projects. -/
theorem Grows.container?_eq (h : Grows make r r') (path : Path) (project : String) :
    r'.container? make path project = r.container? make path project := by
  rw [container?, container?]
  rcases h path project with h | ⟨hnone, c, hmade, hbound⟩
  · rw [h]
  · rw [hnone, hbound, hmade]

/-- Whether the containers of a buildpath are bound, apart from those that nothing is made for. -/
def Fixed (make : Path → String → Option Container) (r : Registry) (project : String)
    (es : List Entry) : Prop :=
  ∀ e ∈ es, e.kind = .container → r.bindings.find? (project, e.path) = none →
    make e.path project = none

theorem Fixed.of_grows (hf : r.Fixed make project es) (h : Grows make r r') :
    r'.Fixed make project es := by
  intro e he hkind hnone
  rcases h e.path project with hsame | ⟨-, c, -, hbound⟩
  · exact hf e he hkind (hsame ▸ hnone)
  · rw [hbound] at hnone
    cases hnone

end Registry

variable {make : Path → String → Option Container} {m m' m'' : Model} {project : String}
  {es : List Entry} {r : Resolved}

namespace Model

/-! ### What a buildpath stands for -/

/-- What variables and containers of a project are bound to, where look-ups change nothing. -/
def steadyBindings (make : Path → String → Option Container) (m : Model) (project : String) :
    Bindings Id where
  variableEntry? e := pure (m.variableValues.entry? m.workspace e)
  container? path := pure (m.registry.container? make path project)

/-- What a raw buildpath of a project stands for, given the last result. -/
def outcome (make : Path → String → Option Container) (m : Model) (project : String)
    (raw : List Entry) (last : Option Issued) : Resolved :=
  Buildpath.outcome (m.steadyBindings make project) (m.resolutionContext project last) raw

/-- Resolving a buildpath again comes to the same, if its entries are bound to the same. -/
theorem outcome_again {last : Option Issued} {i : Issued}
    (hc : (m.resolutionContext project last).Agree (m'.resolutionContext project (some i)))
    (hv : ∀ e ∈ es, e.kind = .variableRef →
      m'.variableValues.entry? m'.workspace e = m.variableValues.entry? m.workspace e)
    (hk : ∀ e ∈ es, e.kind = .container →
      containerEntries (m'.registry.container? make e.path project) =
        containerEntries (m.registry.container? make e.path project))
    (hi : i.result.known = (m.outcome make project es last).known) :
    (m'.outcome make project es (some i)).known = (m.outcome make project es last).known := by
  refine Buildpath.outcome_again hc (fun e he ↦ ?_) (Resolved.roots_eq hi)
  exact entriesBehind_congr hc (fun hkind ↦ congrArg pure (hv e he hkind)) (hk e he)

/-! ### Results that stay -/

/-- Whether the cell of a project stays as it is: its raw buildpath is known, and it is being resolved or
has a result that counts. -/
def Holds (m : Model) (project : String) : Prop :=
  (m.cell project).raw ≠ none ∧
    (project ∈ m.resolving ∨ ∃ i, (m.cell project).issued? = some i ∧ i.result.isOk)

/-- Whether a project comes to the result that it has when it is resolved again. -/
structure Rests (make : Path → String → Option Container) (project : String) (es : List Entry)
    (r : Resolved) (m : Model) : Prop where
  isIdle : project ∉ m.resolving
  raw : ∃ raw, (m.cell project).raw = some raw ∧ raw.entries = es
  resolved : ∃ i, (m.cell project).state = .resolved i ∧ (m.cell project).last = some i ∧
    i.result.known = r.known
  again : ∀ i, i.result.known = r.known → (m.outcome make project es (some i)).known = r.known

/-- Whether a project comes to the result that it has whenever it is resolved again: the result counts,
or nothing is going to be bound for it any more. Otherwise an initializer that resolves the project could
find its own container missing. -/
structure Firm (make : Path → String → Option Container) (project : String) (es : List Entry)
    (r : Resolved) (m : Model) : Prop extends Rests make project es r m where
  fixed : (∀ i, (m.cell project).issued? = some i → i.result.isOk) ∨ m.registry.Fixed make project es

theorem Rests.of_cell {cells : Table String Cell} {log : List Event} {folders : ExternalFolders}
    {issued : Nat} {resolving : List String} (h : m.Rests make project es r)
    (hcell : ({ m with cells } : Model).cell project = m.cell project) (hidle : project ∉ resolving) :
    ({ m with cells, log, folders, issued, resolving } : Model).Rests make project es r := by
  refine ⟨hidle, ?_, ?_, h.again⟩
  · obtain ⟨raw, hraw, hes⟩ := h.raw
    exact ⟨raw, (congrArg Cell.raw hcell).trans hraw, hes⟩
  · obtain ⟨i, hstate, hlast, hi⟩ := h.resolved
    exact ⟨i, (congrArg Cell.state hcell).trans hstate, (congrArg Cell.last hcell).trans hlast, hi⟩

theorem Firm.of_cell {cells : Table String Cell} {log : List Event} {folders : ExternalFolders}
    {issued : Nat} {resolving : List String} (h : m.Firm make project es r)
    (hcell : ({ m with cells } : Model).cell project = m.cell project) (hidle : project ∉ resolving) :
    ({ m with cells, log, folders, issued, resolving } : Model).Firm make project es r := by
  refine ⟨h.toRests.of_cell hcell hidle, h.fixed.imp_left fun hok i hi ↦ hok i ?_⟩
  exact (congrArg Cell.issued? hcell).symm.trans hi

theorem Rests.of_registry {registry : Registry} (h : m.Rests make project es r)
    (hk : ∀ e ∈ es, e.kind = .container →
      containerEntries (registry.container? make e.path project) =
        containerEntries (m.registry.container? make e.path project)) :
    ({ m with registry } : Model).Rests make project es r := by
  refine ⟨h.isIdle, h.raw, h.resolved, fun i hi ↦ ?_⟩
  have hr := h.again i hi
  have hsame : (({ m with registry } : Model).outcome make project es (some i)).known =
      (m.outcome make project es (some i)).known :=
    outcome_again ⟨rfl, rfl, rfl, rfl, rfl⟩ (fun _ _ _ ↦ rfl) hk (hi.trans hr.symm)
  exact hsame.trans hr

theorem Firm.of_registry {registry : Registry} (h : m.Firm make project es r)
    (hfixed : m.registry.Fixed make project es → registry.Fixed make project es)
    (hk : ∀ e ∈ es, e.kind = .container →
      containerEntries (registry.container? make e.path project) =
        containerEntries (m.registry.container? make e.path project)) :
    ({ m with registry } : Model).Firm make project es r :=
  ⟨h.toRests.of_registry hk, h.fixed.imp_right hfixed⟩

theorem Firm.of_grows {registry : Registry} (h : m.Firm make project es r)
    (hg : m.registry.Grows make registry) : ({ m with registry } : Model).Firm make project es r :=
  h.of_registry (fun hf ↦ hf.of_grows hg) fun e _ _ ↦ by rw [hg.container?_eq]

theorem Rests.of_grows {registry : Registry} (h : m.Rests make project es r)
    (hg : m.registry.Grows make registry) : ({ m with registry } : Model).Rests make project es r :=
  h.of_registry fun e _ _ ↦ by rw [hg.container?_eq]

/-- A result that counts stays. -/
theorem Rests.holds (h : m.Rests make project es r)
    (hok : ∀ i, (m.cell project).issued? = some i → i.result.isOk) : m.Holds project := by
  obtain ⟨raw, hraw, -⟩ := h.raw
  obtain ⟨i, hstate, -⟩ := h.resolved
  have hissued : (m.cell project).issued? = some i := by rw [Cell.issued?, hstate]; rfl
  exact ⟨hraw ▸ nofun, .inr ⟨i, hissued, hok i hissued⟩⟩

/-! ### Look-ups -/

/-- Whether a model differs by what look-ups of containers change. -/
structure Bound (make : Path → String → Option Container) (m m' : Model) : Prop where
  rest : ∃ cells registry log folders issued,
    m' = { m with cells, registry, log, folders, issued } ∧ m.registry.Grows make registry
  raws : ∀ project raw, (m.cell project).raw = some raw → (m'.cell project).raw = some raw
  holds : ∀ project, m.Holds project → m'.cell project = m.cell project
  firm : ∀ project es r, m.Firm make project es r → m'.Firm make project es r

theorem Bound.steady (h : m.Bound make m') (hs : m.Steady make) : m'.Steady make := by
  obtain ⟨cells, registry, log, folders, issued, rfl, -⟩ := h.rest
  exact ⟨hs.made, hs.unmade, hs.nesting⟩

theorem Bound.grows (h : m.Bound make m') : m.registry.Grows make m'.registry := by
  obtain ⟨cells, registry, log, folders, issued, rfl, hg⟩ := h.rest
  exact hg

theorem Bound.steadyBindings_eq (h : m.Bound make m') (project : String) :
    m'.steadyBindings make project = m.steadyBindings make project := by
  obtain ⟨cells, registry, log, folders, issued, rfl, hg⟩ := h.rest
  unfold steadyBindings
  congr 1
  funext path
  rw [hg.container?_eq]

theorem Bound.refl (m : Model) : m.Bound make m :=
  ⟨⟨m.cells, m.registry, m.log, m.folders, m.issued, rfl, .refl _⟩, fun _ _ h ↦ h, fun _ _ ↦ rfl,
    fun _ _ _ h ↦ h⟩

theorem Bound.trans (h : m.Bound make m') (h' : m'.Bound make m'') : m.Bound make m'' := by
  refine ⟨?_, fun project raw hraw ↦ h'.raws project raw (h.raws project raw hraw),
    fun project hm ↦ ?_, fun project es r hf ↦ h'.firm project es r (h.firm project es r hf)⟩
  · obtain ⟨cells', registry', log', folders', issued', hm'', hg'⟩ := h'.rest
    obtain ⟨cells, registry, log, folders, issued, rfl, hg⟩ := h.rest
    exact ⟨cells', registry', log', folders', issued', hm'', hg.trans hg'⟩
  · have hcell := h.holds project hm
    have hm' : m'.Holds project := by
      obtain ⟨cells, registry, log, folders, issued, rfl, -⟩ := h.rest
      exact ⟨hcell ▸ hm.1, hcell ▸ hm.2⟩
    exact (h'.holds project hm').trans hcell

/-- Bindings stay as they are. -/
theorem Bound.of_bindings {registry : Registry} {log : List Event} {folders : ExternalFolders}
    {issued : Nat} (h : registry.bindings = m.registry.bindings) :
    m.Bound make { m with registry, log, folders, issued } := by
  have hg : m.registry.Grows make registry := fun _ _ ↦ .inl (by rw [h])
  exact ⟨⟨m.cells, registry, log, folders, issued, rfl, hg⟩, fun _ _ h ↦ h, fun _ _ ↦ rfl,
    fun _ _ _ hf ↦ (hf.of_grows hg).of_cell rfl hf.isIdle⟩

/-- Steps on steady models that only bind. -/
def Binds (make : Path → String → Option Container) (m m' : Model) : Prop :=
  m.Steady make → m.Bound make m'

instance : Chained (Binds make) where
  refl m _ := .refl m
  trans h h' hs := (h hs).trans (h' ((h hs).steady hs))

end Model

/-- Whether a look-up finds the container of the project, and only binds. -/
structure LooksUp (make : Path → String → Option Container)
    (find : Path → String → ModelM (Option Container)) : Prop where
  binds : ∀ path project, (find path project).Moves (Model.Binds make)
  finds : ∀ path project m, m.Steady make →
    ((find path project).run m).1 = m.registry.container? make path project
  fixes : ∀ path project m, m.Steady make →
    ((find path project).run m).2.registry.bindings.find? (project, path) = none →
      make path project = none

end Buildpath
