import Buildpath.Proofs.Model.Choosing

/-!
# Current results

Where no initializer runs and libraries bring along no others, what a project is resolved to depends on
its raw buildpath and its bindings only (`Model.fresh`). A result that is kept is current if it is that
one (`Model.Current`). Whatever does not change raw buildpaths and bindings leaves the results of all
projects current (`Upholds.current`), and so does resolving projects anew after bindings were changed, if
all projects are resolved anew that the change matters to (`refresh_current`).
-/

namespace Buildpath

variable {m m' m'' : Model} {project : String} {es : List Entry}

namespace Model

/-- Whether raw buildpaths and bindings alone decide what projects are resolved to: there are no
initializers, libraries bring along no others, and no project is being resolved. -/
structure Plain (m : Model) : Prop extends Bare m where
  unchained : m.followsLibraries = false

/-- Whether the result that is kept of a project, if it counts, is what its raw buildpath is resolved to
from the beginning. -/
def Current (m : Model) (project : String) : Prop :=
  ∀ i, (m.cell project).issued? = some i → i.result.isOk → i.result = m.fresh project

/-- What a buildpath stands for depends on its bindings, where libraries bring along no others. -/
theorem outcome_congr {last last' : Option Issued} (h : m.followsLibraries = false)
    (h' : m'.followsLibraries = false)
    (hlocation : m'.workspace.projectLocation? project = m.workspace.projectLocation? project)
    (hv : ∀ e ∈ es, e.kind = .variableRef →
      m'.variableValues.entry? m'.workspace e = m.variableValues.entry? m.workspace e)
    (hk : ∀ e ∈ es, e.kind = .container → m'.registry.container? makeNothing e.path project =
      m.registry.container? makeNothing e.path project) :
    m'.outcome makeNothing project es last' = m.outcome makeNothing project es last := by
  have hunchained : ∀ {m : Model}, m.followsLibraries = false → ∀ path external,
      m.chained path external = [] := by
    intro m h path external
    rw [chained, h]
    rfl
  refine outcome_unchained (hunchained h) (hunchained h') fun e he ↦ ?_
  have hcontext : (m'.resolutionContext project last').location =
      (m.resolutionContext project last).location := hlocation
  unfold entriesBehind
  rw [hcontext]
  cases hkind : e.kind with
  | variableRef =>
    have hlook : ( Bindings.variableEntry? (m'.steadyBindings makeNothing project) e) =
        ( Bindings.variableEntry? (m.steadyBindings makeNothing project) e) := hv e he hkind
    dsimp only
    rw [hlook]
    rfl
  | container =>
    have hlook : (m'.steadyBindings makeNothing project).container? e.path =
        (m.steadyBindings makeNothing project).container? e.path := hk e he hkind
    dsimp only
    rw [hlook]
    rfl
  | library => rfl
  | source => rfl
  | project => rfl

/-! ### Steps that leave results current -/

theorem Resembles.plain (h : m.Resembles m') (hm : m.Plain) : m'.Plain :=
  ⟨h.bare hm.toBare, h.followsLibraries.trans hm.unchained⟩

theorem Plain.of_bindings {registry : Registry} {variableValues : Variables} (hm : m.Plain) :
    ({ m with registry, variableValues } : Model).Plain :=
  ⟨⟨hm.initializers, hm.isIdle, hm.nesting⟩, hm.unchained⟩

/-- A result stays current if the bindings that its project mentions stay the same. -/
theorem Current.of_bindings {registry : Registry} {variableValues : Variables} (h : m.Current project)
    (hm : m.Plain)
    (hv : ∀ e ∈ (m.raw project).entries, e.kind = .variableRef →
      variableValues.entry? m.workspace e = m.variableValues.entry? m.workspace e)
    (hk : ∀ e ∈ (m.raw project).entries, e.kind = .container →
      registry.bindings.find? (project, e.path) = m.registry.bindings.find? (project, e.path)) :
    ({ m with registry, variableValues } : Model).Current project := by
  intro i hi hok
  have hplain : ({ m with registry, variableValues } : Model).Plain := hm.of_bindings
  rw [hplain.toBare.fresh_eq, h i hi hok, hm.toBare.fresh_eq]
  refine (outcome_congr hm.unchained hplain.unchained rfl hv fun e he hkind ↦ ?_).symm
  change registry.container? makeNothing e.path project = _
  rw [Registry.container?, Registry.container?, hk e he hkind]

/-- What a raw buildpath is resolved to is the same whatever the last result was. -/
theorem ResolvesTo.eq_fresh {r : Resolved} (hr : m.ResolvesTo project r) (hm : m.Plain) :
    r = m.fresh project := by
  obtain ⟨last, rfl⟩ := hr
  rw [hm.toBare.fresh_eq]
  exact outcome_congr hm.unchained hm.unchained rfl (fun _ _ _ ↦ rfl) fun _ _ _ ↦ rfl

/-- Steps that uphold results leave them current. -/
theorem Upholds.current (h : m.Upholds m') (hm : m.Plain) (hq : m.Current project) :
    m'.Current project := by
  intro i hi hok
  rw [h.fresh_eq hm.toBare]
  rcases h.results project i hi hok with hi | hr
  · exact hq i hi hok
  · exact hr.eq_fresh hm

end Model

namespace ModelM

open Model

/-- A project that exists and is current is resolved to what its raw buildpath is resolved to from the
beginning. -/
theorem resolution_of_current (hm : m.Plain) (hexists : m.workspace.projectExists project)
    (h : m.Current project) :
    ∃ i, ((resolution project).runOn m).1 = .ok i ∧ i.result = m.fresh project := by
  obtain ⟨i, m', hrun, -, -, -, hresult⟩ := resolution_bare hm.toBare hexists
  refine ⟨i, congrArg Prod.fst hrun, ?_⟩
  rcases hresult with ⟨hi, hok⟩ | hr
  · exact h i hi hok
  · exact hr.eq_fresh hm

/-- Resolving projects anew comes to a change for each of them, upholds results, and makes theirs
current. -/
theorem refresh_current (hm : m.Plain) (projects : List (String × Option Issued)) :
    ((refresh projects).run m).1.map GeneratedDelta.project = projects.map Prod.fst ∧
      m.Upholds ((refresh projects).run m).2 ∧
      ∀ q ∈ projects.map Prod.fst, ((refresh projects).run m).2.Current q := by
  obtain ⟨hprojects, hupholds, hrenewed⟩ := refresh_upholds hm.toBare projects
  refine ⟨hprojects, hupholds, fun q hq i hi hok ↦ ?_⟩
  rw [hupholds.fresh_eq hm.toBare]
  exact (hrenewed q hq i hi hok).eq_fresh hm

/-- Once projects were resolved anew, if there are any, their results are current. -/
theorem current_of_renewed (hm : m.Plain) {projects : List (String × Option Issued)}
    {deltas : List GeneratedDelta} (h : Renewed projects m deltas m') :
    deltas.map GeneratedDelta.project = projects.map Prod.fst ∧ m.Upholds m' ∧
      ∀ q ∈ projects.map Prod.fst, m'.Current q := by
  rcases h with ⟨rfl, rfl, rfl⟩ | hrun
  · exact ⟨rfl, .refl m', nofun⟩
  · obtain ⟨rfl, rfl⟩ := Prod.mk.inj hrun
    exact refresh_current hm projects

/-- Once projects were resolved anew, these and those whose results were current come to current results. -/
theorem resolution_of_renewed (hm : m.Plain) {projects : List (String × Option Issued)}
    {deltas : List GeneratedDelta} (h : Renewed projects m deltas m') (held : HeldRules)
    (hexists : m.workspace.projectExists project)
    (hcurrent : project ∉ projects.map Prod.fst → m.Current project) :
    ∃ i, ((resolution project).runOn { m' with held }).1 = .ok i ∧
      i.result = ({ m' with held } : Model).fresh project := by
  obtain ⟨-, hrefreshes, hrenewed⟩ := current_of_renewed hm h
  have hm' := hrefreshes.plain hm
  have hheld : m'.Upholds { m' with held } := .of_held held
  have hexists' := (Workspace.projectExists_of_files (hrefreshes.trans hheld).files project).trans hexists
  refine resolution_of_current (hheld.plain hm') hexists' (hheld.current hm' ?_)
  by_cases hmem : project ∈ projects.map Prod.fst
  · exact hrenewed project hmem
  · exact hrefreshes.current hm (hcurrent hmem)

end ModelM

end Buildpath
