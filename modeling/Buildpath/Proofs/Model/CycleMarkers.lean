import Buildpath.Proofs.Model.Relinking

/-!
# Cycle markers along operations

Cycles are shown where a search over some links finds them, and these links are related to those that
projects have (`Model.Marked`). Operations that change buildpaths keep that up: a project that is going to
be resolved anew lags behind (`Model.Lags`), and applying the change that comes of it lets it catch up.
-/

namespace Buildpath

variable {m m' m'' m₀ : Model} {project p q : String} {R : List Path → List Path → Prop}
  {old : String → List Path} {pending : List String}

namespace Model

/-- Whether cycles are shown at those script projects that a search finds over links that are related to
those of the projects. -/
structure Marked (R : List Path → List Path → Prop) (m : Model) : Prop where
  bare : m.Bare
  tidy : m.markers.Tidy
  shows : ∃ res, m.ShowsOver res ∧ ∀ q, m.isNode q → R (res q) (m.linksOf q)

/-- Whether cycles are shown at those script projects that a search finds over links that are related to
those of the projects, or to those that they had, if they still have to be resolved anew. -/
structure Lags (R : List Path → List Path → Prop) (old : String → List Path) (pending : List String)
    (m : Model) : Prop where
  bare : m.Bare
  tidy : m.markers.Tidy
  shows : ∃ res, m.ShowsOver res ∧
    ∀ q, m.isNode q → R (res q) (m.linksOf q) ∨ q ∈ pending ∧ R (res q) (old q)
  links : ∀ q ∈ pending, m.isNode q → m.linksOf q = old q ∨ m.linksOf q = m.linksAnew q

theorem Lags.marked (h : m.Lags R old []) : m.Marked R := by
  obtain ⟨res, hshows, hres⟩ := h.shows
  exact ⟨h.bare, h.tidy, res, hshows, fun q hq ↦ (hres q hq).resolve_right fun hin ↦ nomatch hin.1⟩

/-- Steps that keep links and leave cycles alone. -/
theorem Marked.of_sameLinks (h : m.Marked R) (hlinks : m.SameLinks m')
    (hcycles : m.markers.SameCycles m'.markers) : m'.Marked R := by
  obtain ⟨res, hshows, hres⟩ := h.shows
  refine ⟨hlinks.bare, hcycles.tidy h.tidy, res, hshows.of_same hlinks.nodes hcycles.shows, fun q hq ↦ ?_⟩
  rw [hlinks.linksOf]
  exact hres q (hlinks.nodes.isNode q ▸ hq)

theorem Marked.of_spares (h : m.Marked R) (hspares : m.Spares m') : m'.Marked R :=
  h.of_sameLinks (hspares.sameLinks h.bare) hspares.cycles

/-- Projects lag behind once their links change, if they still have to be resolved anew. -/
theorem Marked.lags (h : m.Marked R) (hm' : m'.Bare) (hnodes : m.SameNodes m')
    (hcycles : m.markers.SameCycles m'.markers)
    (hothers : ∀ q, m.isNode q → q ∉ pending → m'.linksOf q = m.linksOf q)
    (hpending : ∀ q ∈ pending, m.isNode q →
      m'.linksOf q = m.linksOf q ∨ m'.linksOf q = m'.linksAnew q) :
    m'.Lags R m.linksOf pending := by
  obtain ⟨res, hshows, hres⟩ := h.shows
  refine ⟨hm', hcycles.tidy h.tidy, ⟨res, hshows.of_same hnodes hcycles.shows, fun q hq ↦ ?_⟩,
    fun q hin hq ↦ hpending q hin (hnodes.isNode q ▸ hq)⟩
  rw [hnodes.isNode] at hq
  by_cases hin : q ∈ pending
  · exact .inr ⟨hin, hres q hq⟩
  · exact .inl (hothers q hq hin ▸ hres q hq)

/-- Forgetting the result of a project that still has to be resolved anew. -/
theorem Lags.forget (h : m.Lags R old pending) (hp : p ∈ pending) (halike : m.Resembles m')
    (hcycles : m.markers.SameCycles m'.markers)
    (hothers : ∀ q, p ≠ q → m'.linksOf q = m.linksOf q)
    (hown : m.isNode p → m'.linksOf p = m'.linksAnew p) : m'.Lags R old pending := by
  obtain ⟨res, hshows, hres⟩ := h.shows
  have hnodes := SameNodes.of_files halike.files
  refine ⟨halike.bare h.bare, hcycles.tidy h.tidy,
    ⟨res, hshows.of_same hnodes hcycles.shows, fun q hq ↦ ?_⟩, fun q hin hq ↦ ?_⟩
  · rw [hnodes.isNode] at hq
    by_cases heq : p = q
    · subst heq
      rcases hres p hq with hnow | hbefore
      · rcases h.links p hp hq with hold | hanew
        · exact .inr ⟨hp, hold ▸ hnow⟩
        · rw [hown hq, halike.linksAnew_eq h.bare, ← hanew]
          exact .inl hnow
      · exact .inr hbefore
    · rw [hothers q heq]
      exact hres q hq
  · rw [hnodes.isNode] at hq
    by_cases heq : p = q
    · exact .inr (heq ▸ hown (heq ▸ hq))
    · rw [hothers q heq, halike.linksAnew_eq h.bare]
      exact h.links q hin hq

/-- A project catches up if cycles are shown where they are over the links of all projects, or if its links
are related to those that it had. -/
theorem Lags.catchUp (hR : Equivalence R) (h : m.Lags R old (p :: pending))
    (hlinks : m.SameLinks m') (htidy : m'.markers.Tidy)
    (hanew : ∀ q ∈ pending, m'.linksAnew q = m.linksAnew q)
    (hmarks : (∀ q, m'.markers.showsCycle q = m.markers.showsCycle q) ∧
        (m.isNode p → R (old p) (m.linksOf p)) ∨ m'.ShowsOver m'.linksOf) :
    m'.Lags R old pending := by
  refine ⟨hlinks.bare, htidy, ?_, fun q hin hq ↦ ?_⟩
  · rcases hmarks with ⟨hcycles, hrelated⟩ | hshows
    · obtain ⟨res, hshows, hres⟩ := h.shows
      refine ⟨res, hshows.of_same hlinks.nodes hcycles, fun q hq ↦ ?_⟩
      rw [hlinks.nodes.isNode] at hq
      rw [hlinks.linksOf]
      by_cases heq : p = q
      · subst heq
        exact .inl ((hres p hq).elim id fun hbefore ↦ hR.trans hbefore.2 (hrelated hq))
      · exact (hres q hq).imp_right fun hbefore ↦
          ⟨(List.mem_cons.mp hbefore.1).resolve_left (Ne.symm heq), hbefore.2⟩
    · exact ⟨m'.linksOf, hshows, fun q _ ↦ .inl (hR.refl _)⟩
  · rw [hlinks.nodes.isNode] at hq
    rw [hlinks.linksOf, hanew q hin]
    exact h.links q (List.mem_cons_of_mem p hin) hq

end Model

namespace ModelM

open Model

/-! ### Resolving projects anew -/

/-- Whether a project that exists is recalled with the links that it had. -/
private def Told (m : Model) (old : String → List Path) (item : String × Option Issued) : Prop :=
  m.isNode item.1 → ∃ i, item.2 = some i ∧ links i.result.entries = old item.1

/-- A project catches up by being resolved anew. -/
private theorem lags_renew (hR : Equivalence R) {item : String × Option Issued}
    (h : m.Lags R old (item.1 :: pending)) (htold : Told m old item)
    (hrelated : m.isNode item.1 → SameTexts (old item.1) (m.linksAnew item.1) →
      R (old item.1) (m.linksAnew item.1)) :
    ((renew item).run m).2.Lags R old pending := by
  have halike := (renew_upholds h.bare item).2.1.toResembles
  obtain ⟨cells, change, hrun, hproject, hresolved, hraw, hcell⟩ := renew_run m item
  have hforget := (upholds_invalidate hcell).1
  have hbare := hforget.bare h.bare
  have hanew : ∀ q, ({ m with cells } : Model).linksAnew q = m.linksAnew q :=
    hforget.linksAnew_eq h.bare
  obtain ⟨hothers, hown⟩ := shapesOf_forgotten h.bare hcell
  replace hothers : ∀ q, item.1 ≠ q → ({ m with cells } : Model).linksOf q = m.linksOf q :=
    fun q hq ↦ linksOf_eq (hothers q hq)
  replace hown : m.workspace.projectExists item.1 →
      ({ m with cells } : Model).linksOf item.1 = m.linksAnew item.1 := fun h ↦ links_of_shapes (hown h)
  have hlags : ({ m with cells } : Model).Lags R old (item.1 :: pending) := by
    refine h.forget List.mem_cons_self hforget.toResembles (.refl m.markers) hothers fun hnode ↦ ?_
    rw [hanew]
    exact hown (exists_of_isNode hnode)
  have hkeeps : KeepsBindings { m with cells } change := by
    refine keepsBindings_same hbare (hraw.trans ?_)
    rw [hproject, hcell, if_pos rfl]
    rfl
  obtain ⟨hlinks, htidy, hmarks⟩ := applyChange_marks hbare hlags.tidy hkeeps false
  rw [hrun] at halike ⊢
  refine hlags.catchUp hR hlinks htidy (fun q _ ↦ ?_) (hmarks.imp_left fun ⟨hcycles, htexts⟩ ↦ ?_)
  · rw [hanew, halike.linksAnew_eq h.bare]
  · refine ⟨hcycles, fun hnode ↦ ?_⟩
    obtain ⟨i, hi, hold⟩ := htold hnode
    rw [hproject, hresolved] at htexts
    rw [hown (exists_of_isNode hnode), ← hold]
    rw [← hold] at hrelated
    refine hrelated hnode ?_
    rw [← hown (exists_of_isNode hnode)]
    exact htexts (exists_of_isNode hnode) i hi

/-- Projects catch up by being resolved anew one after the other. -/
private theorem marked_refresh (hR : Equivalence R) {projects : List (String × Option Issued)}
    (h : m.Lags R old (projects.map Prod.fst)) (htold : ∀ item ∈ projects, Told m old item)
    (hrelated : ∀ item ∈ projects, m.isNode item.1 → SameTexts (old item.1) (m.linksAnew item.1) →
      R (old item.1) (m.linksAnew item.1)) :
    ((refresh projects).run m).2.Marked R := by
  suffices hall : ((projects.mapM renew).run m).2.Lags R old [] from
    hall.marked.of_spares ((Ground.clearRoots _ : SparesCycles _ _) hall.bare)
  induction projects generalizing m with
  | nil => exact h
  | cons item projects ih =>
    have hstep := lags_renew hR h (htold item List.mem_cons_self) (hrelated item List.mem_cons_self)
    have halike := (renew_upholds h.bare item).2.1.toResembles
    have hnodes := SameNodes.of_files halike.files
    rw [mapM_renew_cons]
    refine ih hstep (fun other hmem hnode ↦ ?_) fun other hmem hnode ↦ ?_
    · exact htold other (List.mem_cons_of_mem item hmem) (hnodes.isNode other.1 ▸ hnode)
    · rw [halike.linksAnew_eq h.bare]
      exact hrelated other (List.mem_cons_of_mem item hmem) (hnodes.isNode other.1 ▸ hnode)

/-- After bindings were changed, those projects lag behind that they matter to. -/
private theorem lags_rebound {registry : Registry} {variableValues : Variables} (h : m.Marked R)
    (hspares : m.Spares m') (hothers : ∀ q, m.isNode q → q ∉ pending →
      ({ m' with registry, variableValues } : Model).linksOf q = m.linksOf q) :
    ({ m' with registry, variableValues } : Model).Lags R m.linksOf pending := by
  have hm' := hspares.bare h.bare
  have hbound : ({ m' with registry, variableValues } : Model).Bare :=
    ⟨hm'.initializers, hm'.isIdle, hm'.nesting⟩
  refine h.lags hbound (.of_files hspares.files) hspares.cycles hothers fun q _ _ ↦ ?_
  have hkept : ({ m' with registry, variableValues } : Model).shapesOf q = m'.shapesOf q ∨ _ :=
    shapesOf_kept hm' hbound rfl rfl
  exact hkept.imp (fun h ↦ (linksOf_eq h).trans (hspares.linksOf q)) fun h ↦ links_of_shapes h.1

/-- Once those projects were resolved anew that a change of bindings matters to, cycles are shown where a
search over the links finds them again. -/
private theorem marked_rebound (hR : Equivalence R) (hm : m.Bare)
    {projects : List (String × Option Issued)} (hrecalls : ∀ item ∈ projects, Recalls SparesCycles m item)
    (h : m'.Lags R m.linksOf (projects.map Prod.fst)) (hnodes : m.SameNodes m')
    {deltas : List GeneratedDelta} (hrenewed : Renewed projects m' deltas m'') {held : HeldRules}
    (hrelated : ∀ q, m.isNode q →
      SameTexts (m.linksOf q) (({ m'' with held } : Model).linksOf q) →
        R (m.linksOf q) (({ m'' with held } : Model).linksOf q)) :
    ({ m'' with held } : Model).Marked R := by
  rcases hrenewed with ⟨rfl, rfl, rfl⟩ | hrun
  · exact h.marked.of_spares (spares_held h.bare held)
  · obtain ⟨rfl, rfl⟩ := Prod.mk.inj hrun
    have hheld : ((refresh projects).run m').2.Spares { ((refresh projects).run m').2 with held } :=
      spares_held ((refresh_upholds h.bare projects).2.1.bare h.bare) held
    refine (marked_refresh hR h (fun item hmem hnode ↦ ?_) fun item hmem hnode ↦ ?_).of_spares hheld
    · refine links_of_recalls ((hrecalls item hmem).mono fun h hm ↦ ?_) hm
        (exists_of_isNode (hnodes.isNode item.1 ▸ hnode))
      exact (h hm).toRereads
    · have hanew := links_of_shapes
        (shapesOf_refresh h.bare (List.mem_map_of_mem hmem) (exists_of_isNode hnode))
      rw [linksAnew, ← hanew]
      change SameTexts _ (((refresh projects).run m').2.linksOf item.1) →
        R _ (((refresh projects).run m').2.linksOf item.1)
      rw [← hheld.linksOf]
      exact hrelated item.1 (hnodes.isNode item.1 ▸ hnode)

/-! ### Operations -/

/-- Binding containers keeps cycles shown where a search over the links finds them. -/
private theorem marked_setContainer (hR : Equivalence R) (h : m.Marked R) {path : Path}
    {containers : List (String × Option Container)}
    (hm' : m' = ((setContainer path containers).runOn m).2)
    (hrelated : ∀ q, m.isNode q → SameTexts (m.linksOf q) (m'.linksOf q) →
      R (m.linksOf q) (m'.linksOf q)) : m'.Marked R := by
  obtain ⟨projects, m₁, hsteps, hprojects, hrecalls, deltas, m₃, held, hrun, hrenewed⟩ :=
    setContainer_run (R := SparesCycles) h.bare path containers
  have hspares : m.Spares m₁ := hsteps h.bare
  have hlags : ({ m₁ with registry := m₁.registry.put path (containers.filter (!m.isBoundTo path ·)) } :
      Model).Lags R m.linksOf (projects.map Prod.fst) :=
    lags_rebound h hspares fun q hq hout ↦
      linksOf_eq (shapesOf_put h.bare hspares.toRereads (Bool.and_eq_true_iff.mp hq).2 (hprojects ▸ hout))
  rw [hrun] at hm'
  subst hm'
  exact marked_rebound hR h.bare hrecalls hlags (.of_files hspares.files) hrenewed hrelated

/-- Setting variables keeps cycles shown where a search over the links finds them, if those projects are
listed that mention one that changes. -/
private theorem marked_setVariables (hR : Equivalence R) (h : m.Marked R)
    {values : List (String × Option Path)} (hm' : m' = ((setVariables values).runOn m).2)
    (hlisted : ∀ q, m.isNode q → m.mentions (·.startsWith (m.variableValues.changedBy values)) q →
      q ∈ m.workspace.projectNames)
    (hrelated : ∀ q, m.isNode q → SameTexts (m.linksOf q) (m'.linksOf q) →
      R (m.linksOf q) (m'.linksOf q)) : m'.Marked R := by
  by_cases hunchanged : m.variableValues.changedBy values = []
  · rw [setVariables_unchanged hunchanged] at hm'
    exact hm' ▸ h
  · obtain ⟨projects, m₁, hsteps, hprojects, hrecalls, deltas, m₃, held, hrun, hrenewed⟩ :=
      setVariables_run (R := SparesCycles) h.bare hunchanged
    have hspares : m.Spares m₁ := hsteps h.bare
    have hlags : ({ m₁ with variableValues := m₁.variableValues.assign values } : Model).Lags R m.linksOf
        (projects.map Prod.fst) := by
      refine lags_rebound h hspares fun q hq hout ↦ linksOf_eq <| shapesOf_assign h.bare
        hspares.toRereads (Bool.and_eq_true_iff.mp hq).2 fun hmentions ↦ hout ?_
      rw [hprojects]
      exact List.mem_filter.mpr ⟨hlisted q hq hmentions, hmentions⟩
    rw [hrun] at hm'
    subst hm'
    exact marked_rebound hR h.bare hrecalls hlags (.of_files hspares.files) hrenewed hrelated

/-- A project lags behind once its raw buildpath was replaced. -/
private theorem lags_replaced (h : m.Marked R) {cells : Table String Cell} {es : List Entry}
    (hown : ({ m with cells } : Model).cell p = (m.cell p).setRaw es)
    (hothers : ∀ q, p ≠ q → ({ m with cells } : Model).cell q = (m.cell q).clearRoots) :
    ({ m with cells } : Model).Lags R m.linksOf [p] ∧
      ∀ q, p ≠ q → ({ m with cells } : Model).raw q = m.raw q := by
  have hbare : ({ m with cells } : Model).Bare := ⟨h.bare.initializers, h.bare.isIdle, h.bare.nesting⟩
  obtain ⟨hkept, hanew⟩ := shapesOf_replaced h.bare hown hothers
  refine ⟨h.lags hbare (.of_files rfl) (.refl m.markers) (fun q _ hout ↦ ?_) fun q hin hq ↦ ?_,
    fun q hne ↦ (hkept q hne).1⟩
  · exact linksOf_eq (hkept q fun heq ↦ hout (heq ▸ List.mem_singleton_self p)).2
  · obtain rfl := List.mem_singleton.mp hin
    exact .inr (links_of_shapes (hanew (exists_of_isNode hq)))

/-- Replacing the raw buildpath of a project keeps cycles shown where a search over the links finds them,
before its file is written. -/
private theorem marked_replaceRaw (hR : Equivalence R) (h : m.Marked R) {es : List Entry} {saves : Bool}
    (hallowed : (m.outcome makeNothing p es none).isOk ∨ m.Remakes makeNothing p es)
    (hm' : m' = ((replaceRaw p es saves).run m).2) :
    m'.Bare ∧ m.SameNodes m' ∧ (∃ raw, (m'.cell p).raw = some raw ∧ raw.entries = es) ∧
      (∀ q, p ≠ q → m'.raw q = m.raw q) ∧
      ((m.isNode p → SameTexts (m.linksOf p) (m'.linksOf p) → R (m.linksOf p) (m'.linksOf p)) →
        m'.Marked R) := by
  obtain ⟨m₁, cells, change, hinspect, hrun, hproject, hraw, hresolved, -, hown, hothers⟩ :=
    replaceRaw_run m p es saves
  obtain ⟨hspares, hanswers⟩ := spares_inspect h.bare p
  rw [hinspect] at hspares hanswers
  obtain ⟨hlags, hraws⟩ := lags_replaced (h.of_spares hspares) hown hothers
  have hkeeps : KeepsBindings { m₁ with cells } change := by
    subst hproject
    exact keepsBindings_replaceRaw h.bare hspares.toRereads hraw hown hallowed
  obtain ⟨hlinks, htidy, hmarks⟩ := applyChange_marks hlags.bare hlags.tidy hkeeps saves
  have hnodes : m.SameNodes { m₁ with cells } := .of_files hspares.files
  rw [hm', hrun]
  refine ⟨hlinks.bare, hnodes.trans hlinks.nodes, ⟨_, hlinks.known p _ (congrArg Cell.raw hown), rfl⟩,
    fun q hne ↦ (hlinks.raw q).trans ((hraws q hne).trans (hspares.raw q)), fun hrelated ↦ ?_⟩
  have hrelated' : (∀ old, change.resolved = some old →
      SameTexts (links old.result.entries) (({ m₁ with cells } : Model).linksOf p)) →
        ({ m₁ with cells } : Model).isNode p →
          R (m₁.linksOf p) (({ m₁ with cells } : Model).linksOf p) := by
    intro htexts hnode
    rw [hnodes.isNode] at hnode
    obtain ⟨i, hi, hold⟩ := hanswers (exists_of_isNode hnode)
    have htold := htexts i (hresolved.trans (issued?_of_loaded hi))
    have hlinksOf : links i.result.entries = m.linksOf p :=
      (links_of_shapes hold).trans (hspares.linksOf p)
    rw [hlinksOf] at htold
    rw [hlinks.linksOf] at hrelated
    rw [hspares.linksOf]
    exact hrelated hnode htold
  have hcaught : ((applyChange change saves).run { m₁ with cells }).2.Lags R m₁.linksOf [] := by
    refine hlags.catchUp hR hlinks htidy (fun _ hin ↦ absurd hin List.not_mem_nil) (hmarks.imp_left fun hsame ↦ ?_)
    rw [hproject] at hsame
    exact ⟨hsame.1, fun hnode ↦ hrelated' (hsame.2 (exists_of_isNode hnode)) hnode⟩
  exact hcaught.marked

/-- Replacing the raw buildpath of a project keeps cycles shown where a search over the links finds them,
whether its file is written or not. -/
private theorem marked_setRaw (hR : Equivalence R) (h : m.Marked R) {es : List Entry} {saves : Bool}
    (hallowed : (m.outcome makeNothing p es none).isOk ∨ m.Remakes makeNothing p es)
    (hapart : saves → m.Apart p es) (hm' : m' = ((setRawBuildpath p es saves).runOn m).2)
    (hrelated : ∀ q, m.isNode q → SameTexts (m.linksOf q) (m'.linksOf q) →
      R (m.linksOf q) (m'.linksOf q)) : m'.Marked R := by
  obtain ⟨begun, m₂, held, held', rfl, hend, hcases⟩ := setRaw_cases m p es saves
  have hbegun : m.Spares { m with held } := spares_held h.bare held
  have hmarked := h.of_spares hbegun
  have hnodes : m.SameNodes { m with held } := .of_files rfl
  -- links are the same once the rules are free again
  have hrelated' : m₂.Bare → ∀ q, m.isNode q → SameTexts (m.linksOf q) (m₂.linksOf q) →
      R (m.linksOf q) (m₂.linksOf q) := by
    intro hm₂ q hq
    rw [← (spares_held hm₂ held').linksOf, ← hend, ← hm']
    exact hrelated q hq
  suffices hm₂ : m₂.Marked R by
    rw [hm', hend]
    exact hm₂.of_spares (spares_held hm₂.bare held')
  generalize hreplaced : ((replaceRaw p es saves).run { m with held }).2 = m₁ at hcases
  obtain ⟨hbare₁, hnodes₁, hown, hothers, hmarks⟩ :=
    marked_replaceRaw hR hmarked hallowed hreplaced.symm
  rcases hcases with rfl | rfl | ⟨hsaves, hsave⟩
  · exact hmarked
  · refine hmarks fun hnode ↦ ?_
    rw [hbegun.linksOf]
    exact hrelated' hbare₁ p (hnodes.isNode p ▸ hnode)
  · have hsince : m.Since p m₁ := by
      have hmoves : (replaceRaw p es saves).Moves (Model.Since p) :=
        moves_replaceRaw since_resolution (fun _ _ _ ↦ ⟨.refl, rfl, rfl, rfl, rfl, rfl, rfl⟩) p es saves
      have hbegun : m.Since p { m with held } := ⟨.refl, rfl, rfl, rfl, rfl, rfl, rfl⟩
      exact hreplaced ▸ Chained.trans hbegun (hmoves { m with held })
    obtain ⟨hlinks, hmarkers⟩ := sameLinks_saved hbare₁ (hapart hsaves) hsince hown hothers hsave
    have hcycles : m₁.markers.SameCycles m₂.markers := hmarkers ▸ .refl m₁.markers
    refine (hmarks fun hnode ↦ ?_).of_sameLinks hlinks hcycles
    rw [hbegun.linksOf, ← hlinks.linksOf]
    exact hrelated' hlinks.bare p (hnodes.isNode p ▸ hnode)

end ModelM

/-! ### Histories -/

namespace Model

/-- Whether an operation replaces a raw buildpath, binds containers or sets variables, and the workspace is
fixed but for the project file that is saved. If some entry of the raw buildpath has no binding, none of a
container is dropped that it mentions and that holds anything. Projects that mention a variable that changes
are listed. -/
def Admits (m : Model) : Operation → Prop
  | .setRaw project entries saves =>
    ((m.outcome makeNothing project entries none).isOk ∨ m.Remakes makeNothing project entries) ∧
      (saves → m.Apart project entries)
  | .setContainer _ _ => True
  | .setVariables values => ∀ q, m.isNode q →
      m.mentions (·.startsWith (m.variableValues.changedBy values)) q → q ∈ m.workspace.projectNames
  | .close _ | .put _ _ | .ask _ => False

/-- One operation keeps cycles shown where a search over the links finds them. -/
theorem Marked.step (hR : Equivalence R) (h : m.Marked R) {op : Operation} (hadmits : m.Admits op)
    (hrelated : ∀ q, m.isNode q → SameTexts (m.linksOf q) ((op.apply m).linksOf q) →
      R (m.linksOf q) ((op.apply m).linksOf q)) : (op.apply m).Marked R := by
  cases op with
  | setRaw project entries saves => exact ModelM.marked_setRaw hR h hadmits.1 hadmits.2 rfl hrelated
  | setContainer path containers => exact ModelM.marked_setContainer hR h rfl hrelated
  | setVariables values => exact ModelM.marked_setVariables hR h rfl hadmits hrelated
  | close | put | ask => cases hadmits

/-- Cycles stay shown where a search over the links finds them, whatever operations follow. -/
theorem Marked.reaches (hR : Equivalence R) (h : m₀.Marked R) {allowed : Model → Operation → Prop}
    (hallowed : ∀ m op, allowed m op → m.Admits op ∧
      ∀ q, m.isNode q → SameTexts (m.linksOf q) ((op.apply m).linksOf q) →
        R (m.linksOf q) ((op.apply m).linksOf q))
    (hreaches : m₀.Reaches allowed m) : m.Marked R := by
  induction hreaches with
  | start => exact h
  | next _ hop ih =>
    obtain ⟨hadmits, hrelated⟩ := hallowed _ _ hop
    exact ih.step hR hadmits hrelated

/-- Whether the paths of links tell apart what a project required before and requires after. -/
def TellsPaths (m m' : Model) : Prop :=
  ∀ q, m.isNode q → ∀ path ∈ m.linksOf q, ∀ path' ∈ m'.linksOf q, path.toString = path'.toString →
    path = path'

/-- Whether projects that require the same as before require it in the same order. -/
def KeepsOrder (m m' : Model) : Prop :=
  ∀ q, m.isNode q → SameTexts (m.linksOf q) (m'.linksOf q) →
    requiredNames (m.linksOf q) = requiredNames (m'.linksOf q)

end Model

namespace ModelM

open Model

/-- Bringing cycle markers up to date shows cycles where a search over the links finds them. -/
private theorem marked_validateCycles (hR : Equivalence R) (hm : m.Bare) (htidy : m.markers.Tidy) :
    ((validateCycles []).run m).2.Marked R := by
  obtain ⟨hrereads, htidy', hshows⟩ := validateCycles_marks hm htidy
  exact ⟨hrereads.bare hm, htidy', _, hshows, fun q _ ↦ hR.refl _⟩

/-- Links with the same texts name the same projects, if their texts tell them apart. -/
private theorem mem_names_of_sameTexts {links links' : List Path} (h : SameTexts links links')
    (htells : ∀ path ∈ links, ∀ path' ∈ links', path.toString = path'.toString → path = path')
    (name : String) : name ∈ requiredNames links ↔ name ∈ requiredNames links' := by
  have hpaths : ∀ path, path ∈ links ↔ path ∈ links' := by
    refine fun path ↦ ⟨fun hin ↦ ?_, fun hin ↦ ?_⟩
    · obtain ⟨path', hin', htext⟩ := List.mem_map.mp ((h _).mp (List.mem_map_of_mem hin))
      exact htells path hin path' hin' htext.symm ▸ hin'
    · obtain ⟨path', hin', htext⟩ := List.mem_map.mp ((h _).mpr (List.mem_map_of_mem hin))
      exact htells path' hin' path hin htext ▸ hin'
  simp only [requiredNames, List.mem_filterMap, hpaths]

/-- Two projects that require each other, and two that lead to them, one through the other. -/
def crossedProjects : Model :=
  .ofBuildpaths [("a", [.project (.parse "/d"), .project (.parse "/b")]),
    ("b", [.project (.parse "/c")]), ("c", [.project (.parse "/b")]), ("d", [.project (.parse "/b")])]

/-- The projects with cycle markers that are up to date. -/
def markedProjects : Model := ((validateCycles []).run crossedProjects).2

/-- The projects after one of the two no longer requires the other. -/
def cutProjects : Model := (Operation.setRaw "b" [] false).apply markedProjects

private theorem crossedProjects_bare : crossedProjects.Bare := ⟨rfl, rfl, by decide⟩

private theorem crossedProjects_tidy : crossedProjects.markers.Tidy := fun _ _ hmem ↦ nomatch hmem

private theorem mem_of_isNode (h : markedProjects.isNode q) : q ∈ ["a", "b", "c", "d"] := by
  have hrereads := (validateCycles_marks crossedProjects_bare crossedProjects_tidy).1
  have hexists := exists_of_isNode ((SameNodes.of_files hrereads.files).isNode q ▸ h)
  exact mem_of_exists_ofBuildpaths hexists

private theorem markedProjects_admits : markedProjects.Admits (.setRaw "b" [] false) := by
  refine ⟨.inl ?_, nofun⟩
  simp only [markedProjects, validateCycles, cycleParticipants, Workspace.scriptProjects,
    projectNames_eq_insertionSort]
  decide +kernel

private theorem markedProjects_shows :
    markedProjects.workspace.scriptProjects.filter markedProjects.markers.showsCycle =
      ["a", "b", "c"] := by
  simp only [markedProjects, validateCycles, cycleParticipants, Workspace.scriptProjects,
    projectNames_eq_insertionSort]
  decide +kernel

private theorem cutProjects_shows :
    cutProjects.workspace.scriptProjects.filter cutProjects.markers.showsCycle = [] ∧
    cutProjects.workspace.scriptProjects = ["a", "b", "c", "d"] ∧
    (cutProjects.linksOf "b").map Path.toString = [] ∧
    (markedProjects.linksOf "b").map Path.toString = ["/c"] ∧
    ∀ q ∈ ["a", "c", "d"], markedProjects.linksOf q = cutProjects.linksOf q := by
  simp only [cutProjects, Operation.apply, Operation.steps, markedProjects, setRawBuildpath, applyChange,
    updateReferences, validateCycles, cycleParticipants, Workspace.scriptProjects,
    projectNames_eq_insertionSort, sortNames_eq_insertionSort]
  decide +kernel

private theorem cutProjects_keepsOrder : markedProjects.KeepsOrder cutProjects := by
  obtain ⟨-, -, hafter, hbefore, hothers⟩ := cutProjects_shows
  intro q hnode htexts
  by_cases hq : q = "b"
  · subst hq
    have hc := (htexts "/c").mp (by simp [hbefore])
    simp [hafter] at hc
  · have hmem : q ∈ ["a", "c", "d"] := by
      have := mem_of_isNode hnode
      simp only [List.mem_cons, List.not_mem_nil, hq, false_or] at this ⊢
      exact this
    rw [hothers q hmem]

end ModelM

end Buildpath
