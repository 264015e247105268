import Mathlib.Data.List.Sort
import Buildpath.Proofs.Model.Assigning
import Buildpath.Proofs.Model.Histories
import Buildpath.Proofs.Model.Repeating
import Buildpath.Proofs.Model.Validating

/-!
# Links along operations

What the steps of operations do to the shapes of projects, which tell their links. Looking at a project keeps
them. A project whose result is forgotten, or whose raw buildpath is replaced, has the shapes that it is
resolved to from the beginning, and the others keep theirs (`shapesOf_forgotten`, `shapesOf_replaced`). So do
projects that mention nothing whose binding changes (`shapesOf_put`, `shapesOf_assign`). Saving a project file
keeps shapes if the rest of the workspace stays as it is (`sameLinks_saved`).
-/

namespace Buildpath

variable {m m' m'' m₀ m₁ : Model} {project p q : String}

/-- The names of the projects that some links lead to. -/
def Model.requiredNames (links : List Path) : List String := links.filterMap Path.firstSegment?

/-- Whether the workspace stays as it is, apart from the file of a project, when that is saved with a
buildpath: the projects, the files of the others, what variables stand for, and which libraries a library
brings along. -/
structure Model.Apart (m : Model) (project : String) (es : List Entry) : Prop where
  projectNames : ∀ w, m.workspace.Saves project w → w.projectNames = m.workspace.projectNames
  candidateNames : ∀ w, m.workspace.Saves project w → w.candidateNames = m.workspace.candidateNames
  projectExists : ∀ w, m.workspace.Saves project w → ∀ q,
    w.projectExists q = m.workspace.projectExists q
  isScript : ∀ w, m.workspace.Saves project w → ∀ q, w.isScript q = m.workspace.isScript q
  load : ∀ w, m.workspace.Saves project w → ∀ q, project ≠ q →
    ProjectFile.load w q = ProjectFile.load m.workspace q
  own : m.Detached project es
  others : ∀ q, project ≠ q → m.Detached project (m.raw q).entries

namespace ModelM

open Model

theorem exists_of_isNode (h : m.isNode q) : m.workspace.projectExists q :=
  (Bool.and_eq_true_iff.mp h).1

theorem spares_held (hm : m.Bare) (held : HeldRules) : m.Spares { m with held } :=
  Looks.holds (R := SparesCycles) m held hm

/-- Looking at a project keeps shapes and leaves cycles alone, and its result has its shapes then. -/
theorem spares_inspect (hm : m.Bare) (project : String) :
    m.Spares ((inspect project).run m).2 ∧
      (m.workspace.projectExists project → ((inspect project).run m).2.Answers project) := by
  let m₁ : Model := ((flushMarkers project false false >>= fun _ ↦ loadRaw project).run m).2
  let m₂ : Model := ((resolution project).run.run m₁).2
  have hfirst : m.Spares m₁ := by
    have hmoves : ModelM.Moves SparesCycles
        (flushMarkers project false false >>= fun _ ↦ loadRaw project) :=
      .bind (spares_flushMarkers project) fun _ ↦ Looks.loadRaw project
    exact hmoves m hm
  have hm₁ := hfirst.bare hm
  have hsecond : m₁.Spares m₂ := Looks.resolution (R := SparesCycles) project m₁ hm₁
  have hthird : m₂.Spares ((knownFragments project).run m₂).2 :=
    moves_knownFragments (R := SparesCycles) Looks.resolution project m₂ (hsecond.bare hm₁)
  have hrun : ((inspect project).run m).2 = ((knownFragments project).run m₂).2 := rfl
  rw [hrun]
  refine ⟨hfirst.trans (hsecond.trans hthird), fun hexists ↦ hthird.answers project ?_⟩
  obtain ⟨i, m₃, hresolution, -, hrereads, hissued, hshapes⟩ :=
    resolution_shapes hm₁ ((Workspace.projectExists_of_files hfirst.files project).trans hexists)
  have hm₃ : m₂ = m₃ := congrArg Prod.snd hresolution
  rw [hm₃]
  exact ⟨i, hissued, hshapes.trans (hrereads.shapesOf project).symm⟩

/-! ### Results that are forgotten -/

/-- A project whose result is forgotten has the shapes that it is resolved to from the beginning. -/
theorem shapesOf_forgotten (hm : m.Bare) {cells : Table String Cell}
    (hcell : ∀ q, ({ m with cells } : Model).cell q =
      if project = q then (m.cell project).invalidate else m.cell q) :
    (∀ q, project ≠ q → ({ m with cells } : Model).shapesOf q = m.shapesOf q) ∧
      (m.workspace.projectExists project →
        ({ m with cells } : Model).shapesOf project = m.shapesAnew project) := by
  obtain ⟨hforget, hforgot⟩ := upholds_invalidate hcell
  have hbare := hforget.bare hm
  refine ⟨fun q hne ↦ ?_, fun hexists ↦ ?_⟩
  · have hissued : (({ m with cells } : Model).loaded q).issued? = (m.loaded q).issued? := by
      rw [issued?_loaded, issued?_loaded, hcell, if_neg hne]
    rcases shapesOf_kept hm hbare rfl hissued with hsame | ⟨hshapes', hshapes⟩
    · exact hsame
    · rw [hshapes', hshapes, hforget.shapesAnew_eq hm]
  · rw [← hforget.shapesAnew_eq hm]
    refine hbare.shapesOf_eq_anew hexists fun i hi ↦ ?_
    rw [hforgot] at hi
    cases hi

/-- A project whose results were renewed has the shapes that it is resolved to from the beginning. -/
theorem shapesOf_renewed (hm : m.Bare) (hupholds : m.Upholds m') (hexists : m.workspace.projectExists q)
    (hrenewed : ∀ i, (m'.cell q).issued? = some i → i.result.isOk → m.ResolvesTo q i.result) :
    m'.shapesOf q = m.shapesAnew q := by
  have hexists' := (Workspace.projectExists_of_files hupholds.files q).trans hexists
  rw [(hupholds.bare hm).shapesOf_eq hexists', ← hupholds.shapesAnew_eq hm]
  cases hi : (m'.loaded q).issued?.filter fun i ↦ i.result.isOk with
  | none => rfl
  | some i =>
    obtain ⟨hissued, hok⟩ := Option.filter_eq_some_iff.mp hi
    have hresolves := hrenewed i (issued?_of_loaded hissued) hok
    exact (hresolves.shapes_eq hm).trans (hupholds.shapesAnew_eq hm q).symm

/-- Projects that were resolved anew have the shapes that they are resolved to from the beginning. -/
theorem shapesOf_refresh (hm : m.Bare) {projects : List (String × Option Issued)}
    (hin : q ∈ projects.map Prod.fst) (hexists : m.workspace.projectExists q) :
    ((refresh projects).run m).2.shapesOf q = m.shapesAnew q := by
  obtain ⟨-, hupholds, hrenewed⟩ := refresh_upholds hm projects
  exact shapesOf_renewed hm hupholds hexists (hrenewed q hin)

/-! ### Bindings that change -/

/-- What a variable entry stands for has a place that does not depend on what is attached to it. -/
theorem site_entry? {w : Workspace} {v v' : Variables} {e : Entry} (hkind : e.kind = .variableRef)
    (hpath : v'.path? e.path = v.path? e.path) :
    (v'.entry? w e).map Entry.site = (v.entry? w e).map Entry.site := by
  have hentry : ∀ v : Variables, (v.entry? w e).map Entry.site = (v.path? e.path).map fun path ↦
      if Variables.isProjectPath w path then (.project, path, false) else
        (.library, path, !(w.kind? path = some .file || w.kind? path = some .folder)) := by
    intro v
    unfold Variables.entry?
    rw [if_neg (by simp [hkind])]
    cases v.path? e.path with
    | none => rfl
    | some path =>
      dsimp only [Option.bind_eq_bind, Option.bind_some, Option.map_some]
      split <;> rfl
  rw [hentry, hentry, hpath]

/-- Binding a container keeps the shapes of a script project, unless the project mentions the container and its
binding changes. -/
theorem shapesOf_put (hm : m.Bare) (h : m.Rereads m') (hscript : m.workspace.isScript q) {path : Path}
    {containers : List (String × Option Container)}
    (hout : q ∉ (containers.filter (m.rebinds path)).map Prod.fst) :
    ({ m' with registry := m'.registry.put path (containers.filter (!m.isBoundTo path ·)) } :
      Model).shapesOf q = m.shapesOf q := by
  refine (shapesOf_of_bindings (h.bare hm) (fun _ _ _ ↦ rfl) fun e he hkind ↦ ?_).trans (h.shapesOf q)
  rw [Registry.container?, Registry.container?, Registry.find?_put_of_notMem fun hpath hput ↦ hout ?_]
  rw [h.raw] at he
  exact mem_rebinds_of_mentions (mentions_of_mem hscript he (Entry.isContainerAt_iff.mpr ⟨hkind, hpath⟩))
    hput

/-- Setting variables keeps the shapes of a script project that mentions none that changes. -/
theorem shapesOf_assign (hm : m.Bare) (h : m.Rereads m') (hscript : m.workspace.isScript q)
    {values : List (String × Option Path)}
    (hout : ¬ m.mentions (·.startsWith (m.variableValues.changedBy values)) q) :
    ({ m' with variableValues := m'.variableValues.assign values } : Model).shapesOf q = m.shapesOf q := by
  refine (shapesOf_of_bindings (h.bare hm) (fun e he hkind ↦ ?_) fun _ _ _ ↦ rfl).trans (h.shapesOf q)
  refine site_entry? hkind (Variables.path?_congr fun name hname ↦ Variables.find?_assign
    fun hchanged ↦ hout ?_)
  rw [h.variableValues] at hchanged
  rw [h.raw] at he
  exact mentions_of_mem hscript he (by simp [Entry.startsWith, hkind, hname, hchanged])

/-! ### Raw buildpaths that are replaced -/

/-- A project whose raw buildpath is replaced has the shapes that it is resolved to from the beginning. -/
theorem shapesOf_replaced (hm : m.Bare) {cells : Table String Cell} {es : List Entry}
    (hown : ({ m with cells } : Model).cell p = (m.cell p).setRaw es)
    (hothers : ∀ q, p ≠ q → ({ m with cells } : Model).cell q = (m.cell q).clearRoots) :
    (∀ q, p ≠ q → ({ m with cells } : Model).raw q = m.raw q ∧
      ({ m with cells } : Model).shapesOf q = m.shapesOf q) ∧
      (m.workspace.projectExists p →
        ({ m with cells } : Model).shapesOf p = ({ m with cells } : Model).shapesAnew p) := by
  have hbare : ({ m with cells } : Model).Bare := ⟨hm.initializers, hm.isIdle, hm.nesting⟩
  refine ⟨fun q hne ↦ ?_, fun hexists ↦ hbare.shapesOf_eq_anew hexists fun i hi ↦ ?_⟩
  · have hraw : ({ m with cells } : Model).raw q = m.raw q := by
      rw [Model.raw, Model.raw, hothers q hne]
      rfl
    refine ⟨hraw, ?_⟩
    have hissued : (({ m with cells } : Model).loaded q).issued? = (m.loaded q).issued? := by
      rw [issued?_loaded, issued?_loaded, hothers q hne]
      rfl
    rcases shapesOf_kept hm hbare rfl hissued with hsame | ⟨hshapes', hshapes⟩
    · exact hsame
    · rw [hshapes', hshapes, shapesAnew, shapesAnew, hbare.fresh_eq, hm.fresh_eq, hraw]
      rfl
  · rw [hown] at hi
    cases hi

/-! ### Bindings that are dropped -/

/-- Comparing drops no binding if the raw buildpath is the one before. -/
theorem keepsBindings_same (hm : m.Bare) {change : Change}
    (hraw : change.raw = (m.cell change.project).raw.map RawBuildpath.entries) :
    KeepsBindings m change := by
  intro i m₁ g hi _ m₂ hm₂
  have hsame : ∀ old, change.raw = some old → (m₁.cell change.project).rawEntries = old := by
    intro old hold
    obtain ⟨raw, hknown, rfl⟩ := Option.map_eq_some_iff.mp (hraw ▸ hold)
    have hmoves := Looks.resolution (R := KeepsShapes) change.project m hm
    have hm₁ : ((resolution change.project).run.run m).2 = m₁ := congrArg Prod.snd hi
    rw [hm₁] at hmoves
    rw [Cell.rawEntries, hmoves.known _ _ hknown]
    rfl
  refine ⟨m₂.registry, ?_, fun _ ↦ rfl⟩
  rw [compareRaws_same hsame]
  rfl

/-- Whether what a project without a result is resolved to counts. -/
private theorem isOk_of_resolution (hm : m.Bare) (hissued : (m.cell project).issued? = none) {i : Issued}
    (hrun : (resolution project).runOn m = (.ok i, m')) :
    i.result.isOk = (m.outcome makeNothing project (m.raw project).entries none).isOk := by
  have hexists := projectExists_of_resolution (congrArg Prod.fst hrun)
  obtain ⟨i', m₁, hrun', -, -, -, hresult⟩ := resolution_bare hm hexists
  obtain rfl : i = i' := Except.ok.inj (Prod.mk.inj (hrun.symm.trans hrun')).1
  rcases hresult with ⟨hi, -⟩ | ⟨last, hresult⟩
  · rw [hissued] at hi
    cases hi
  · rw [hresult, Resolved.isOk, Resolved.isOk, unresolved_outcome_last _ none last]

/-- Dropping bindings keeps the shapes of a project whose result counts, and otherwise if the containers
that it mentions hold the same. -/
private theorem shapesOf_dropped {registry : Registry} (hm : m.Bare)
    (hexists : m.workspace.projectExists project) {i : Issued}
    (hissued : (m.loaded project).issued? = some i)
    (hk : ¬ i.result.isOk → ∀ e ∈ (m.raw project).entries, e.kind = .container →
      containerEntries (registry.container? makeNothing e.path project) =
        containerEntries (m.registry.container? makeNothing e.path project)) :
    ({ m with registry } : Model).shapesOf project = m.shapesOf project := by
  by_cases hok : i.result.isOk
  · have hdropped : ({ m with registry } : Model).Bare := ⟨hm.initializers, hm.isIdle, hm.nesting⟩
    have hkept : (({ m with registry } : Model).loaded project).issued? = some i := hissued
    rw [hdropped.shapesOf_eq hexists, hm.shapesOf_eq hexists, hkept, hissued, Option.filter_some, if_pos hok]
  · exact shapesOf_of_bindings hm (fun _ _ _ ↦ rfl) (hk hok)

/-- Comparing raw buildpaths drops no binding that matters to shapes, if every new entry has one or the
containers whose bindings are dropped hold nothing. -/
theorem keepsBindings_replaced (hm : m.Bare) {change : Change} {raw : RawBuildpath}
    {before : List Entry} (hraw : (m.cell change.project).raw = some raw)
    (hissued : (m.cell change.project).issued? = none)
    (hbefore : ∀ old, change.raw = some old → old = before)
    (hallowed : (m.outcome makeNothing change.project raw.entries none).isOk ∨
      ∀ e ∈ raw.entries, e.kind = .container → ∀ o ∈ before, o.kind = .container → o.path = e.path →
        ¬ raw.entries.any (·.sameStructure o) →
          containerEntries (makeNothing e.path change.project) =
            containerEntries (m.registry.container? makeNothing e.path change.project)) :
    KeepsBindings m change := by
  intro i m₁ g hrun hg m₂ hm₂
  have hexists := projectExists_of_resolution (congrArg Prod.fst hrun)
  obtain ⟨i', m₁', hrun', -, hrereads, hown, -⟩ := resolution_shapes hm hexists
  obtain ⟨rfl, rfl⟩ : i = i' ∧ m₁ = m₁' := by
    have heq := Prod.mk.inj (hrun.symm.trans hrun')
    exact ⟨Except.ok.inj heq.1, heq.2⟩
  have htouched : m.Rereads m₂ := by
    rw [hm₂]
    exact hrereads.trans ((Ground.touched m₁ change.project : KeepsShapes _ _) (hrereads.bare hm))
  have hbare₂ := htouched.bare hm
  have hmraw : m.raw change.project = raw := by rw [Model.raw, hraw, Option.getD_some]
  have hentries : (m₁.cell change.project).rawEntries = raw.entries := by
    rw [Cell.rawEntries, hrereads.known _ _ hraw]
    rfl
  rw [hentries]
  cases hchange : change.raw with
  | none =>
    refine ⟨m₂.registry, ?_, fun _ ↦ rfl⟩
    rw [compareRaws, hchange]
    rfl
  | some old =>
    obtain rfl := hbefore old hchange
    have hcompared : ModelM.Moves (Model.Drops makeNothing g.project old raw.entries)
        (compareRaw old raw.entries g) := drops_compareRaw old raw.entries g
    obtain ⟨registry, hstate, hdrops, hothers⟩ := hcompared m₂
    rw [hg] at hdrops hothers
    rw [compareRaws, hchange]
    refine ⟨registry, hstate, fun q ↦ ?_⟩
    by_cases hq : change.project = q
    · subst hq
      have hissued₂ : (m₂.loaded change.project).issued? = some i := by
        rw [issued?_loaded, hm₂, cell_setCell, if_pos rfl, ← issued?_loaded, hown]
      have hexists₂ := (Workspace.projectExists_of_files htouched.files change.project).trans hexists
      refine shapesOf_dropped hbare₂ hexists₂ hissued₂ fun hfails e he hkind ↦ ?_
      have hholds := hallowed.resolve_left fun hbound ↦ hfails (by
        rw [isOk_of_resolution hm hissued hrun, hmraw]
        exact hbound)
      rw [htouched.raw, hmraw] at he
      rcases hdrops e.path with hsame | ⟨hmade, o, ho, hokind, hopath, hlacks⟩
      · rw [hsame]
      · rw [hmade, htouched.registry]
        exact hholds e he hkind o ho hokind hopath hlacks
    · refine shapesOf_of_bindings hbare₂ (fun _ _ _ ↦ rfl) fun e _ _ ↦ ?_
      rw [hothers e.path q hq]

/-- Replacing a raw buildpath drops no binding that matters to shapes, if every new entry has one or the
containers whose bindings are dropped hold nothing. -/
theorem keepsBindings_replaceRaw (hm : m.Bare) (hrereads : m.Rereads m₁) {cells : Table String Cell}
    {es : List Entry} {change : Change}
    (hraw : change.raw = (m₁.cell change.project).raw.map RawBuildpath.entries)
    (hown : ({ m₁ with cells } : Model).cell change.project = (m₁.cell change.project).setRaw es)
    (hallowed : (m.outcome makeNothing change.project es none).isOk ∨
      m.Remakes makeNothing change.project es) : KeepsBindings { m₁ with cells } change := by
  have hm₁ := hrereads.bare hm
  have hbare : ({ m₁ with cells } : Model).Bare := ⟨hm₁.initializers, hm₁.isIdle, hm₁.nesting⟩
  have hissued : (({ m₁ with cells } : Model).cell change.project).issued? = none := by
    rw [hown]
    rfl
  have hbefore : ∀ old, change.raw = some old → old = (m.raw change.project).entries := by
    intro old hold
    rw [hraw, Option.map_eq_some_iff] at hold
    obtain ⟨raw, hold, rfl⟩ := hold
    rw [← hrereads.raw, Model.raw, hold, Option.getD_some]
  refine keepsBindings_replaced hbare (congrArg Cell.raw hown) hissued hbefore
    (hallowed.imp (fun hbound ↦ ?_) fun hremakes e he hkind o ho ↦ ?_)
  · have houtcome := hrereads.outcome_eq makeNothing change.project es none
    exact (congrArg Resolved.isOk houtcome).trans hbound
  · have hregistry : ({ m₁ with cells } : Model).registry = m.registry := hrereads.registry
    rw [hregistry]
    exact hremakes e he hkind o ho

/-! ### Project files -/

/-- Models that come from one by saving the file of a project have the same script projects, if the rest of
the workspace stays as it is. -/
theorem sameNodes_since {es : List Entry} (hapart : m₀.Apart p es) (h : m₀.Since p m)
    (h' : m₀.Since p m') : m.SameNodes m' := by
  have hexists : ∀ q, m'.workspace.projectExists q = m.workspace.projectExists q := fun q ↦
    (hapart.projectExists _ h'.saves q).trans (hapart.projectExists _ h.saves q).symm
  have hscript : ∀ q, m'.workspace.isScript q = m.workspace.isScript q := fun q ↦
    (hapart.isScript _ h'.saves q).trans (hapart.isScript _ h.saves q).symm
  have hnode : ∀ q, m'.isNode q = m.isNode q := fun q ↦ by
    rw [Model.isNode, Model.isNode, hexists, hscript]
  refine ⟨?_, hnode, ?_⟩
  · rw [projectGraphNames, projectGraphNames, hapart.candidateNames _ h'.saves,
      hapart.candidateNames _ h.saves]
    exact List.filter_congr fun q _ ↦ hnode q
  · rw [Workspace.scriptProjects, Workspace.scriptProjects, hapart.projectNames _ h'.saves,
      hapart.projectNames _ h.saves]
    exact List.filter_congr fun q _ ↦ hscript q

/-- What saving the file of a project changes: the workspace, and the time of the file that is remembered. -/
theorem saveFile_run {es : List Entry} (h : (saveFile p es).runOn m = (.ok (), m')) :
    ∃ w cells, m' = { m with workspace := w, cells } ∧ m.workspace.Saves p w ∧
      ∀ q, (m'.cell q).raw = (m.cell q).raw ∧ (m'.cell q).issued? = (m.cell q).issued? := by
  obtain ⟨isWritten, w, hsaved, rfl⟩ := saveFile_eq_ok h
  refine ⟨w, _, rfl, .of_save hsaved, fun q ↦ ?_⟩
  rw [cell_setCell]
  split
  · next hq => exact hq ▸ ⟨rfl, rfl⟩
  · exact ⟨rfl, rfl⟩

/-- A change of the workspace keeps the shapes of a project whose raw buildpath stays, if its variables stand for
the same and libraries bring along the same. -/
theorem shapesOf_of_workspace (hm : m.Bare) {w : Workspace} {cells : Table String Cell}
    (hexists : w.projectExists q = m.workspace.projectExists q)
    (hlocation : w.projectLocation? q = m.workspace.projectLocation? q)
    (hissued : (({ m with workspace := w, cells } : Model).loaded q).issued? = (m.loaded q).issued?)
    (hraw : ({ m with workspace := w, cells } : Model).raw q = m.raw q)
    (hv : ∀ e ∈ (m.raw q).entries, e.kind = .variableRef →
      (m.variableValues.entry? w e).map Entry.site = (m.variableValues.entry? m.workspace e).map Entry.site)
    (hchained : m.followsLibraries → ∀ path external,
      w.chainedLibraries path external = m.workspace.chainedLibraries path external) :
    ({ m with workspace := w, cells } : Model).shapesOf q = m.shapesOf q := by
  have hbare : ({ m with workspace := w, cells } : Model).Bare :=
    ⟨hm.initializers, hm.isIdle, hm.nesting⟩
  rcases shapesOf_kept hm hbare hexists hissued with hsame | ⟨hshapes', hshapes⟩
  · exact hsame
  · have hlibraries : ({ m with workspace := w, cells } : Model).chained = m.chained := by
      funext path external
      rw [chained, chained]
      split
      · next hf => exact hchained hf path external
      · rfl
    rw [hshapes', hshapes, shapesAnew, shapesAnew, hbare.fresh_eq, hm.fresh_eq, hraw]
    exact shapes_of_bindings ⟨rfl, hlocation, rfl, rfl, hlibraries⟩ hv fun _ _ _ ↦ rfl

/-- Saving the file of a project keeps the shapes of a project whose raw buildpath stays, if its variables stand
for the same and libraries bring along the same. -/
theorem shapesOf_saved {es : List Entry} (hm : m.Bare) (hsave : (saveFile p es).runOn m = (.ok (), m'))
    (hexists : m'.workspace.projectExists q = m.workspace.projectExists q) (hraw : m'.raw q = m.raw q)
    (hv : ∀ e ∈ (m.raw q).entries, e.kind = .variableRef →
      (m.variableValues.entry? m'.workspace e).map Entry.site =
        (m.variableValues.entry? m.workspace e).map Entry.site)
    (hchained : m.followsLibraries → ∀ path external,
      m'.workspace.chainedLibraries path external = m.workspace.chainedLibraries path external) :
    m'.shapesOf q = m.shapesOf q := by
  obtain ⟨w, cells, rfl, hsaves, hcell⟩ := saveFile_run hsave
  refine shapesOf_of_workspace hm hexists (hsaves.projects.2 _) ?_ hraw hv hchained
  rw [issued?_loaded, issued?_loaded, (hcell q).1, (hcell q).2]

/-- Saving the file of a project keeps shapes, if the rest of the workspace stays as it is. -/
theorem sameLinks_saved {es : List Entry} (hm : m.Bare) (hapart : m₀.Apart p es)
    (hsince : m₀.Since p m) (hown : ∃ raw, (m.cell p).raw = some raw ∧ raw.entries = es)
    (hothers : ∀ q, p ≠ q → m.raw q = m₀.raw q) (hsave : (saveFile p es).runOn m = (.ok (), m')) :
    m.SameLinks m' ∧ m'.markers = m.markers := by
  obtain ⟨raw, hraw, hes⟩ := hown
  have hsaves := hsave
  obtain ⟨w, cells, rfl, hsaved, hcell⟩ := saveFile_run hsaves
  have hsince' : m₀.Since p { m with workspace := w, cells } := ⟨hsince.saves.trans hsaved,
    hsince.settings, hsince.followsLibraries, hsince.variableValues, hsince.initializers, hsince.nesting,
    hsince.resolving⟩
  have hraws : ∀ q, ({ m with workspace := w, cells } : Model).raw q = m.raw q := by
    intro q
    by_cases hq : p = q
    · subst hq
      rw [Model.raw, Model.raw, (hcell p).1, hraw, Option.getD_some, Option.getD_some]
    · rw [Model.raw, Model.raw, (hcell q).1, fileRaw, fileRaw, hapart.load _ hsince'.saves q hq,
        hapart.load _ hsince.saves q hq]
  have hdetached : ∀ q, m₀.Detached p (m.raw q).entries := by
    intro q
    by_cases hq : p = q
    · subst hq
      rw [Model.raw, hraw, Option.getD_some, hes]
      exact hapart.own
    · exact hothers q hq ▸ hapart.others q hq
  refine ⟨⟨⟨hm.initializers, hm.isIdle, hm.nesting⟩, sameNodes_since hapart hsince hsince', fun q ↦ ?_, hraws,
    fun q raw h ↦ (hcell q).1.trans h⟩, rfl⟩
  refine shapesOf_saved hm hsave ?_ (hraws q) (fun e he hkind ↦ ?_) fun hf path external ↦ ?_
  · exact (hapart.projectExists _ hsince'.saves q).trans (hapart.projectExists _ hsince.saves q).symm
  · rw [hsince.variableValues, (hdetached q).variableEntries _ hsince'.saves e he hkind,
      (hdetached q).variableEntries _ hsince.saves e he hkind]
  · rw [hsince.followsLibraries] at hf
    rw [(hdetached q).libraries hf _ hsince'.saves, (hdetached q).libraries hf _ hsince.saves]

/-! ### Names in order -/

/-- Merge sort is defined by well-founded recursion, so that `decide` gets stuck on it. -/
theorem projectNames_eq_insertionSort (w : Workspace) : w.projectNames = match w with
    | .memory m => m.projects.keys.insertionSort (· ≤ ·)
    | .directory d => d.projectNames := by
  cases w with
  | memory m => exact List.mergeSort_eq_insertionSort (· ≤ ·) _
  | directory d => rfl

theorem sortNames_eq_insertionSort (names : List String) :
    sortNames names = (names.insertionSort (· ≤ ·)).eraseReps :=
  congrArg List.eraseReps (List.mergeSort_eq_insertionSort (· ≤ ·) names)

end ModelM

end Buildpath
