import Buildpath.Proofs.Model.References

/-!
# References along operations

The references of a script project are some names of its own and what it requires (`Model.Follows`). They are so
after every operation that changes buildpaths, as long as the project requires none of the names of its own
(`references_follow`): the projects whose links an operation changes are resolved anew, or have their raw
buildpath replaced, and the change that comes of it makes their references follow.
-/

namespace Buildpath

variable {m m' m'' m₀ : Model} {p name : String} {before ls : List Path} {manual : String → Prop}

namespace ModelM

open Model

/-! ### Projects that are resolved anew -/

/-- A project that is resolved anew has the links that it is resolved to from the beginning, and its references
follow them. Other projects keep theirs. -/
private theorem renew_exchanges (hm : m.Bare) (item : String × Option Issued) :
    m.Confined item.1 ((renew item).run m).2 ∧ (m.workspace.projectExists item.1 →
      ((renew item).run m).2.linksOf item.1 = m.linksAnew item.1 ∧ ∀ old, item.2 = some old →
        m.Exchanges ((renew item).run m).2 item.1 (links old.result.entries)) := by
  obtain ⟨-, hupholds, hrenewed⟩ := renew_upholds hm item
  obtain ⟨cells, change, hrun, hproject, hresolved, -, hcell⟩ := renew_run m item
  have hforget := (upholds_invalidate hcell).1
  have hbare := hforget.bare hm
  obtain ⟨hothers, -⟩ := shapesOf_forgotten hm hcell
  have hforgotten : m.Confined item.1 { m with cells } := by
    refine ⟨hbare, rfl, hforget.raw, fun q raw hraw ↦ ?_, hothers, fun _ _ ↦ rfl⟩
    rw [hcell]
    split
    · next hq => exact hq ▸ hraw
    · exact hraw
  obtain ⟨hconfined, hexchanges⟩ := applyChange_exchanges hbare change false
  rw [hproject, hresolved] at hexchanges
  rw [hproject] at hconfined
  refine ⟨hrun ▸ hforgotten.trans hconfined, fun hexists ↦
    ⟨links_of_shapes (shapesOf_renewed hm hupholds hexists hrenewed), ?_⟩⟩
  rw [hrun]
  exact hexchanges hexists

/-- References follow links while projects are resolved anew, given the links that they had. -/
private theorem refersTo_refresh (hm : m.Bare) (hexists : m.workspace.projectExists p)
    {projects : List (String × Option Issued)}
    (htold : ∀ item ∈ projects, item.1 = p → ∃ i, item.2 = some i ∧ links i.result.entries = before)
    (hdisjoint : ∀ name, manual name → name ∉ requiredNames before) (hrefers : m.RefersTo p manual before)
    (hlinks : p ∉ projects.map Prod.fst → m.linksOf p = before) :
    ((refresh projects).run m).2.RefersTo p manual (((refresh projects).run m).2.linksOf p) := by
  -- the references name the links that a project had until it is resolved anew
  suffices hall : ∀ ls, m.RefersTo p manual ls → ls = before ∨ ls = m.linksAnew p →
      (p ∉ projects.map Prod.fst → m.linksOf p = ls) →
        ((projects.mapM renew).run m).2.Bare ∧ ((projects.mapM renew).run m).2.RefersTo p manual
          (((projects.mapM renew).run m).2.linksOf p) by
    obtain ⟨hbare, hrefers'⟩ := hall before hrefers (.inl rfl) hlinks
    have hroots := (Ground.clearRoots _ : WritesNothing _ _) hbare
    intro name
    have hend : ((refresh projects).run m).2 = ((projects.mapM renew).run m).2.clearRoots := rfl
    rw [hend, hroots.workspace, hroots.linksOf]
    exact hrefers' name
  clear hrefers hlinks
  intro ls hrefers hls hlinks
  induction projects generalizing m ls with
  | nil =>
    obtain rfl := hlinks List.not_mem_nil
    exact ⟨hm, hrefers⟩
  | cons item projects ih =>
    obtain ⟨hconfined, hown⟩ := renew_exchanges hm item
    have halike := (renew_upholds hm item).2.1.toResembles
    rw [mapM_renew_cons]
    have hexists' := (Workspace.projectExists_of_files hconfined.files p).trans hexists
    have hanew : ((renew item).run m).2.linksAnew p = m.linksAnew p := halike.linksAnew_eq hm p
    have hrest := fun other hmem ↦ htold other (List.mem_cons_of_mem item hmem)
    by_cases hp : item.1 = p
    · subst hp
      obtain ⟨i, hi, rfl⟩ := htold item List.mem_cons_self rfl
      obtain ⟨hlinks', hexchanges⟩ := hown hexists
      have hrefers' := hrefers.exchange (hexchanges i hi) hdisjoint (hlinks' ▸ hls)
      exact ih hconfined.bare hexists' hrest _ hrefers' (.inr (hlinks'.trans hanew.symm)) fun _ ↦ rfl
    · refine ih hconfined.bare hexists' hrest ls (fun name ↦ ?_) (hanew ▸ hls) fun hout ↦ ?_
      · rw [hconfined.references p hp]
        exact hrefers name
      · rw [hconfined.linksOf hp]
        exact hlinks fun hin ↦ (List.mem_cons.mp hin).elim (fun heq ↦ hp heq.symm) hout

end ModelM

namespace Model

/-- Whether a script project that is listed refers to some names of its own and to those that its links
name. -/
structure Tracks (m : Model) (project : String) (manual : String → Prop) : Prop where
  bare : m.Bare
  listed : project ∈ m.workspace.scriptProjects
  isThere : m.workspace.projectExists project
  refers : m.RefersTo project manual (m.linksOf project)

theorem Tracks.of_files (h : m.Tracks p manual) (hm' : m'.Bare)
    (hfiles : m'.workspace.files = m.workspace.files) (hrefers : m'.RefersTo p manual (m'.linksOf p)) :
    m'.Tracks p manual :=
  ⟨hm', Workspace.scriptProjects_of_files hfiles ▸ h.listed,
    (Workspace.projectExists_of_files hfiles p).trans h.isThere, hrefers⟩

theorem Tracks.of_unwritten (h : m.Tracks p manual) (hunwritten : m.Unwritten m') : m'.Tracks p manual := by
  refine h.of_files (hunwritten.bare h.bare) hunwritten.files fun name ↦ ?_
  rw [hunwritten.workspace, hunwritten.linksOf]
  exact h.refers name

end Model

namespace ModelM

open Model

/-! ### Operations -/

/-- After bindings were changed, references follow links once the projects were resolved anew that the change
matters to. -/
private theorem tracks_rebound {registry : Registry} {variableValues : Variables} (h : m.Tracks p manual)
    (hdisjoint : ∀ name, manual name → name ∉ requiredNames (m.linksOf p)) (hunwritten : m.Unwritten m')
    {projects : List (String × Option Issued)}
    (hrecalls : ∀ item ∈ projects, Recalls WritesNothing m item)
    (hothers : p ∉ projects.map Prod.fst →
      ({ m' with registry, variableValues } : Model).linksOf p = m.linksOf p)
    {deltas : List GeneratedDelta}
    (hrenewed : Renewed projects { m' with registry, variableValues } deltas m'') (held : HeldRules) :
    ({ m'' with held } : Model).Tracks p manual := by
  have hm' := hunwritten.bare h.bare
  have hbare : ({ m' with registry, variableValues } : Model).Bare :=
    ⟨hm'.initializers, hm'.isIdle, hm'.nesting⟩
  have hrefers : ({ m' with registry, variableValues } : Model).RefersTo p manual (m.linksOf p) := by
    intro name
    rw [← h.refers name, ← hunwritten.workspace]
  suffices hm'' : m''.Tracks p manual from
    hm''.of_unwritten ((Looks.holds m'' held : WritesNothing _ _) hm''.bare)
  rcases hrenewed with ⟨rfl, rfl, rfl⟩ | hrun
  · exact h.of_files hbare hunwritten.files (hothers List.not_mem_nil ▸ hrefers)
  · obtain ⟨rfl, rfl⟩ := Prod.mk.inj hrun
    have hupholds := (refresh_upholds hbare projects).2.1
    refine h.of_files (hupholds.bare hbare) (hupholds.files.trans hunwritten.files) ?_
    refine refersTo_refresh hbare ((Workspace.projectExists_of_files hunwritten.files p).trans h.isThere)
      (fun item hmem hp ↦ ?_) hdisjoint hrefers hothers
    subst hp
    refine links_of_recalls ((hrecalls item hmem).mono fun h hm ↦ ?_) h.bare h.isThere
    exact (h hm).toRereads

/-- Binding containers keeps references in line with links. -/
private theorem tracks_setContainer (h : m.Tracks p manual)
    (hdisjoint : ∀ name, manual name → name ∉ requiredNames (m.linksOf p)) (path : Path)
    (containers : List (String × Option Container)) :
    ((setContainer path containers).runOn m).2.Tracks p manual := by
  obtain ⟨projects, m₁, hsteps, hprojects, hrecalls, deltas, m₃, held, hrun, hrenewed⟩ :=
    setContainer_run (R := WritesNothing) h.bare path containers
  have hunwritten : m.Unwritten m₁ := hsteps h.bare
  rw [hrun]
  refine tracks_rebound h hdisjoint hunwritten hrecalls (fun hout ↦ ?_) hrenewed held
  exact linksOf_eq (shapesOf_put h.bare hunwritten.toRereads (isScript_of_mem_scriptProjects h.listed)
    (hprojects ▸ hout))

/-- Setting variables keeps references in line with links. -/
private theorem tracks_setVariables (h : m.Tracks p manual)
    (hdisjoint : ∀ name, manual name → name ∉ requiredNames (m.linksOf p))
    (values : List (String × Option Path)) : ((setVariables values).runOn m).2.Tracks p manual := by
  by_cases hunchanged : m.variableValues.changedBy values = []
  · rw [setVariables_unchanged hunchanged]
    exact h
  · obtain ⟨projects, m₁, hsteps, hprojects, hrecalls, deltas, m₃, held, hrun, hrenewed⟩ :=
      setVariables_run (R := WritesNothing) h.bare hunchanged
    have hunwritten : m.Unwritten m₁ := hsteps h.bare
    rw [hrun]
    refine tracks_rebound h hdisjoint hunwritten hrecalls (fun hout ↦ ?_) hrenewed held
    obtain ⟨hname, hscript⟩ := List.mem_filter.mp h.listed
    refine linksOf_eq <| shapesOf_assign h.bare hunwritten.toRereads hscript fun hmentions ↦ hout ?_
    rw [hprojects]
    exact List.mem_filter.mpr ⟨hname, hmentions⟩

/-- Replacing the raw buildpath of a project makes its references follow its links, before its file is written.
Other projects keep theirs. -/
private theorem replaceRaw_exchanges (hm : m.Bare) (project : String) (es : List Entry) (saves : Bool)
    (hm' : m' = ((replaceRaw project es saves).run m).2) :
    m'.Bare ∧ m'.workspace.files = m.workspace.files ∧
      (∃ raw, (m'.cell project).raw = some raw ∧ raw.entries = es) ∧
      (∀ q, project ≠ q → m'.raw q = m.raw q ∧ m'.linksOf q = m.linksOf q ∧
        m'.workspace.references q = m.workspace.references q) ∧
      (m.workspace.projectExists project → m.Exchanges m' project (m.linksOf project)) := by
  obtain ⟨m₁, cells, change, hinspect, hrun, hproject, -, hresolved, -, hown, hothers⟩ :=
    replaceRaw_run m project es saves
  have hlooks : (inspect project).Moves WritesNothing :=
    .bind (moves_flushMarkers _ _ _) fun _ ↦ .bind (Looks.loadRaw project) fun _ ↦
      .bind (Looks.resolution project) fun _ ↦ moves_knownFragments Looks.resolution project
  have hunwritten : m.Unwritten ((inspect project).run m).2 := hlooks m hm
  have hanswers := (spares_inspect hm project).2
  rw [hinspect] at hunwritten hanswers
  have hm₁ := hunwritten.bare hm
  have hbare : ({ m₁ with cells } : Model).Bare := ⟨hm₁.initializers, hm₁.isIdle, hm₁.nesting⟩
  obtain ⟨hkept, -⟩ := shapesOf_replaced hm₁ hown hothers
  obtain ⟨hconfined, hexchanges⟩ := applyChange_exchanges hbare change saves
  rw [hproject] at hconfined hexchanges
  rw [hm', hrun]
  refine ⟨hconfined.bare, hconfined.files.trans hunwritten.files,
    ⟨_, hconfined.known project _ (congrArg Cell.raw hown), rfl⟩, fun q hq ↦ ⟨?_, ?_, ?_⟩, fun hexists ↦ ?_⟩
  · exact (hconfined.raw q).trans ((hkept q hq).1.trans (hunwritten.raw q))
  · exact (hconfined.linksOf hq).trans ((linksOf_eq (hkept q hq).2).trans (hunwritten.linksOf q))
  · rw [hconfined.references q hq]
    exact congrArg (Workspace.references · q) hunwritten.workspace
  · obtain ⟨i, hi, hold⟩ := hanswers hexists
    have hchange := hexchanges (hunwritten.workspace ▸ hexists) i (hresolved.trans (issued?_of_loaded hi))
    have hlinks : links i.result.entries = m.linksOf project :=
      (links_of_shapes hold).trans (hunwritten.linksOf project)
    rw [hlinks] at hchange
    refine hchange.imp (fun hreplaces name ↦ ?_) fun ⟨hlinks, hreferences⟩ ↦ ⟨hlinks, ?_⟩
    · rw [hreplaces name]
      change name ∈ m₁.workspace.references project ∧ _ ∨ _ ↔ _
      rw [hunwritten.workspace]
    · rw [hreferences]
      exact congrArg (Workspace.references · project) hunwritten.workspace

end ModelM

namespace Model

/-- Whether saving the file of a project leaves the workspace as it is, as far as it matters to what a project is
resolved to: this stays a script project, its file holds the same unless it is the one that is saved, its
variables stand for the same, and libraries bring along the same. -/
structure FixedFor (project saved : String) (m m' : Model) : Prop where
  listed : project ∈ m'.workspace.scriptProjects
  load : saved ≠ project → ProjectFile.load m'.workspace project = ProjectFile.load m.workspace project
  variableEntries : ∀ e ∈ (m'.raw project).entries, e.kind = .variableRef →
    (m.variableValues.entry? m'.workspace e).map Entry.site =
      (m.variableValues.entry? m.workspace e).map Entry.site
  libraries : m.followsLibraries → ∀ path external,
    m'.workspace.chainedLibraries path external = m.workspace.chainedLibraries path external

end Model

namespace ModelM

open Model

/-- Replacing the raw buildpath of a project keeps references in line with links, before its file is
written. -/
private theorem tracks_replaceRaw (h : m.Tracks p manual)
    (hdisjoint : ∀ name, manual name → name ∉ requiredNames (m.linksOf p)) (project : String)
    (es : List Entry) (saves : Bool) : ((replaceRaw project es saves).run m).2.Tracks p manual := by
  obtain ⟨hbare, hfiles, -, hothers, hexchanges⟩ := replaceRaw_exchanges h.bare project es saves rfl
  refine h.of_files hbare hfiles ?_
  by_cases hp : project = p
  · subst hp
    exact h.refers.exchange (hexchanges h.isThere) hdisjoint (.inl rfl)
  · obtain ⟨-, hlinks, hreferences⟩ := hothers p hp
    intro name
    rw [hlinks, hreferences]
    exact h.refers name

/-- Saving the file of a project keeps references in line with links, if the rest of the workspace stays as
it was before the raw buildpath was replaced. -/
private theorem tracks_saveFile (h : m'.Tracks p manual) {project : String} {es : List Entry}
    {raw : RawBuildpath} (hsince : m.Since project m') (hfiles : m'.workspace.files = m.workspace.files)
    (hraw : (m'.cell project).raw = some raw) (hsave : (saveFile project es).runOn m' = (.ok (), m''))
    (hfixed : m.FixedFor p project m'') : m''.Tracks p manual := by
  obtain ⟨w, cells, rfl, hsaved, hcell⟩ := saveFile_run hsave
  obtain ⟨isWritten, w', hwritten, hm''⟩ := saveFile_eq_ok hsave
  have hexists := hsaved.projects.1 p h.isThere
  have hraws : ({ m' with workspace := w, cells } : Model).raw p = m'.raw p := by
    by_cases hp : project = p
    · subst hp
      rw [Model.raw, Model.raw, (hcell project).1, hraw, Option.getD_some, Option.getD_some]
    · have hload : ProjectFile.load w p = ProjectFile.load m'.workspace p :=
        (hfixed.load hp).trans (ProjectFile.load_of_files hfiles p).symm
      rw [Model.raw, Model.raw, (hcell p).1, fileRaw, fileRaw, hload]
  have hlinks : ({ m' with workspace := w, cells } : Model).linksOf p = m'.linksOf p := by
    refine linksOf_eq <| shapesOf_saved h.bare hsave (hexists.trans h.isThere.symm) hraws
      (fun e he hkind ↦ ?_) fun hf path external ↦ ?_
    · rw [hsince.variableValues, entry?_of_files hfiles]
      exact hfixed.variableEntries e (hraws ▸ he) hkind
    · rw [Workspace.chainedLibraries_of_files hfiles]
      exact hfixed.libraries (hsince.followsLibraries ▸ hf) path external
  refine ⟨⟨h.bare.initializers, h.bare.isIdle, h.bare.nesting⟩, hfixed.listed, hexists, fun name ↦ ?_⟩
  obtain rfl : w = w' := congrArg Model.workspace hm''
  rw [hlinks, ← h.refers name]
  change name ∈ w.references p ↔ _
  rw [ProjectFile.references_save hwritten]

/-- Replacing raw buildpaths keeps references in line with links, whether a file is written or not. -/
private theorem tracks_setRaw (h : m.Tracks p manual)
    (hdisjoint : ∀ name, manual name → name ∉ requiredNames (m.linksOf p)) {project : String}
    {es : List Entry} {saves : Bool} (hm' : m' = ((setRawBuildpath project es saves).runOn m).2)
    (hfixed : saves → m.FixedFor p project m') : m'.Tracks p manual := by
  obtain ⟨begun, m₂, held, held', rfl, hend, hcases⟩ := setRaw_cases m project es saves
  have hbegun : m.Unwritten { m with held } := (Looks.holds m held : WritesNothing _ _) h.bare
  have htracks := h.of_unwritten hbegun
  rw [hend] at hm'
  subst hm'
  suffices hm₂ : m₂.Tracks p manual from
    hm₂.of_unwritten ((Looks.holds m₂ held' : WritesNothing _ _) hm₂.bare)
  have hreplaced : ((replaceRaw project es saves).run { m with held }).2.Tracks p manual :=
    tracks_replaceRaw htracks (hbegun.linksOf p ▸ hdisjoint) project es saves
  rcases hcases with rfl | rfl | ⟨hsaves, hsave⟩
  · exact htracks
  · exact hreplaced
  · obtain ⟨-, hfiles, ⟨raw, hraw, -⟩, -⟩ := replaceRaw_exchanges htracks.bare project es saves rfl
    have hsince : Model.Since project { m with held } ((replaceRaw project es saves).run { m with held }).2 :=
      moves_replaceRaw since_resolution (fun _ _ _ ↦ ⟨.refl, rfl, rfl, rfl, rfl, rfl, rfl⟩) project es saves
        { m with held }
    have hfix := hfixed hsaves
    exact tracks_saveFile hreplaced hsince hfiles hraw hsave
      ⟨hfix.listed, hfix.load, hfix.variableEntries, hfix.libraries⟩

end ModelM

namespace Model

/-- Whether an operation replaces a raw buildpath, binds containers, sets variables or resolves a project, and the
workspace is fixed for a project but for a project file that is saved. -/
def LeavesFixed (project : String) (m : Model) : Operation → Prop
  | .setRaw saved entries saves =>
    saves → m.FixedFor project saved ((Operation.setRaw saved entries saves).apply m)
  | .setContainer _ _ | .setVariables _ | .ask (.resolution _) => True
  | .close _ | .put _ _ | .ask _ => False

/-- One operation keeps references in line with links, if the project requires no name of its own before. -/
theorem Tracks.step (h : m.Tracks p manual) (hdisjoint : ∀ name, manual name → name ∉ requiredNames (m.linksOf p))
    {op : Operation} (hop : m.LeavesFixed p op) : (op.apply m).Tracks p manual := by
  cases op with
  | setRaw project entries saves => exact ModelM.tracks_setRaw h hdisjoint rfl hop
  | setContainer path containers => exact ModelM.tracks_setContainer h hdisjoint path containers
  | setVariables values => exact ModelM.tracks_setVariables h hdisjoint values
  | close | put => cases hop
  | ask query =>
    cases query with
    | resolution project =>
      exact h.of_unwritten ((Looks.resolution project m : WritesNothing _ _) h.bare)
    | raw | container | fragments | visibleRoots | expanded | children | cycles | cycle => cases hop

/-- Whether a project is resolved to a buildpath that requires a project. -/
def Requires (m : Model) (project name : String) : Prop :=
  ∃ i, ((ModelM.resolution project).runOn m).1 = .ok i ∧ name ∈ prerequisites i.result.entries

/-- Whether a project can be resolved, and refers to some names of its own and to the projects that it requires. -/
structure Follows (m : Model) (project : String) (manual : String → Prop) : Prop where
  resolves : ((ModelM.resolution project).runOn m).1.isOk
  refers : ∀ name, name ∈ m.workspace.references project ↔ manual name ∨ m.Requires project name

theorem requires_iff (hm : m.Bare) (hexists : m.workspace.projectExists p) :
    m.Requires p name ↔ name ∈ requiredNames (m.linksOf p) := by
  obtain ⟨i, m', hrun, -, -, hlinks⟩ := ModelM.resolution_links hm hexists
  rw [← hlinks, ← mem_prerequisites, Requires, hrun]
  exact ⟨fun ⟨j, hj, hname⟩ ↦ Except.ok.inj hj ▸ hname, fun hname ↦ ⟨i, rfl, hname⟩⟩

theorem tracks_iff (hm : m.Bare) (hlisted : p ∈ m.workspace.scriptProjects) :
    m.Tracks p manual ↔ m.Follows p manual := by
  refine ⟨fun h ↦ ⟨?_, fun name ↦ ?_⟩, fun h ↦ ?_⟩
  · obtain ⟨i, m', hrun, -⟩ := ModelM.resolution_links hm h.isThere
    rw [hrun]
    rfl
  · rw [requires_iff hm h.isThere]
    exact h.refers name
  · obtain ⟨i, hi⟩ : ∃ i, ((ModelM.resolution p).runOn m).1 = .ok i := by
      have hok := h.resolves
      cases hi : ((ModelM.resolution p).runOn m).1 with
      | ok i => exact ⟨i, rfl⟩
      | error failure =>
        rw [hi] at hok
        cases hok
    have hexists := ModelM.projectExists_of_resolution hi
    exact ⟨hm, hlisted, hexists, fun name ↦ (h.refers name).trans (or_congr_right (requires_iff hm hexists))⟩

end Model

namespace ModelM

open Model

/-- Where no initializer runs, the references of a script project follow its buildpath. If they are some names of
its own and the projects that it requires, they are so after every operation that replaces a raw buildpath, binds
containers or sets variables, as long as the project requires none of the names of its own. -/
theorem references_follow (hm : m₀.Bare) (hlisted : p ∈ m₀.workspace.scriptProjects)
    (h : m₀.Follows p manual) (hreaches : m₀.Reaches
      (fun m op ↦ m.LeavesFixed p op ∧ ∀ name, manual name → ¬ m.Requires p name) m) :
    m.Follows p manual := by
  suffices htracks : m.Tracks p manual from (tracks_iff htracks.bare htracks.listed).mp htracks
  induction hreaches with
  | start => exact (tracks_iff hm hlisted).mpr h
  | next _ hop ih =>
    refine ih.step (fun name hmanual hname ↦ ?_) hop.1
    exact hop.2 name hmanual ((requires_iff ih.bare ih.isThere).mpr hname)

/-- A project that requires another one, which it refers to, beside a name of its own. -/
def referringProject : Model :=
  let m := Model.ofBuildpaths [("p", [.project (.parse "/a")]), ("a", []), ("b", [])]
  { m with workspace := (m.workspace.setReferences "p" ["a", "manual"]).toOption.getD m.workspace }

/-- A variable that has no value yet. -/
def variableEntry : Entry := { kind := .variableRef, path := .parse "V" }

/-- The project requires another one instead, and what the variable stands for. -/
def movedReference : Model :=
  (Operation.setRaw "p" [.project (.parse "/b"), variableEntry] true).apply referringProject

/-- The variable stands for the project that was required first. -/
def assignedReference : Model := (Operation.setVariables [("V", some (.parse "/a"))]).apply movedReference

private theorem referringProject_runs :
    "p" ∈ referringProject.workspace.scriptProjects ∧ referringProject.workspace.projectExists "p" ∧
    referringProject.workspace.references "p" = ["a", "manual"] ∧
    ((resolution "p").runOn referringProject).1.isOk ∧
    requiredNames (referringProject.linksOf "p") = ["a"] := by
  simp only [Workspace.scriptProjects, projectNames_eq_insertionSort]
  decide +kernel

private theorem movedReference_runs :
    "p" ∈ movedReference.workspace.scriptProjects ∧
    requiredNames (movedReference.linksOf "p") = ["b"] := by
  simp only [movedReference, Operation.apply, Operation.steps, setRawBuildpath, applyChange,
    updateReferences, validateCycles, cycleParticipants, Workspace.scriptProjects,
    projectNames_eq_insertionSort, sortNames_eq_insertionSort]
  decide +kernel

private theorem assignedReference_references :
    assignedReference.workspace.references "p" = ["a", "b", "manual"] := by
  simp only [assignedReference, movedReference, Operation.apply, Operation.steps, setVariables, refresh,
    setRawBuildpath, applyChange, updateReferences, validateCycles, cycleParticipants,
    Workspace.scriptProjects, projectNames_eq_insertionSort, sortNames_eq_insertionSort]
  decide +kernel

private theorem referringProject_bare : referringProject.Bare := ⟨rfl, rfl, by decide⟩

private theorem referringProject_follows : referringProject.Follows "p" (· = "manual") := by
  obtain ⟨-, hexists, hreferences, hresolves, hnames⟩ := referringProject_runs
  refine ⟨hresolves, fun name ↦ ?_⟩
  rw [hreferences, requires_iff referringProject_bare hexists, hnames]
  simp [or_comm]

/-- Variables have no values yet, so that none stands for another entry once the file is saved. -/
private theorem movedReference_fixed : referringProject.LeavesFixed "p"
    (.setRaw "p" [.project (.parse "/b"), variableEntry] true) := by
  refine fun _ ↦ ⟨movedReference_runs.1, fun h ↦ absurd rfl h, fun e _ hkind ↦ ?_, fun hf ↦ ?_⟩
  · have hnone : ∀ w, Variables.entry? referringProject.variableValues w e = none := by
      intro w
      unfold Variables.entry?
      rw [if_neg (by simp [hkind])]
      unfold Variables.path?
      cases e.path.firstSegment? <;> rfl
    rw [hnone, hnone]
  · exact absurd hf (by decide)

private theorem assignedReference_reached : referringProject.Reaches (fun m op ↦ m.LeavesFixed "p" op ∧
    ∀ name, name = "manual" → ¬ m.Requires "p" name) assignedReference := by
  obtain ⟨hlisted, hexists, -, -, hnames⟩ := referringProject_runs
  have hdisjoint : ∀ name, name = "manual" → name ∉ requiredNames (referringProject.linksOf "p") := by
    rintro _ rfl
    rw [hnames]
    decide
  have htracks := (tracks_iff referringProject_bare hlisted).mpr referringProject_follows
  have hmoved : movedReference.Tracks "p" (· = "manual") := htracks.step hdisjoint movedReference_fixed
  refine .next (.next .start ⟨movedReference_fixed, fun name hname ↦ ?_⟩) ⟨trivial, ?_⟩
  · rw [requires_iff referringProject_bare hexists]
    exact hdisjoint name hname
  · rintro _ rfl hrequires
    rw [requires_iff hmoved.bare hmoved.isThere, movedReference_runs.2] at hrequires
    exact absurd hrequires (by decide)

/-- The name of its own stays among the references of the project, and the others change with what it
requires. -/
theorem moved_references_follow : referringProject.Bare ∧
    "p" ∈ referringProject.workspace.scriptProjects ∧ referringProject.Follows "p" (· = "manual") ∧
    referringProject.Reaches (fun m op ↦ m.LeavesFixed "p" op ∧
      ∀ name, name = "manual" → ¬ m.Requires "p" name) assignedReference ∧
    assignedReference.Follows "p" (· = "manual") ∧
    referringProject.workspace.references "p" = ["a", "manual"] ∧
    assignedReference.workspace.references "p" = ["a", "b", "manual"] :=
  ⟨referringProject_bare, referringProject_runs.1, referringProject_follows, assignedReference_reached,
    references_follow referringProject_bare referringProject_runs.1 referringProject_follows
      assignedReference_reached, referringProject_runs.2.2.1, assignedReference_references⟩

end ModelM

end Buildpath
