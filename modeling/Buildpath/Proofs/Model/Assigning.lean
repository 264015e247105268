import Buildpath.Proofs.Model.Current

/-!
# Setting variables

Setting variables resolves those projects anew that have a variable entry whose path starts with one that
changed. Entries also name variables in the paths of their attachments, which is not asked for: script
projects come to current results again if they are resolved anew, or if none of their attachments starts
with a variable that changed (`setVariables_refreshes`); otherwise an old attachment may be kept
(`attachment_is_kept`).
-/

namespace Buildpath

variable {m m' : Model} {project name : String} {names : List String} {v v' : Variables}
  {values : List (String × Option Path)} {path : Path} {e : Entry}

/-! ### Values -/

namespace Variables

/-- The values after some were set, one after the other. -/
def assign (v : Variables) (values : List (String × Option Path)) : Variables :=
  values.foldl (fun v (name, value) ↦ ModelM.setVariable v name value) v

/-- The names that are set to values that they do not have. -/
def changedBy (v : Variables) (values : List (String × Option Path)) : List String :=
  (values.filter fun (name, value) ↦ v.find? name ≠ value).map Prod.fst

theorem find?_setVariable (v : Variables) (other : String) (value : Option Path) (name : String) :
    ( ModelM.setVariable v other value).find? name = if other = name then value else v.find? name := by
  cases value with
  | none => exact Table.find?_erase _ _ _
  | some value => exact Table.find?_insert _ _ _ _

/-- A variable keeps its value if it is set to no other one. -/
theorem find?_assign (h : name ∉ v.changedBy values) : (v.assign values).find? name = v.find? name := by
  have hkept : ∀ item ∈ values, item.1 = name → v.find? name = item.2 := by
    rintro item hitem rfl
    by_contra hchanged
    exact h (List.mem_map.mpr ⟨item, List.mem_filter.mpr ⟨hitem, by simpa using hchanged⟩, rfl⟩)
  clear h
  generalize hv : v.find? name = value at hkept
  rw [assign]
  induction values generalizing v with
  | nil => exact hv
  | cons item values ih =>
    obtain ⟨hitem, hvalues⟩ := List.forall_mem_cons.mp hkept
    refine ih ?_ hvalues
    rw [find?_setVariable]
    split
    · next hname => exact (hitem hname).symm
    · exact hv

theorem path?_congr (h : ∀ name, path.firstSegment? = some name → v'.find? name = v.find? name) :
    v'.path? path = v.path? path := by
  unfold path?
  cases hfirst : path.firstSegment? with
  | none => rfl
  | some name =>
    change (v'.find? name).bind _ = (v.find? name).bind _
    rw [h name hfirst]

/-- What a variable entry stands for depends on the variables that its path and its attachment start
with. -/
theorem entry?_congr {w : Workspace} (hpath : v'.path? e.path = v.path? e.path)
    (hattachment : ∀ p, e.attachmentPath = some p → v'.path? p = v.path? p) :
    v'.entry? w e = v.entry? w e := by
  have hmap : (e.attachmentPath.map fun p ↦ (v'.path? p).getD p) =
      e.attachmentPath.map fun p ↦ (v.path? p).getD p := by
    cases ha : e.attachmentPath with
    | none => rfl
    | some p => exact congrArg (fun o : Option Path ↦ some (o.getD p)) (hattachment p ha)
  unfold entry?
  rw [hpath, hmap]

end Variables

/-- Whether an entry is a variable entry whose path starts with one of some variables. -/
def Entry.startsWith (names : List String) (e : Entry) : Bool :=
  e.kind = .variableRef && e.path.firstSegment?.any (· ∈ names)

/-- An entry stands for the same if neither its path nor its attachment starts with a variable that is
set to another value. -/
theorem Variables.entry?_assign {w : Workspace} (hkind : e.kind = .variableRef)
    (hpath : ¬ e.startsWith (v.changedBy values))
    (hattachment : ∀ p ∈ e.attachmentPath, ∀ name ∈ p.firstSegment?, name ∉ v.changedBy values) :
    Variables.entry? (v.assign values) w e = v.entry? w e := by
  refine entry?_congr (path?_congr fun name hname ↦ find?_assign fun hmem ↦ hpath ?_)
    fun p hp ↦ path?_congr fun name hname ↦ find?_assign (hattachment p hp name hname)
  simp [Entry.startsWith, hkind, hname, hmem]

namespace ModelM

open Model

theorem setVariables_eq (values : List (String × Option Path)) :
    setVariables values = get >>= fun m ↦
      if (m.variableValues.changedBy values).isEmpty then pure [] else
        m.workspace.projectNames.filterM
            (fun project ↦ mentions project (·.startsWith (m.variableValues.changedBy values))) >>=
          fun affected ↦ holding (affected.map .project)
            (affected.mapM (fun project ↦ attempt (resolution project) >>= fun r ↦
                pure (project, r.toOption)) >>= fun old ↦
              (modify fun m ↦ { m with variableValues := m.variableValues.assign values }) >>= fun _ ↦
                monadLift (refresh old)) := by
  rfl

/-- Setting variables to values that they have does nothing. -/
theorem setVariables_unchanged (h : m.variableValues.changedBy values = []) :
    (setVariables values).runOn m = (.ok [], m) := by
  have hget : (get : Action Model).runOn m = (.ok m, m) := rfl
  rw [setVariables_eq, Action.bind_runOn, hget]
  dsimp only
  rw [if_pos (List.isEmpty_iff.mpr h)]
  rfl

/-- Setting variables looks at the projects that mention one that changes, gives the variables their values,
and resolves these projects anew. -/
theorem setVariables_run {G : Model → Prop} {R : Model → Model → Prop} [Looks G R] (hm : G m)
    (h : m.variableValues.changedBy values ≠ []) :
    ∃ (projects : List (String × Option Issued)) (m₁ : Model), R m m₁ ∧
      projects.map Prod.fst = m.workspace.projectNames.filter
        (m.mentions (·.startsWith (m.variableValues.changedBy values))) ∧
      (∀ item ∈ projects, Recalls R m item) ∧
      ∃ deltas m₂ held, (setVariables values).runOn m = (.ok deltas, { m₂ with held }) ∧
        Renewed projects { m₁ with variableValues := m₁.variableValues.assign values } deltas m₂ := by
  have hget : (get : Action Model).runOn m = (.ok m, m) := rfl
  obtain ⟨m₁, hfilter, hlooked⟩ := filterM_mentions (R := R) hm
    (·.startsWith (m.variableValues.changedBy values)) m.workspace.projectNames
  generalize m.workspace.projectNames.filter
    (m.mentions (·.startsWith (m.variableValues.changedBy values))) = affected at hfilter ⊢
  let taken := m₁.held.acquire (affected.map .project)
  have hbegun : R m { m₁ with held := taken.2 } := Chained.trans hlooked (Looks.holds m₁ taken.2)
  obtain ⟨projects, m₂, hmap, hresolved, hprojects, hrecalls⟩ :=
    mapM_resolution (R := R) (Looks.stays hbegun hm) affected
  let r := (refresh projects).run { m₂ with variableValues := m₂.variableValues.assign values }
  refine ⟨projects, m₂, Chained.trans hbegun hresolved, hprojects,
    fun item hmem ↦ (hrecalls item hmem).of_step hbegun, r.1, r.2, r.2.held.release taken.1, ?_,
    .inr rfl⟩
  rw [setVariables_eq, Action.bind_runOn, hget]
  dsimp only
  rw [if_neg fun hempty ↦ h (List.isEmpty_iff.mp hempty)]
  refine Action.bind_eq_ok.mpr ⟨affected, m₁, hfilter, holding_eq.mpr ⟨_, ?_, rfl⟩⟩
  exact Action.bind_eq_ok.mpr ⟨projects, m₂, hmap, rfl⟩

/-- Where nothing but raw buildpaths and bindings decides what projects are resolved to, setting variables
resolves those script projects anew that have a variable entry whose path starts with one that changed.
Script projects whose results were current come to current results again if they are among these, or if
no attachment of their variable entries starts with a variable that changed. -/
theorem setVariables_refreshes (hm : m.Plain) (values : List (String × Option Path)) :
    ∃ deltas m', (setVariables values).runOn m = (.ok deltas, m') ∧
      (∀ name, m'.variableValues.find? name = (m.variableValues.assign values).find? name) ∧
      ({ m with variableValues := m'.variableValues } : Model).Resembles m' ∧
      deltas.map GeneratedDelta.project = m.workspace.projectNames.filter
        (m.mentions (·.startsWith (m.variableValues.changedBy values))) ∧
      ∀ q ∈ m.workspace.scriptProjects, m.workspace.projectExists q → m.Current q →
        (m.mentions (·.startsWith (m.variableValues.changedBy values)) q ∨
          ∀ e ∈ (m.raw q).entries, e.kind = .variableRef →
            ∀ p ∈ e.attachmentPath, ∀ name ∈ p.firstSegment?,
              name ∉ m.variableValues.changedBy values) →
        ∃ i, ((resolution q).runOn m').1 = .ok i ∧ i.result = m'.fresh q := by
  by_cases hchanged : m.variableValues.changedBy values = []
  · refine ⟨[], m, setVariables_unchanged hchanged,
      fun name ↦ (Variables.find?_assign (by simp [hchanged])).symm, .refl m, ?_,
      fun q _ hexists hq _ ↦ resolution_of_current hm hexists hq⟩
    symm
    simp [hchanged, Model.mentions, Entry.startsWith]
  · obtain ⟨projects, m₁, hsteps, hprojects, -, deltas, m₃, held, hrun, hrenewed⟩ :=
      setVariables_run (R := KeepsResults) hm.toBare hchanged
    have hupholds : m.Upholds m₁ := hsteps hm.toBare
    let m₂ : Model := { m₁ with variableValues := m₁.variableValues.assign values }
    have hm₂ : m₂.Plain := (hupholds.plain hm).of_bindings
    obtain ⟨hdeltas, hrefreshes, -⟩ := current_of_renewed hm₂ hrenewed
    let m' : Model := { m₃ with held }
    have hend : m₂.Upholds m' := hrefreshes.trans (.of_held _)
    have hvalues : m'.variableValues = m.variableValues.assign values :=
      hend.variableValues.trans (congrArg (Variables.assign · values) hupholds.variableValues)
    refine ⟨_, m', hrun, fun name ↦ by rw [hvalues], ?_, hdeltas.trans hprojects,
      fun q hq hexists hq' hconcerns ↦ ?_⟩
    · rw [hvalues]
      have hset := (hupholds.of_variables (m₁.variableValues.assign values)).trans hend.toResembles
      rwa [hupholds.variableValues] at hset
    · obtain ⟨hname, hscript⟩ := List.mem_filter.mp hq
      have hexists₂ := (Workspace.projectExists_of_files hupholds.files q).trans hexists
      refine resolution_of_renewed hm₂ hrenewed held hexists₂ fun hout ↦ ?_
      -- a project that is not resolved anew has no entry that the variables matter to
      have hunmentioned : ¬ m.mentions (·.startsWith (m.variableValues.changedBy values)) q :=
        fun hmentions ↦ hout (hprojects ▸ List.mem_filter.mpr ⟨hname, hmentions⟩)
      refine (hupholds.current hm hq').of_bindings (hupholds.plain hm) (fun e he hkind ↦ ?_) fun _ _ _ ↦ rfl
      rw [hupholds.raw] at he
      rw [hupholds.variableValues]
      exact Variables.entry?_assign hkind (fun hstarts ↦ hunmentioned (mentions_of_mem hscript he hstarts))
        (hconcerns.resolve_left hunmentioned e he hkind)

/-- An archive with its sources, both in places that variables stand for. -/
def archiveEntry : Entry :=
  { kind := .variableRef, path := .parse "LIB/a.zip", attachmentPath := some (.parse "SRC/src.zip") }

/-- A project with the archive. -/
def attachedArchive : Model :=
  { Model.ofBuildpaths [("p", [archiveEntry])] with
    variableValues := (Table.empty.insert "LIB" (.parse "/ext")).insert "SRC" (.parse "/old") }

/-- The project was resolved. -/
def resolvedArchive : Model := ((resolution "p").runOn attachedArchive).2

private theorem attachedArchive_plain : attachedArchive.Plain := ⟨⟨rfl, rfl, by decide⟩, rfl⟩

private theorem resolvedArchive_plain : resolvedArchive.Plain :=
  (keepsResults_resolution "p" attachedArchive attachedArchive_plain.toBare).plain attachedArchive_plain

private theorem resolvedArchive_current (q : String) : resolvedArchive.Current q := by
  have hupholds : attachedArchive.Upholds resolvedArchive :=
    keepsResults_resolution "p" attachedArchive attachedArchive_plain.toBare
  refine hupholds.current attachedArchive_plain fun i hi ↦ ?_
  obtain ⟨raw, hcell⟩ := cell_ofBuildpaths [("p", [archiveEntry])] q
  change (Model.cell (.ofBuildpaths _) q).issued? = some i at hi
  rw [hcell] at hi
  cases hi

/-- If the archive moves, the project is resolved anew. -/
theorem moved_archive_is_found : resolvedArchive.Plain ∧
    "p" ∈ resolvedArchive.workspace.scriptProjects ∧ resolvedArchive.workspace.projectExists "p" ∧
    resolvedArchive.Current "p" ∧
    ∃ deltas m' i,
      (setVariables [("LIB", some (.parse "/new"))]).runOn resolvedArchive = (.ok deltas, m') ∧
      ((resolution "p").runOn m').1 = .ok i ∧ i.result = m'.fresh "p" := by
  have hscript : "p" ∈ resolvedArchive.workspace.scriptProjects := by decide +kernel
  have hexists : resolvedArchive.workspace.projectExists "p" := by decide +kernel
  obtain ⟨deltas, m', hrun, -, -, -, hfresh⟩ :=
    setVariables_refreshes resolvedArchive_plain [("LIB", some (.parse "/new"))]
  obtain ⟨i, hi, hresult⟩ := hfresh "p" hscript hexists (resolvedArchive_current "p")
    (.inl (by decide +kernel))
  exact ⟨resolvedArchive_plain, hscript, hexists, resolvedArchive_current "p", deltas, m', i, hrun, hi,
    hresult⟩

/-- If only the sources of the archive move, the old place of the sources is kept, although all results
were current and setting the variable succeeds. -/
theorem attachment_is_kept : resolvedArchive.Plain ∧ (∀ q, resolvedArchive.Current q) ∧
    "p" ∈ resolvedArchive.workspace.scriptProjects ∧ ∃ m',
      (setVariables [("SRC", some (.parse "/new"))]).runOn resolvedArchive = (.ok [], m') ∧
      ((resolution "p").runOn m').1.toOption.map (fun i ↦ i.result.entries.map (·.attachmentPath)) =
        some [some (.parse "/old/src.zip")] ∧
      (m'.fresh "p").entries.map (·.attachmentPath) = [some (.parse "/new/src.zip")] := by
  obtain ⟨deltas, hrun⟩ := Action.runOn_eq_ok (setVariables [("SRC", some (.parse "/new"))])
    resolvedArchive (by decide +kernel)
  have hnone : ((setVariables [("SRC", some (.parse "/new"))]).runOn resolvedArchive).1.toOption.map
      List.isEmpty = some true := by
    decide +kernel
  rw [hrun] at hnone
  obtain rfl : deltas = [] := List.isEmpty_iff.mp (Option.some.inj hnone)
  exact ⟨resolvedArchive_plain, resolvedArchive_current, by decide +kernel, _, hrun, by decide +kernel,
    by decide +kernel⟩

end ModelM

end Buildpath
