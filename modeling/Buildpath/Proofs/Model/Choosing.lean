import Buildpath.Proofs.Model.Resembling

/-!
# Which projects are resolved anew

Before containers are bound and variables set, the projects are looked at that may mention them. What is
found depends on raw buildpaths and bindings only (`mentions_run`), so that looking at one project does
not change what is found of the next one (`foldlM_choose`, `filterM_mentions`).
-/

namespace Buildpath

variable {m m' : Model} {path : Path} {project : String}
  {containers : List (String × Option Container)}

/-! ### Bindings -/

namespace Registry

theorem find?_put_of_notMem {r : Registry} {key : BindingKey}
    (h : key.2 = path → key.1 ∉ containers.map Prod.fst) :
    (r.put path containers).bindings.find? key = r.bindings.find? key := by
  induction containers generalizing r with
  | nil => rfl
  | cons item containers ih =>
    have hrest : key.2 = path → key.1 ∉ containers.map Prod.fst := fun hpath hmem ↦
      h hpath (List.mem_cons_of_mem _ hmem)
    refine (ih hrest).trans ?_
    rw [find?_set, if_neg]
    rintro rfl
    exact h rfl List.mem_cons_self

/-- Each project of a list of distinct ones is bound as the list says. -/
theorem peek?_put {r : Registry} (hdistinct : (containers.map Prod.fst).Nodup)
    {item : String × Option Container} (h : item ∈ containers) :
    (r.put path containers).peek? path item.1 = item.2 := by
  induction containers generalizing r with
  | nil => cases h
  | cons first containers ih =>
    obtain ⟨hfirst, hdistinct⟩ := List.nodup_cons.mp hdistinct
    rcases List.mem_cons.mp h with rfl | h
    · have hput : r.put path (item :: containers) =
          (r.set path item.1 item.2).put path containers := rfl
      rw [peek?, hput, find?_put_of_notMem fun _ ↦ hfirst]
      exact peek?_set r path item.1 item.2
    · exact ih hdistinct h

end Registry

/-! ### What projects mention -/

/-- Whether an entry mentions the container of a path. -/
def Entry.isContainerAt (path : Path) (e : Entry) : Bool := e.kind = .container && e.path = path

theorem Entry.isContainerAt_iff {e : Entry} :
    e.isContainerAt path ↔ e.kind = .container ∧ e.path = path := by
  simp [Entry.isContainerAt]

/-- A relation that is kept by looking at projects and leads to models that are alike, from models of a
kind to models of that kind. -/
class Looks (G : outParam (Model → Prop)) (R : Model → Model → Prop) : Prop extends Chained R where
  loadRaw : ∀ project, (ModelM.loadRaw project).Moves R
  resolution : ∀ project, Action.Moves R (ModelM.resolution project)
  holds : ∀ (m : Model) held, R m { m with held }
  resembles : ∀ {m m' : Model}, R m m' → G m → m.Resembles m'
  stays : ∀ {m m' : Model}, R m m' → G m → G m'

instance : Looks Model.Bare Model.KeepsResults where
  loadRaw project m _ := ModelM.upholds_loadRaw m project
  resolution := ModelM.keepsResults_resolution
  holds _ held _ := .of_held held
  resembles h hm := (h hm).toResembles
  stays h hm := (h hm).bare hm

namespace Model

/-- Whether the raw buildpath of a script project has an entry that passes a test. -/
def mentions (m : Model) (test : Entry → Bool) (project : String) : Bool :=
  m.workspace.isScript project && (m.raw project).entries.any test

theorem mentions_of_mem {test : Entry → Bool} {e : Entry} (hscript : m.workspace.isScript project)
    (he : e ∈ (m.raw project).entries) (htest : test e) : m.mentions test project := by
  rw [mentions, hscript, Bool.true_and, List.any_eq_true]
  exact ⟨e, he, htest⟩

theorem any_of_mentions {test : Entry → Bool} (h : m.mentions test project) :
    (m.raw project).entries.any test := by
  rw [mentions, Bool.and_eq_true] at h
  exact h.2

theorem Resembles.mentions_eq (h : m.Resembles m') : m'.mentions = m.mentions := by
  funext test project
  rw [mentions, mentions, Workspace.isScript_of_files h.files, h.raw]

/-- Whether a project mentions a container but is bound already as it is to be bound. -/
def isBoundTo (m : Model) (path : Path) (item : String × Option Container) : Bool :=
  m.mentions (·.isContainerAt path) item.1 && m.registry.peek? path item.1 = item.2

/-- Whether binding a project to a container changes the binding of a script project that mentions
it. -/
def rebinds (m : Model) (path : Path) (item : String × Option Container) : Bool :=
  m.mentions (·.isContainerAt path) item.1 && m.registry.peek? path item.1 ≠ item.2

theorem not_rebinds_of_isBoundTo {item : String × Option Container} (h : m.isBoundTo path item) :
    m.rebinds path item = false := by
  obtain ⟨-, hbound⟩ := Bool.and_eq_true_iff.mp h
  simp [rebinds, of_decide_eq_true hbound]

theorem Resembles.isBoundTo_eq (h : m.Resembles m') : m'.isBoundTo path = m.isBoundTo path := by
  funext item
  rw [isBoundTo, isBoundTo, h.mentions_eq, h.registry]

theorem Resembles.rebinds_eq (h : m.Resembles m') : m'.rebinds path = m.rebinds path := by
  funext item
  rw [rebinds, rebinds, h.mentions_eq, h.registry]

/-- Each listed project is bound as it is listed, if those are left out that are bound so already. -/
theorem peek?_put_unbound (hdistinct : (containers.map Prod.fst).Nodup)
    {item : String × Option Container} (h : item ∈ containers) :
    (m.registry.put path (containers.filter (!m.isBoundTo path ·))).peek? path item.1 = item.2 := by
  by_cases hbound : m.isBoundTo path item
  · have hnone : item.1 ∉ (containers.filter (!m.isBoundTo path ·)).map Prod.fst := by
      intro hmem
      obtain ⟨other, hother, hname⟩ := List.mem_map.mp hmem
      obtain ⟨hother, hunbound⟩ := List.mem_filter.mp hother
      obtain rfl : other = item := List.inj_on_of_nodup_map hdistinct hother h hname
      rw [hbound] at hunbound
      cases hunbound
    rw [Registry.peek?, Registry.find?_put_of_notMem fun _ ↦ hnone]
    exact of_decide_eq_true (Bool.and_eq_true_iff.mp hbound).2
  · exact Registry.peek?_put (hdistinct.sublist (List.filter_sublist.map _))
      (List.mem_filter.mpr ⟨h, by simpa using hbound⟩)

/-- A script project that mentions the container is resolved anew if it is bound. -/
theorem mem_rebinds_of_mentions (hmentions : m.mentions (·.isContainerAt path) project)
    (h : project ∈ (containers.filter (!m.isBoundTo path ·)).map Prod.fst) :
    project ∈ (containers.filter (m.rebinds path)).map Prod.fst := by
  obtain ⟨item, hitem, rfl⟩ := List.mem_map.mp h
  obtain ⟨hlisted, hunbound⟩ := List.mem_filter.mp hitem
  refine List.mem_map.mpr ⟨item, List.mem_filter.mpr ⟨hlisted, ?_⟩, rfl⟩
  rw [rebinds, hmentions]
  rw [isBoundTo, hmentions] at hunbound
  simpa using hunbound

/-- Whether a project is given with what it is resolved to somewhere on the way from a model. -/
def Recalls (R : Model → Model → Prop) (m : Model) (item : String × Option Issued) : Prop :=
  ∃ m', R m m' ∧ item.2 = ((ModelM.resolution item.1).runOn m').1.toOption

theorem Recalls.of_step {R : Model → Model → Prop} [Chained R] {item : String × Option Issued}
    (hstep : R m m') (h : Recalls R m' item) : Recalls R m item := by
  obtain ⟨m'', hsteps, hresult⟩ := h
  exact ⟨m'', Chained.trans hstep hsteps, hresult⟩

theorem Recalls.mono {R R' : Model → Model → Prop} {item : String × Option Issued} (h : Recalls R m item)
    (hR : ∀ {m m' : Model}, R m m' → R' m m') : Recalls R' m item := by
  obtain ⟨m', hstep, hresult⟩ := h
  exact ⟨m', hR hstep, hresult⟩

/-- Whether projects were resolved anew, if there are any. -/
def Renewed (projects : List (String × Option Issued)) (m : Model) (deltas : List GeneratedDelta)
    (m' : Model) : Prop :=
  projects = [] ∧ deltas = [] ∧ m' = m ∨ (ModelM.refresh projects).run m = (deltas, m')

end Model

namespace ModelM

open Model

variable {G : Model → Prop} {R : Model → Model → Prop} [Looks G R]

/-- Whether a project mentions something is read off its raw buildpath. -/
theorem mentions_eq (m : Model) (test : Entry → Bool) (project : String) :
    ((mentions project test).run m).1 = m.mentions test project := by
  have hrun : (mentions project test).run m = ((if !m.workspace.isScript project then pure false
      else loadRaw project >>= fun raw ↦ pure (raw.entries.any test) : ModelM Bool)).run m := by
    rw [mentions]
    rfl
  rw [hrun, Model.mentions]
  cases m.workspace.isScript project with
  | false => rfl
  | true =>
    obtain ⟨cells, hload, -⟩ := loadRaw_run m project
    change (((loadRaw project).run m).1.entries.any test) = _
    rw [hload]
    rfl

theorem mentions_run (_ : G m) (test : Entry → Bool) (project : String) :
    ((mentions project test).run m).1 = m.mentions test project ∧
      R m ((mentions project test).run m).2 :=
  ⟨mentions_eq m test project, moves_mentions Looks.loadRaw project test m⟩

/-! ### Projects that are bound to containers -/

/-- Adds a project to those that are bound, unless it is bound already as it is to be bound, and to
those that are resolved anew if its binding matters to it. -/
def choose (path : Path)
    (chosen : List (String × Option Container) × List (String × Option Issued))
    (item : String × Option Container) :
    Action (List (String × Option Container) × List (String × Option Issued)) := do
  match ← rebinding path item.1 item.2 with
  | none => return chosen
  | some isMentioned =>
    if isMentioned then
      return (chosen.1 ++ [item],
        chosen.2 ++ [(item.1, (← attempt (resolution item.1)).toOption)])
    else return (chosen.1 ++ [item], chosen.2)

theorem setContainer_eq (path : Path) (containers : List (String × Option Container)) :
    setContainer path containers = holding (containers.map fun item ↦ .project item.1)
      (containers.foldlM (choose path) ([], []) >>= fun chosen ↦
        monadLift (modifyRegistry (·.put path chosen.1)) >>= fun _ ↦
        if chosen.2.isEmpty then pure [] else monadLift (refresh chosen.2)) := by
  rfl

/-- Whether a project is resolved anew is decided by what it mentions, and by its binding. -/
theorem rebinding_eq (m : Model) (path : Path) (item : String × Option Container) :
    (rebinding path item.1 item.2).run m =
      (if m.mentions (·.isContainerAt path) item.1 then
        if ((mentions item.1 (·.isContainerAt path)).run m).2.registry.peek? path item.1 = item.2
        then none else some true
      else some false, ((mentions item.1 (·.isContainerAt path)).run m).2) := by
  rw [← mentions_eq]
  unfold rebinding
  rw [StateT.run_bind]
  change ((if ((mentions item.1 (·.isContainerAt path)).run m).1 then _ else _ :
    ModelM (Option Bool)).run ((mentions item.1 (·.isContainerAt path)).run m).2) = _
  split <;> rfl

private theorem rebinding_run (hm : G m) (path : Path) (item : String × Option Container) :
    ((rebinding path item.1 item.2).run m).1 =
        (if m.isBoundTo path item then none else some (m.rebinds path item)) ∧
      R m ((rebinding path item.1 item.2).run m).2 := by
  obtain ⟨-, hstep⟩ := mentions_run (R := R) hm (·.isContainerAt path) item.1
  rw [rebinding_eq, (Looks.resembles hstep hm).registry, isBoundTo, rebinds]
  refine ⟨?_, hstep⟩
  cases m.mentions (·.isContainerAt path) item.1 with
  | false => rfl
  | true => by_cases hbound : m.registry.peek? path item.1 = item.2 <;> simp [hbound]

private theorem choose_run (hm : G m) (path : Path)
    (chosen : List (String × Option Container) × List (String × Option Issued))
    (item : String × Option Container) :
    ∃ chosen' m', (choose path chosen item).runOn m = (.ok chosen', m') ∧ R m m' ∧
      chosen'.1 = chosen.1 ++ [item].filter (!m.isBoundTo path ·) ∧
      chosen'.2.map Prod.fst =
        chosen.2.map Prod.fst ++ ([item].filter (m.rebinds path)).map Prod.fst ∧
      ∀ recalled ∈ chosen'.2, recalled ∈ chosen.2 ∨ Recalls R m recalled := by
  obtain ⟨hrebinding, hstep⟩ := rebinding_run (R := R) hm path item
  rcases hrun : (rebinding path item.1 item.2).run m with ⟨answer, m₁⟩
  rw [hrun] at hrebinding hstep
  have hresolution : R m₁ ((resolution item.1).runOn m₁).2 := Looks.resolution item.1 m₁
  have hfirst : (monadLift (rebinding path item.1 item.2) : Action (Option Bool)).runOn m =
      (.ok answer, m₁) := by
    rw [Action.runOn_lift, hrun]
  have hanswer : answer = if m.isBoundTo path item then none else some (m.rebinds path item) :=
    hrebinding
  cases hbound : m.isBoundTo path item with
  | true =>
    rw [if_pos hbound] at hanswer
    subst hanswer
    refine ⟨chosen, m₁, Action.bind_eq_ok.mpr ⟨none, m₁, hfirst, rfl⟩, hstep, ?_, ?_, fun _ ↦ .inl⟩
    · simp [hbound]
    · simp [not_rebinds_of_isBoundTo hbound]
  | false =>
    rw [if_neg (by simp [hbound])] at hanswer
    subst hanswer
    cases hrenewed : m.rebinds path item with
    | false =>
      refine ⟨(chosen.1 ++ [item], chosen.2), m₁, ?_, hstep, by simp [hbound], by simp [hrenewed],
        fun _ ↦ .inl⟩
      exact Action.bind_eq_ok.mpr ⟨some false, m₁, hrenewed ▸ hfirst, rfl⟩
    | true =>
      refine ⟨(chosen.1 ++ [item],
        chosen.2 ++ [(item.1, ((resolution item.1).runOn m₁).1.toOption)]), _, ?_,
        Chained.trans hstep hresolution, by simp [hbound], by simp [hrenewed], fun recalled hmem ↦ ?_⟩
      · exact Action.bind_eq_ok.mpr ⟨some true, m₁, hrenewed ▸ hfirst, rfl⟩
      · refine (List.mem_append.mp hmem).imp_right fun hmem ↦ ?_
        rw [List.mem_singleton.mp hmem]
        exact ⟨m₁, hstep, rfl⟩

/-- The projects that are bound are those that are not bound already as they are to be bound, and of
these the ones are resolved anew that mention the container. -/
theorem foldlM_choose (hm : G m) (path : Path) (containers : List (String × Option Container))
    (chosen : List (String × Option Container) × List (String × Option Issued)) :
    ∃ chosen' m', (containers.foldlM (choose path) chosen).runOn m = (.ok chosen', m') ∧ R m m' ∧
      chosen'.1 = chosen.1 ++ containers.filter (!m.isBoundTo path ·) ∧
      chosen'.2.map Prod.fst =
        chosen.2.map Prod.fst ++ (containers.filter (m.rebinds path)).map Prod.fst ∧
      ∀ recalled ∈ chosen'.2, recalled ∈ chosen.2 ∨ Recalls R m recalled := by
  induction containers generalizing m chosen with
  | nil => exact ⟨chosen, m, rfl, Chained.refl m, by simp, by simp, fun _ ↦ .inl⟩
  | cons item containers ih =>
    obtain ⟨chosen₁, m₁, hrun₁, hstep₁, hbound₁, hrenewed₁, hrecalls₁⟩ :=
      choose_run (R := R) hm path chosen item
    obtain ⟨chosen₂, m₂, hrun₂, hstep₂, hbound₂, hrenewed₂, hrecalls₂⟩ :=
      ih (Looks.stays hstep₁ hm) chosen₁
    have halike := Looks.resembles hstep₁ hm
    refine ⟨chosen₂, m₂, ?_, Chained.trans hstep₁ hstep₂, ?_, ?_, fun recalled hmem ↦ ?_⟩
    · rw [List.foldlM_cons]
      exact Action.bind_eq_ok.mpr ⟨chosen₁, m₁, hrun₁, hrun₂⟩
    · rw [hbound₂, hbound₁, halike.isBoundTo_eq, List.append_assoc, ← List.filter_append]
      rfl
    · rw [hrenewed₂, hrenewed₁, halike.rebinds_eq, List.append_assoc, ← List.map_append,
        ← List.filter_append]
      rfl
    · rcases hrecalls₂ recalled hmem with hmem | ⟨m₃, hstep₃, hresult⟩
      · exact hrecalls₁ recalled hmem
      · exact .inr ⟨m₃, Chained.trans hstep₁ hstep₃, hresult⟩

/-- Binding projects to a container looks at them, binds them, and resolves those anew that mention it and
whose binding changes. -/
theorem setContainer_run (hm : G m) (path : Path) (containers : List (String × Option Container)) :
    ∃ (projects : List (String × Option Issued)) (m₁ : Model), R m m₁ ∧
      projects.map Prod.fst = (containers.filter (m.rebinds path)).map Prod.fst ∧
      (∀ item ∈ projects, Recalls R m item) ∧
      ∃ deltas m₂ held, (setContainer path containers).runOn m = (.ok deltas, { m₂ with held }) ∧
        Renewed projects
          { m₁ with registry := m₁.registry.put path (containers.filter (!m.isBoundTo path ·)) }
          deltas m₂ := by
  let taken := m.held.acquire (containers.map fun item ↦ .project item.1)
  have hbegun : R m { m with held := taken.2 } := Looks.holds m taken.2
  have halike := Looks.resembles hbegun hm
  obtain ⟨⟨bound, projects⟩, m₁, hchoose, hsteps, hbound, hprojects, hrecalls⟩ :=
    foldlM_choose (R := R) (Looks.stays hbegun hm) path containers ([], [])
  replace hbound : bound = containers.filter (!m.isBoundTo path ·) := by
    rw [← halike.isBoundTo_eq]
    exact hbound
  subst hbound
  let m₂ : Model :=
    { m₁ with registry := m₁.registry.put path (containers.filter (!m.isBoundTo path ·)) }
  have hrefresh : ∃ deltas m₃, (if projects.isEmpty then pure [] else monadLift (refresh projects) :
      Action (List GeneratedDelta)).runOn m₂ = (.ok deltas, m₃) ∧ Renewed projects m₂ deltas m₃ := by
    cases hempty : projects.isEmpty with
    | true => exact ⟨[], m₂, rfl, .inl ⟨List.isEmpty_iff.mp hempty, rfl, rfl⟩⟩
    | false => exact ⟨_, _, rfl, .inr rfl⟩
  obtain ⟨deltas, m₃, hrefresh, hrenewed⟩ := hrefresh
  refine ⟨projects, m₁, Chained.trans hbegun hsteps, ?_, fun item hmem ↦ ?_, deltas, m₃,
    m₃.held.release taken.1, ?_, hrenewed⟩
  · rw [← halike.rebinds_eq]
    exact hprojects
  · exact ((hrecalls item hmem).resolve_left List.not_mem_nil).of_step hbegun
  · rw [setContainer_eq]
    refine holding_eq.mpr ⟨m₃, Action.bind_eq_ok.mpr ⟨_, m₁, hchoose, ?_⟩, rfl⟩
    exact Action.bind_eq_ok.mpr ⟨(), m₂, rfl, hrefresh⟩

/-! ### Projects that mention variables -/

/-- Of some projects, those are picked that mention something. -/
theorem filterM_mentions (hm : G m) (test : Entry → Bool) (names : List String) :
    ∃ m', Action.runOn (names.filterM fun project ↦ mentions project test) m =
        (.ok (names.filter (m.mentions test)), m') ∧ R m m' := by
  have hpicked : ∀ picked : List String, ∃ m',
      Action.runOn (names.filterAuxM (fun project ↦ mentions project test) picked) m =
        (.ok ((names.filter (m.mentions test)).reverse ++ picked), m') ∧ R m m' := by
    induction names generalizing m with
    | nil => exact fun picked ↦ ⟨m, rfl, Chained.refl m⟩
    | cons first names ih =>
      intro picked
      obtain ⟨hmentions, hstep⟩ := mentions_run (R := R) hm test first
      obtain ⟨m', hrun, hrest⟩ := ih (Looks.stays hstep hm)
        (bif m.mentions test first then first :: picked else picked)
      refine ⟨m', Action.bind_eq_ok.mpr ⟨m.mentions test first, _, ?_, hrun.trans ?_⟩,
        Chained.trans hstep hrest⟩
      · rw [Action.runOn_lift, hmentions]
      · rw [(Looks.resembles hstep hm).mentions_eq]
        cases hfirst : m.mentions test first <;> simp [hfirst]
  obtain ⟨m', hrun, hstep⟩ := hpicked []
  refine ⟨m', Action.bind_eq_ok.mpr ⟨_, m', hrun, ?_⟩, hstep⟩
  rw [List.append_nil, List.reverse_reverse]
  rfl

/-- Some projects are resolved. -/
theorem mapM_resolution (hm : G m) (names : List String) :
    ∃ (old : List (String × Option Issued)) (m' : Model), Action.runOn (names.mapM fun project ↦
        attempt (resolution project) >>= fun r ↦ pure (project, r.toOption)) m = (.ok old, m') ∧
      R m m' ∧ old.map Prod.fst = names ∧ ∀ recalled ∈ old, Recalls R m recalled := by
  induction names generalizing m with
  | nil => exact ⟨[], m, rfl, Chained.refl m, rfl, nofun⟩
  | cons first names ih =>
    have hstep : R m ((resolution first).runOn m).2 := Looks.resolution first m
    obtain ⟨old, m', hrun, hrest, hold, hrecalls⟩ := ih (Looks.stays hstep hm)
    refine ⟨(first, ((resolution first).runOn m).1.toOption) :: old, m', ?_,
      Chained.trans hstep hrest, congrArg (first :: ·) hold, fun recalled hmem ↦ ?_⟩
    · rw [List.mapM_cons]
      exact Action.bind_eq_ok.mpr ⟨_, _, rfl, Action.bind_eq_ok.mpr ⟨old, m', hrun, rfl⟩⟩
    · rcases List.mem_cons.mp hmem with rfl | hmem
      · exact ⟨m, Chained.refl m, rfl⟩
      · obtain ⟨m₁, hstep₁, hresult⟩ := hrecalls recalled hmem
        exact ⟨m₁, Chained.trans hstep hstep₁, hresult⟩

/-! ### Resolving projects anew -/

/-- Resolves a project anew and applies the change that comes of it. -/
def renew (item : String × Option Issued) : ModelM GeneratedDelta := do
  let fragments := (← cell item.1).fragments
  let change ← changeBy item.1 Cell.invalidate fragments item.2
  applyChange change false

/-- Projects are resolved anew one after the other. -/
theorem mapM_renew_cons (m : Model) (item : String × Option Issued)
    (projects : List (String × Option Issued)) : ((item :: projects).mapM renew).run m =
      (((renew item).run m).1 :: ((projects.mapM renew).run ((renew item).run m).2).1,
        ((projects.mapM renew).run ((renew item).run m).2).2) := by
  rw [List.mapM_cons]
  rfl

/-- A project is resolved anew by forgetting its result and comparing. -/
theorem renew_run (m : Model) (item : String × Option Issued) : ∃ cells change,
    (renew item).run m = (applyChange change false).run { m with cells } ∧
      change.project = item.1 ∧ change.resolved = item.2 ∧
      change.raw = (m.cell item.1).raw.map RawBuildpath.entries ∧
      ∀ q, ({ m with cells } : Model).cell q =
        if item.1 = q then (m.cell item.1).invalidate else m.cell q := by
  let m₁ := m.setCell item.1 (m.cell item.1)
  let m₂ := m₁.setCell item.1 (m₁.cell item.1)
  have hown : m₂.cell item.1 = m.cell item.1 := by
    rw [cell_setCell, if_pos rfl, cell_setCell, if_pos rfl]
  refine ⟨(m₂.setCell item.1 (m₂.cell item.1).invalidate).cells, _, rfl, rfl, rfl, ?_, fun q ↦ ?_⟩
  · exact congrArg (fun c : Cell ↦ c.raw.map RawBuildpath.entries)
      ((m.cell_setCell item.1 item.1 (m.cell item.1)).trans (if_pos rfl))
  · refine (cell_setCell m₂ item.1 q _).trans ?_
    rw [hown]
    split
    · rfl
    · next hq => rw [cell_setCell, if_neg hq, cell_setCell, if_neg hq]

/-- Comparing raw buildpaths that are the same drops no binding. -/
theorem compareRaws_same {change : Change} {es : List Entry}
    (h : ∀ old, change.raw = some old → es = old) (g : GeneratedDelta) :
    compareRaws change es g = pure g := by
  unfold compareRaws
  cases hraw : change.raw with
  | none => rfl
  | some old =>
    dsimp only
    rw [h old hraw, compareRaw, if_pos (sameStructure_self old)]

/-- Comparing a project that is missing finds nothing. -/
theorem generateDelta_missing (h : ¬ m.workspace.projectExists change.project) :
    (generateDelta change).run m =
      (({ project := change.project, delta := { project := change.project }
          old := change.resolved }, change), m) := by
  have hres : (resolution change.project).run.run m = (.error _, m) := resolution_missing h
  rw [generateDelta_eq, StateT.run_bind, hres]
  rfl

private theorem upholds_generateDelta {change : Change} (hm : m.Bare)
    (hraw : ∀ old, change.raw = some old → (m.raw change.project).entries = old) :
    m.Upholds ((generateDelta change).run m).2 := by
  by_cases hexists : m.workspace.projectExists change.project
  · obtain ⟨i, m₁, hrun, -, hupholds, hraw₁, -⟩ := resolution_bare hm hexists
    have hentries : (m₁.cell change.project).rawEntries = (m.raw change.project).entries := by
      rw [Cell.rawEntries, hraw₁]
      rfl
    have hcompare : ∀ g, (compareOutcomes change i g).Moves KeepsResults :=
      moves_compareOutcomes change i
    rw [generateDelta_run hrun, hentries, compareRaws_same hraw, pure_bind]
    exact hupholds.trans
      (Chained.trans (Ground.touched m₁ change.project) (hcompare _ _) (hupholds.bare hm))
  · rw [generateDelta_missing hexists]
    exact .refl m

/-- Applying a change that did not replace the raw buildpath upholds results. -/
theorem upholds_applyChange {change : Change} (hm : m.Bare)
    (hraw : ∀ old, change.raw = some old → (m.raw change.project).entries = old)
    (setsUpFolders : Bool) : m.Upholds ((applyChange change setsUpFolders).run m).2 := by
  have hfollow : ∀ g, (followUp change g setsUpFolders).Moves KeepsResults := fun g ↦
    moves_followUp keepsResults_resolution change g setsUpFolders
  have hgenerated := upholds_generateDelta hm hraw
  rw [applyChange_eq]
  exact hgenerated.trans (hfollow _ _ (hgenerated.bare hm))

/-- Forgetting the result of a project upholds those of the others. -/
theorem upholds_invalidate {cells : Table String Cell} (hcell : ∀ q, ({ m with cells } : Model).cell q =
      if project = q then (m.cell project).invalidate else m.cell q) :
    m.Upholds { m with cells } ∧ (({ m with cells } : Model).cell project).issued? = none := by
  have hforgot : (({ m with cells } : Model).cell project).issued? = none := by
    rw [hcell, if_pos rfl]
    rfl
  refine ⟨.of_issued (.of_raws fun q ↦ .inl ?_) fun q i hi ↦ ?_, hforgot⟩
  · rw [hcell]
    split
    · next hq => exact hq ▸ rfl
    · rfl
  · by_cases hq : project = q
    · rw [← hq, hforgot] at hi
      cases hi
    · rwa [hcell, if_neg hq] at hi

/-- A project that is resolved anew has what it is resolved to now, if that counts, and other results are
upheld. -/
theorem renew_upholds (hm : m.Bare) (item : String × Option Issued) :
    ((renew item).run m).1.project = item.1 ∧ m.Upholds ((renew item).run m).2 ∧
      ∀ i, (((renew item).run m).2.cell item.1).issued? = some i → i.result.isOk →
        m.ResolvesTo item.1 i.result := by
  obtain ⟨cells, change, hrun, hproject, -, hraw, hcell⟩ := renew_run m item
  obtain ⟨hforget, hforgot⟩ := upholds_invalidate hcell
  have hsame : ∀ old, change.raw = some old →
      (({ m with cells } : Model).raw change.project).entries = old := by
    intro old hold
    obtain ⟨raw, hraw', rfl⟩ := Option.map_eq_some_iff.mp (hraw ▸ hold)
    rw [hproject, hforget.raw, Model.raw, hraw', Option.getD_some]
  have happly := upholds_applyChange (hforget.bare hm) hsame false
  rw [hrun]
  refine ⟨(project_applyChange change false _).trans hproject, hforget.trans happly,
    fun i hi hok ↦ ?_⟩
  rcases happly.results item.1 i hi hok with hi | hr
  · rw [hforgot] at hi
    cases hi
  · exact hforget.toResembles.resolvesTo hr

/-- Resolving projects anew comes to a change for each of them. They have what they are resolved to now, if
that counts, and other results are upheld. -/
theorem refresh_upholds (hm : m.Bare) (projects : List (String × Option Issued)) :
    ((refresh projects).run m).1.map GeneratedDelta.project = projects.map Prod.fst ∧
      m.Upholds ((refresh projects).run m).2 ∧
      ∀ q ∈ projects.map Prod.fst, ∀ i, (((refresh projects).run m).2.cell q).issued? = some i →
        i.result.isOk → m.ResolvesTo q i.result := by
  suffices h : ((projects.mapM renew).run m).1.map GeneratedDelta.project = projects.map Prod.fst ∧
      m.Upholds ((projects.mapM renew).run m).2 ∧
      ∀ q ∈ projects.map Prod.fst, ∀ i, (((projects.mapM renew).run m).2.cell q).issued? = some i →
        i.result.isOk → m.ResolvesTo q i.result by
    obtain ⟨hprojects, hupholds, hrenewed⟩ := h
    have hroots : ((projects.mapM renew).run m).2.Upholds ((projects.mapM renew).run m).2.clearRoots :=
      (Ground.clearRoots _ : KeepsResults _ _) (hupholds.bare hm)
    refine ⟨hprojects, hupholds.trans hroots, fun q hq i hi ↦ hrenewed q hq i ?_⟩
    have hcell := cell_clearRoots ((projects.mapM renew).run m).2 q
    exact (congrArg Cell.issued? hcell).symm.trans hi
  induction projects generalizing m with
  | nil => exact ⟨rfl, .refl m, nofun⟩
  | cons item projects ih =>
    obtain ⟨hproject, hupholds, hrenewed⟩ := renew_upholds hm item
    obtain ⟨hprojects, hrest, hothers⟩ := ih (hupholds.bare hm)
    rw [mapM_renew_cons]
    refine ⟨congrArg₂ List.cons hproject hprojects, hupholds.trans hrest, fun q hq i hi hok ↦ ?_⟩
    rcases List.mem_cons.mp hq with rfl | hq
    · rcases hrest.results _ i hi hok with hi | hr
      · exact hrenewed i hi hok
      · exact hupholds.toResembles.resolvesTo hr
    · exact hupholds.toResembles.resolvesTo (hothers q hq i hi hok)

end ModelM

end Buildpath
