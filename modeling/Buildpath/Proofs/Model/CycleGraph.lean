import Buildpath.Proofs.CycleOrder
import Buildpath.Proofs.CycleSteps
import Buildpath.Proofs.Model.Resembling
import Buildpath.Proofs.Shapes

/-!
# Cycles between the projects of a model

Where no initializer runs, the search for cycles is one over the buildpaths that projects are resolved to
(`cycleParticipants_still`). It comes to script projects only, and what it finds depends on the projects
that these require (`cycleParticipants_graph`).
-/

namespace Buildpath

variable {m m' : Model} {preferred : PreferredBuildpaths} {project : String}

namespace ProjectGraph

variable {g g' : ProjectGraph Id}

/-- Walks over graphs that require the same come to the same. -/
private theorem walkFrom_congr (hnames : g'.names = g.names)
    (h : ∀ q ∈ g.names, g'.requirements preferred q = g.requirements preferred q) (depth : Nat) :
    ∀ project w, g'.requirements preferred project = g.requirements preferred project →
      (g'.walkFrom preferred depth project w).run = (g.walkFrom preferred depth project w).run := by
  induction depth with
  | zero => exact fun _ _ _ ↦ rfl
  | succ depth ih =>
    intro project w hproject
    have hvisit : g'.visit preferred depth = g.visit preferred depth := by
      funext w required
      cases hi : w.closingIndex? required with
      | some index => rw [visit_of_some hi, visit_of_some hi]
      | none =>
        by_cases hk : required ∈ w.traversed ∨ required ∉ g.names
        · rw [visit_of_known hi hk, visit_of_known hi (hnames ▸ hk)]
        · obtain ⟨ht, hn⟩ := not_or.mp hk
          rw [Decidable.not_not] at hn
          rw [visit_of_fresh hi ht hn, visit_of_fresh hi ht (hnames ▸ hn), ih required w (h required hn)]
    rw [walkFrom_succ, walkFrom_succ, hproject, hvisit]

/-- Searches over graphs that require the same find the same. -/
theorem cycleParticipants_congr {projects : List String} (hnames : g'.names = g.names)
    (h : ∀ q ∈ g.names, g'.requirements preferred q = g.requirements preferred q)
    (hprojects : ∀ q ∈ projects, g'.requirements preferred q = g.requirements preferred q) :
    (g'.cycleParticipants preferred projects).run = (g.cycleParticipants preferred projects).run := by
  rw [cycleParticipants_eq, cycleParticipants_eq]
  refine congrArg CycleWalk.participants ?_
  unfold searchAll
  refine List.foldl_ext _ _ _ fun w q hq ↦ ?_
  split
  · rfl
  · rw [walk, walk, hnames]
    exact walkFrom_congr hnames h _ q w (hprojects q hq)

end ProjectGraph

namespace Model

/-- The projects of a model, each with the entries that it is resolved to. -/
def graph (m : Model) : ProjectGraph Id where
  names := m.projectGraphNames
  entries? q := pure (some (m.entriesOf q))

/-- Whether a project is a script project that exists. -/
def isNode (m : Model) (project : String) : Bool :=
  m.workspace.projectExists project && m.workspace.isScript project

/-- The projects of a model, with given links of those that searches come to. -/
def linkGraph (m : Model) (res : String → List Path) : ProjectGraph Id where
  names := m.projectGraphNames
  entries? q := pure (some (if m.isNode q then (res q).map Entry.project else []))

/-- The script projects that a search over given links finds on a chain into a cycle. -/
def participantsOver (m : Model) (res : String → List Path) : List String :=
  ((m.linkGraph res).cycleParticipants [] m.workspace.scriptProjects).run

variable {res res' : String → List Path}

theorem isNode_of_mem_names (h : project ∈ m.projectGraphNames) : m.isNode project :=
  (List.mem_filter.mp h).2

theorem isScript_of_mem_scriptProjects (h : project ∈ m.workspace.scriptProjects) :
    m.workspace.isScript project :=
  (List.mem_filter.mp h).2

theorem requirements_linkGraph (q : String) : (m.linkGraph res).requirements [] q =
    if m.isNode q then (res q).filterMap Path.firstSegment? else [] := by
  change ((if m.isNode q then (res q).map Entry.project else []) : List Entry).filterMap _ = _
  split
  · rw [List.filterMap_map]
    rfl
  · rfl

theorem requires_linkGraph {q required : String} : (m.linkGraph res).Requires [] q required ↔
    m.isNode q ∧ required ∈ (res q).filterMap Path.firstSegment? := by
  rw [← ProjectGraph.mem_requirements, requirements_linkGraph]
  split
  · next h => exact (and_iff_right h).symm
  · next h => exact iff_of_false List.not_mem_nil fun hand ↦ h hand.1

theorem requirements_graph (q : String) :
    m.graph.requirements [] q = (links (m.entriesOf q)).filterMap Path.firstSegment? :=
  filterMap_projectName? _

/-- Links that name the same projects lead to the same participants. -/
theorem participantsOver_congr (h : ∀ q, m.isNode q →
    (res' q).filterMap Path.firstSegment? = (res q).filterMap Path.firstSegment?) :
    m.participantsOver res' = m.participantsOver res := by
  have hrequirements : ∀ q, (m.linkGraph res').requirements [] q =
      (m.linkGraph res).requirements [] q := by
    intro q
    rw [requirements_linkGraph, requirements_linkGraph]
    split
    · next hnode => exact h q hnode
    · rfl
  exact ProjectGraph.cycleParticipants_congr rfl (fun q _ ↦ hrequirements q) fun q _ ↦ hrequirements q

/-- The participants among the projects of a model are those over the links of their entries. -/
theorem cycleParticipants_graph (m : Model) :
    (m.graph.cycleParticipants [] m.workspace.scriptProjects).run =
      m.participantsOver fun q ↦ links (m.entriesOf q) := by
  have hnode : ∀ q, m.isNode q → m.graph.requirements [] q =
      (m.linkGraph fun q ↦ links (m.entriesOf q)).requirements [] q := by
    intro q hq
    rw [requirements_graph, requirements_linkGraph, if_pos hq]
  refine ProjectGraph.cycleParticipants_congr rfl (fun q hq ↦ hnode q (isNode_of_mem_names hq))
    fun q hq ↦ ?_
  by_cases hexists : m.workspace.projectExists q
  · refine hnode q ?_
    rw [isNode, hexists, isScript_of_mem_scriptProjects hq, Bool.and_self]
  · -- a project that does not exist has no entries
    rw [requirements_graph, requirements_linkGraph, entriesOf_missing hexists, if_neg]
    · rfl
    · intro hnode
      exact hexists (Bool.and_eq_true_iff.mp hnode).1

/-- A project on a cycle is found over links that name the same projects. -/
theorem mem_participantsOver_of_onCycle (h : ∀ q, m.isNode q → ∀ required,
      required ∈ (links (m.entriesOf q)).filterMap Path.firstSegment? →
        required ∈ (res q).filterMap Path.firstSegment?)
    (hlisted : project ∈ m.workspace.scriptProjects) (hcycle : m.graph.OnCycle [] project) :
    project ∈ m.participantsOver res := by
  have hcycle' : (m.linkGraph res).OnCycle [] project := by
    have hmono : ∀ a b, m.graph.RequiresExisting [] a b → (m.linkGraph res).RequiresExisting [] a b := by
      rintro a b ⟨hrequires, ha, hb⟩
      have hnode := isNode_of_mem_names ha
      rw [← ProjectGraph.mem_requirements, requirements_graph] at hrequires
      exact ⟨requires_linkGraph.mpr ⟨hnode, h a hnode b hrequires⟩, ha, hb⟩
    exact Relation.TransGen.mono hmono project project hcycle
  exact (ProjectGraph.mem_cycleParticipants_of_onCycle hcycle').mpr (.listed hlisted)

/-- A project that is found over links leads into a cycle, if the entries name the same projects. -/
theorem leadsIntoCycle_of_mem_participantsOver (h : ∀ q, m.isNode q → ∀ required,
      required ∈ (res q).filterMap Path.firstSegment? →
        required ∈ (links (m.entriesOf q)).filterMap Path.firstSegment?)
    (hfound : project ∈ m.participantsOver res) : m.graph.LeadsIntoCycle [] project := by
  obtain ⟨turn, hreach, hturn⟩ := ProjectGraph.leadsIntoCycle_of_mem hfound
  have hmono : ∀ a b, (m.linkGraph res).Requires [] a b → m.graph.Requires [] a b := by
    intro a b hrequires
    obtain ⟨hnode, hmem⟩ := requires_linkGraph.mp hrequires
    rw [← ProjectGraph.mem_requirements, requirements_graph]
    exact h a hnode b hmem
  exact ⟨turn, Relation.ReflTransGen.mono hmono _ _ hreach, Relation.TransGen.mono hmono _ _ hturn⟩

end Model

/-! ### Searches -/

namespace ModelM

open Model

variable {I : Model → Prop} {α : Type}

/-- Steps that go on with what is read come to the same, if reading it always comes to the same. -/
private theorem Comes.read {x : ModelM (Option (List Entry))} {es : List Entry}
    {f : List Entry → ModelM α} {a : α}
    (hx : ∀ m, I m → (x.run m).1.getD [] = es ∧ I (x.run m).2) (hf : Comes I (f es) a) :
    Comes I (x >>= fun found ↦ f (found.getD [])) a := by
  intro m hm
  obtain ⟨hread, hm₁⟩ := hx m hm
  obtain ⟨m', hrun, hm'⟩ := hf _ hm₁
  refine ⟨m', ?_, hm'⟩
  rw [StateT.run_bind]
  change (f ((x.run m).1.getD [])).run (x.run m).2 = _
  rw [hread, hrun]

/-- What a walk does once it has read the buildpath of a project. -/
private def visitAll (g : ProjectGraph ModelM) (preferred : PreferredBuildpaths) (depth : Nat)
    (w : CycleWalk) (es : List Entry) : ModelM CycleWalk :=
  (es.filterMap Entry.projectName?).foldlM (g.visitM preferred depth) w >>= fun w ↦
    Pure.pure w.leave

/-- A walk is one over fixed buildpaths, if reading a buildpath always comes to the same. -/
private theorem Comes.walkFrom {g : ProjectGraph ModelM} {g' : ProjectGraph Id}
    (hnames : g.names = g'.names)
    (h : ∀ q m, I m → ((g.entries? q).run m).1.getD [] = (g'.entries? q).run.getD [] ∧
      I ((g.entries? q).run m).2) (depth : Nat) (project : String) (w : CycleWalk) :
    Comes I (g.walkFrom preferred depth project w) (g'.walkFrom preferred depth project w).run := by
  induction depth generalizing project w with
  | zero => exact .pure w
  | succ depth ih =>
    have hentries : ∀ m, I m → ((g.entriesWith preferred project).run m).1.getD [] =
        (g'.entriesWith preferred project).run.getD [] ∧
          I ((g.entriesWith preferred project).run m).2 := by
      unfold ProjectGraph.entriesWith
      cases preferred.lookup project with
      | some entries => exact fun m hm ↦ ⟨rfl, hm⟩
      | none => exact h project
    have hwalk : g.walkFrom preferred (depth + 1) project w = g.entriesWith preferred project >>=
        fun found ↦ visitAll g preferred depth (w.enter project) (found.getD []) :=
      ProjectGraph.walkFrom_bind g preferred depth project w
    rw [hwalk, ProjectGraph.walkFrom_succ]
    refine .read hentries (.bind (.foldlM (fun w required _ ↦ ?_) _) (.pure _))
    unfold ProjectGraph.visitM
    rw [hnames]
    cases hi : w.closingIndex? required with
    | some index =>
      rw [ProjectGraph.visit_of_some hi]
      exact .pure _
    | none =>
      by_cases hk : required ∈ w.traversed ∨ required ∉ g'.names
      · rw [ProjectGraph.visit_of_known hi hk]
        dsimp only
        rw [if_pos (by simpa using hk)]
        exact .pure w
      · obtain ⟨ht, hn⟩ := not_or.mp hk
        rw [Decidable.not_not] at hn
        rw [ProjectGraph.visit_of_fresh hi ht hn]
        dsimp only
        rw [if_neg (by simp [ht, hn])]
        exact ih required w

/-- A search is one over fixed buildpaths, if reading a buildpath always comes to the same. -/
private theorem Comes.cycleParticipants {g : ProjectGraph ModelM} {g' : ProjectGraph Id}
    (hnames : g.names = g'.names)
    (h : ∀ q m, I m → ((g.entries? q).run m).1.getD [] = (g'.entries? q).run.getD [] ∧
      I ((g.entries? q).run m).2) (projects : List String) :
    Comes I (g.cycleParticipants preferred projects)
      (g'.cycleParticipants preferred projects).run := by
  rw [ProjectGraph.cycleParticipants_eq]
  refine .bind (.foldlM (fun w q _ ↦ ?_) _) (.pure _)
  split
  · exact .pure w
  · unfold ProjectGraph.walk
    rw [hnames]
    exact .walkFrom hnames h _ q w

private theorem resolvedBuildpath_run (m : Model) (project : String) :
    ((resolvedBuildpath project true).run >>= fun r ↦ pure r.toOption : ModelM _).run m =
      (resolvedEntries? project).run m := by
  have hsteps : resolvedBuildpath project true =
      resolution project >>= fun i ↦ pure i.result.entries := by
    refine bind_congr fun i ↦ ?_
    cases i.result.unresolved <;> rfl
  rw [hsteps, ExceptT.run_bind, bind_assoc, resolvedEntries?, StateT.run_bind, StateT.run_bind]
  rcases (resolution project).run.run m with ⟨failure | i, m'⟩ <;> rfl

/-- Where no initializer runs, the search for cycles is one over the entries that projects are resolved
to. -/
theorem cycleParticipants_still (h : m.Still) (preferred : PreferredBuildpaths) :
    ∃ m', (cycleParticipants preferred).run m =
      ((m.graph.cycleParticipants preferred m.workspace.scriptProjects).run, m') ∧ m.StillAs m' := by
  let g : ProjectGraph ModelM :=
    { names := m.projectGraphNames
      entries? := fun q ↦ (resolvedBuildpath q true).run >>= fun r ↦ pure r.toOption }
  have hread : ∀ q m', m.StillAs m' → ((g.entries? q).run m').1.getD [] =
      (m.graph.entries? q).run.getD [] ∧ m.StillAs ((g.entries? q).run m').2 := by
    intro q m' hm'
    obtain ⟨hanswer, hkept⟩ := hm'.still.resolvedEntries? q
    rw [resolvedBuildpath_run]
    exact ⟨hanswer.trans (hm'.entriesOf q), hm'.trans hkept⟩
  have hsearch : Comes m.StillAs (g.cycleParticipants preferred m.workspace.scriptProjects)
      (m.graph.cycleParticipants preferred m.workspace.scriptProjects).run :=
    .cycleParticipants rfl hread m.workspace.scriptProjects
  exact hsearch m h.refl

end ModelM

end Buildpath
