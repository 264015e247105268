import Buildpath.Proofs.Indexing
import Buildpath.Proofs.Model.Still
import Buildpath.Proofs.Resource.Projects

/-!
# What a project sees

A project sees its own entries and, of the projects that project entries lead to, the entries that these
export (`Model.Sees`). A walk that starts at a project and enters each project once gets to what the
project sees and to nothing else: it is at a project only if entries lead there (`Model.IsAt.enter`),
and it deals with all that is seen (`Model.Leads.done`).
-/

namespace Buildpath

/-- The identity of the entries that lead to a project by its own path. -/
def projectId (project : String) : String := (Entry.project (projectPath project)).rootId

namespace Entry

variable {e : Entry} {links : List Entry}

/-- The last of some project entries, restricted by those that lead to it. The last one comes first. -/
def referrer : List Entry → Option Entry
  | [] => none
  | e :: links => some (e.combine (referrer links))

@[simp] theorem kind_combine (e : Entry) (referring : Option Entry) :
    (e.combine referring).kind = e.kind := by
  cases referring <;> rfl

@[simp] theorem path_combine (e : Entry) (referring : Option Entry) :
    (e.combine referring).path = e.path := by
  cases referring <;> rfl

@[simp] theorem rootId_combine (e : Entry) (referring : Option Entry) :
    (e.combine referring).rootId = e.rootId := by
  simp [rootId]

@[simp] theorem isSome_referrer : (referrer links).isSome = !links.isEmpty := by
  cases links <;> rfl

theorem isHidden_referrer : e.isHidden (referrer links) = false ↔ links = [] ∨ e.exported := by
  cases links <;> simp [isHidden]

/-- An entry is exported in the end if all that lead to it are. -/
theorem exported_combine_referrer :
    (e.combine (referrer links)).exported ↔ e.exported ∧ ∀ link ∈ links, link.exported := by
  induction links generalizing e with
  | nil => simp [referrer, combine]
  | cons link links ih =>
    rw [List.forall_mem_cons, ← ih]
    simp [referrer, combine]

end Entry

namespace Model

variable {m : Model} {project q required : String} {links : List Entry} {e : Entry}
  {referring : Option Entry}

/-! ### Chains of project entries -/

/-- Whether a chain of project entries leads from a project to another one; the last of them comes first.
The first of the chain is any entry of the project, the others are exported by the projects that list
them. An entry leads on if it leads to a script project, and by another path than that of the project
where the chain starts. -/
inductive Leads (m : Model) (project : String) : List Entry → String → Prop where
  | start : m.Leads project [] project
  | next {links : List Entry} {q required : String} {e : Entry} (leads : m.Leads project links q)
    (mem : e ∈ m.entriesOf q) (isVisible : links = [] ∨ e.exported)
    (isFollowed : m.requiredProject? e = some required) (isOther : e.rootId ≠ projectId project) :
    m.Leads project (e :: links) required

/-- Whether a project sees an entry of a project that a chain leads to: any entry of its own, and what
another project exports. -/
structure Sees (m : Model) (project : String) (links : List Entry) (q : String) (e : Entry) : Prop where
  leads : m.Leads project links q
  mem : e ∈ m.entriesOf q
  isVisible : links = [] ∨ e.exported

/-- Whether a walk from a project that enters each project once is never mistaken and never cut off:
identities tell apart the projects that entries lead to, and there are fewer of them than walks may
nest. -/
structure Walkable (m : Model) : Prop where
  same : ∀ {p p' e e' q q'}, e ∈ m.entriesOf p → e' ∈ m.entriesOf p' →
    m.requiredProject? e = some q → m.requiredProject? e' = some q' → e.rootId = e'.rootId → q = q'
  bounded : ∃ ids : List String, ids.length < m.depth ∧
    ∀ {p e q}, e ∈ m.entriesOf p → m.requiredProject? e = some q → e.rootId ∈ ids

theorem kind_of_requiredProject? (h : m.requiredProject? e = some required) : e.kind = .project := by
  unfold requiredProject? Entry.projectName? at h
  by_cases hkind : e.kind = .project
  · exact hkind
  · rw [if_neg hkind] at h
    cases h

theorem kind?_of_requiredProject? (h : m.requiredProject? e = some required) :
    e.path.firstSegment? = some required ∧ m.workspace.kind? e.path = some .project := by
  have hkind := kind_of_requiredProject? h
  unfold requiredProject? Entry.projectName? at h
  rw [if_pos hkind] at h
  cases hname : e.path.firstSegment? with
  | none =>
    rw [hname] at h
    cases h
  | some name =>
    rw [hname] at h
    dsimp only at h
    split at h
    · next hfollowed =>
      simp only [Bool.and_eq_true, decide_eq_true_eq] at hfollowed
      exact ⟨h, hfollowed.1⟩
    · cases h

theorem Walkable.identifies (h : m.Walkable) :
    ∃ ids : List String, ids.length < m.depth ∧ Account.Identifies m.requiredProject? m.entriesOf ids := by
  obtain ⟨ids, hlength, hids⟩ := h.bounded
  exact ⟨ids, hlength, h.same, hids⟩

/-- By paths of the workspace, walks are never mistaken and never cut off. -/
theorem Walkable.of_paths (hn : 0 < m.nesting) (h : ∀ {p e}, e ∈ m.entriesOf p →
    (m.requiredProject? e).isSome → e.path.InWorkspace) : m.Walkable := by
  refine ⟨fun he he' hq hq' hid ↦ ?_, ?_⟩
  · have hpath := (h he (Option.isSome_of_eq_some hq)).eq_of_toString
      (h he' (Option.isSome_of_eq_some hq')) (Entry.rootTag_eq_of_rootId hid).2
    have hname := (kind?_of_requiredProject? hq).1
    rw [hpath, (kind?_of_requiredProject? hq').1] at hname
    exact (Option.some.inj hname).symm
  · obtain ⟨paths, hlength, hpaths⟩ := m.workspace.exists_projectPaths
    refine ⟨paths.map fun path ↦ (Entry.project path).rootId, ?_, fun {p e q} he hq ↦ ?_⟩
    · rw [List.length_map, depth]
      omega
    · refine List.mem_map.mpr ⟨e.path, hpaths _ (h he (Option.isSome_of_eq_some hq))
        (kind?_of_requiredProject? hq).2, ?_⟩
      rw [Entry.rootId, Entry.rootId, kind_of_requiredProject? hq]
      rfl

/-- Whether all entries that lead to projects have workspace paths can be told from the projects. -/
theorem inWorkspace_ofBuildpaths {projects : List (String × List Entry)}
    (h : ∀ q ∈ projects.map Prod.fst, ∀ e ∈ (ofBuildpaths projects).entriesOf q,
      ((ofBuildpaths projects).requiredProject? e).isSome →
        e.path = .parse e.path.toString ∧ e.path.absolute ∧ e.path.device = none) :
    ∀ {q e}, e ∈ (ofBuildpaths projects).entriesOf q →
      ((ofBuildpaths projects).requiredProject? e).isSome → e.path.InWorkspace := by
  intro q e he hrequired
  obtain ⟨hparse, habsolute, hdevice⟩ := forall_mem_entriesOf_ofBuildpaths (P := fun e ↦
    ((ofBuildpaths projects).requiredProject? e).isSome →
      e.path = .parse e.path.toString ∧ e.path.absolute ∧ e.path.device = none) h he hrequired
  exact ⟨hparse ▸ Path.canonical_parse _, habsolute, hdevice⟩

/-- The identity of an entry that leads to a project is not that of an entry of another kind. -/
theorem rootId_ne_of_kind {e' : Entry} (hkind : e.kind ≠ .project)
    (h : m.requiredProject? e' = some q) : e'.rootId ≠ e.rootId :=
  fun hid ↦ hkind (Entry.kind_eq_project_of_rootId hid.symm (kind_of_requiredProject? h))

/-! ### Walks -/

/-- Whether a walk from a project is at another one, by a chain that leads there. -/
def IsAt (m : Model) (project : String) (q : String) (referring : Option Entry) : Prop :=
  ∃ links, m.Leads project links q ∧ referring = Entry.referrer links

theorem IsAt.start (m : Model) (project : String) : m.IsAt project project none := ⟨[], .start, rfl⟩

/-- Entering a project by an entry that is in sight. -/
theorem IsAt.enter (h : m.IsAt project q referring) (he : e ∈ m.entriesOf q)
    (hvisible : e.isHidden referring = false) (hrequired : m.requiredProject? e = some required)
    (hother : e.rootId ≠ projectId project) : m.IsAt project required (some (e.combine referring)) := by
  obtain ⟨links, hleads, rfl⟩ := h
  exact ⟨e :: links, .next hleads he (Entry.isHidden_referrer.mp hvisible) hrequired hother, rfl⟩

/-- A walk through all that a project is resolved to deals with every entry that is sought, wherever a
chain leads, if it marks the identities of the projects that it deals with. -/
theorem Leads.done {σ : Type} {a : Account σ} {sought : Bool → Entry → Prop} {s s' : σ}
    (hc : a.Covers m.requiredProject? sought m.entriesOf project false (m.entriesOf project) s s')
    (hstart : a.marks s = [projectId project])
    (hmarked : ∀ {q e}, a.Done s' q e → (m.requiredProject? e).isSome → e.rootId ∈ a.marks s')
    (hsought : ∀ {below e}, (below = true → e.exported) → sought below e)
    (h : m.Leads project links q) :
    ∀ e ∈ m.entriesOf q, sought (!links.isEmpty) e → a.Done s' q e := by
  induction h with
  | start => exact hc.done
  | next _ hmem hvisible hrequired hother ih =>
    have hdone := ih _ hmem (hsought (by simpa [or_iff_not_imp_left] using hvisible))
    have hmark := hmarked hdone (Option.isSome_of_eq_some hrequired)
    rcases hc.closed _ hmark with hold | hclosed
    · exact absurd (List.mem_singleton.mp (hstart ▸ hold)) hother
    · exact hclosed hmem hrequired rfl

end Model

end Buildpath
