import Buildpath.Proofs.Model.Expansion

/-!
# Own entries in expanded buildpaths

An expanded buildpath goes into a required project before it goes on with the project's own entries, and a
contribution occurs once. So an own entry stands there as it is if no contribution of its identity is met
before it, among the own entries before it and what these lead to (`Model.SeesBy`). Otherwise what was met
there stands for it, restricted by the entries that lead to it (`own_entries_expanded`).
-/

namespace Buildpath

variable {m : Model} {project : String} {id : String} {x x' : Expansion} {e : Entry}
  {referring : Option Entry}

theorem walkOver_append {σ : Type} {turn : String → Option Entry → σ → Entry → Turn σ}
    {res : String → List Entry} (depth : Nat) (es es' : List Entry) (s : σ) :
    walkOver turn res depth project referring (es ++ es') s =
      walkOver turn res depth project referring es' (walkOver turn res depth project referring es s) := by
  cases depth with
  | zero => rfl
  | succ depth => rw [walkOver_succ, walkOver_succ, walkOver_succ, List.foldl_append]

namespace Model

/-- Whether an entry counts as met once it was collected. One that should lead to a project but leads to
none does not. -/
def CountsAsMet (m : Model) (e : Entry) : Prop := e.kind = .project → (m.requiredProject? e).isSome

@[simp] theorem requiredProject?_combine (e : Entry) (referring : Option Entry) :
    m.requiredProject? (e.combine referring) = m.requiredProject? e := by
  cases referring <;> rfl

@[simp] theorem countsAsMet_combine : m.CountsAsMet (e.combine referring) ↔ m.CountsAsMet e := by
  simp [CountsAsMet]

/-- Whether a project sees an entry by way of some of its own entries: it is one of them, or the chain
that leads to it starts with one of them. -/
structure SeesBy (m : Model) (project : String) (own : List Entry) (links : List Entry) (q : String)
    (e : Entry) : Prop extends m.Sees project links q e where
  first : ∃ start ∈ own, (e :: links).getLast? = some start

end Model

namespace Expansion

/-- Collects an entry, and marks it as met unless it fails to lead to a project. -/
def collect (m : Model) (x : Expansion) (e : Entry) (referring : Option Entry) : Expansion :=
  if e.kind = .project ∧ m.requiredProject? e = none then x.add e referring
  else (x.add e referring).mark e.rootId

@[simp] theorem entries_collect : (x.collect m e referring).entries = x.entries ++ [e.combine referring] := by
  unfold collect
  split <;> rfl

@[simp] theorem mem_rootIds_collect : id ∈ (x.collect m e referring).rootIds ↔
    id ∈ x.rootIds ∨ m.CountsAsMet e ∧ id = e.rootId := by
  unfold collect Model.CountsAsMet
  split
  · next h => simp [h]
  · next h =>
    have hmet : e.kind = .project → (m.requiredProject? e).isSome := fun hkind ↦
      Option.isSome_iff_ne_none.mpr fun hnone ↦ h ⟨hkind, hnone⟩
    rw [and_iff_right hmet]
    simp [or_comm]

/-- What a walk makes of an entry: it collects the entry if it is in sight and was not met, and enters the
project that the entry leads to. -/
theorem turn_eq : turn m referring x e =
    if e.isHidden referring || e.rootId ∈ x.rootIds then .pass x
    else match m.requiredProject? e with
      | none => .pass (x.collect m e referring)
      | some required => .enter required (x.collect m e referring) := by
  unfold turn collect
  split
  · rfl
  · cases hrequired : m.requiredProject? e with
    | none =>
      by_cases hkind : e.kind = .project <;> simp [hkind]
    | some required => simp [Model.kind_of_requiredProject? hrequired]

/-- What collecting an entry keeps is kept by a walk, where `V` tells which projects are entered. -/
theorem walkOver_collects {I : Expansion → Prop} {V : String → Option Entry → Prop}
    (step : ∀ {q r x e}, V q r → e ∈ m.entriesOf q → e.isHidden r = false → e.rootId ∉ x.rootIds → I x →
      I (x.collect m e r))
    (enter : ∀ {q r x e q'}, V q r → e ∈ m.entriesOf q → e.isHidden r = false → e.rootId ∉ x.rootIds →
      I x → m.requiredProject? e = some q' → V q' (some (e.combine r)))
    (depth : Nat) {q : String} {es : List Entry} (hat : V q referring) (hes : es ⊆ m.entriesOf q)
    (hx : I x) : I (walkOver (fun _ ↦ turn m) m.entriesOf depth q referring es x) := by
  refine walkOver_keeps (fun {q r x e x'} hat he hx hturn ↦ ?_)
    (fun {q r x e q' x'} hat he hx hturn ↦ ?_) depth hat hes hx
  all_goals
    rw [turn_eq] at hturn
    split at hturn
  · cases hturn
    exact hx
  · next hmet =>
    simp only [Bool.or_eq_true, decide_eq_true_eq, not_or, Bool.not_eq_true] at hmet
    split at hturn
    · cases hturn
      exact step hat he hmet.1 hmet.2 hx
    · cases hturn
  · cases hturn
  · next hmet =>
    simp only [Bool.or_eq_true, decide_eq_true_eq, not_or, Bool.not_eq_true] at hmet
    split at hturn
    · cases hturn
    · next required hrequired =>
      cases hturn
      exact ⟨step hat he hmet.1 hmet.2 hx, enter hat he hmet.1 hmet.2 hx hrequired⟩

/-- What collecting any entry keeps is kept by every walk. -/
theorem walkOver_collects_all {I : Expansion → Prop}
    (step : ∀ {r x e}, e.rootId ∉ x.rootIds → I x → I (x.collect m e r)) (depth : Nat) {q : String}
    {es : List Entry} (hes : es ⊆ m.entriesOf q) (hx : I x) :
    I (walkOver (fun _ ↦ turn m) m.entriesOf depth q referring es x) :=
  walkOver_collects (V := fun _ _ ↦ True) (fun _ _ _ hnew hx ↦ step hnew hx) (fun _ _ _ _ _ _ ↦ trivial)
    depth trivial hes hx

/-- Whether the identities that were met are that of a project and those of the entries that count. -/
def Exact (m : Model) (project : String) (x : Expansion) : Prop :=
  ∀ id, id ∈ x.rootIds ↔ id = projectId project ∨ ∃ y ∈ x.entries, m.CountsAsMet y ∧ y.rootId = id

theorem Exact.ofProject (m : Model) (project : String) : Exact m project (ofProject project) :=
  fun id ↦ by simp [Expansion.ofProject, projectId]

theorem Exact.collect (h : Exact m project x) : Exact m project (x.collect m e referring) := by
  intro id
  rw [mem_rootIds_collect, h id, entries_collect]
  simp only [List.mem_append, List.mem_singleton]
  constructor
  · rintro ((hid | ⟨y, hy, hmet⟩) | ⟨hmet, rfl⟩)
    · exact .inl hid
    · exact .inr ⟨y, .inl hy, hmet⟩
    · exact .inr ⟨_, .inr rfl, by simpa using hmet⟩
  · rintro (hid | ⟨y, hy | rfl, hmet⟩)
    · exact .inl (.inl hid)
    · exact .inl (.inr ⟨y, hy, hmet⟩)
    · exact .inr (by simpa [eq_comm] using hmet)

/-- Whether an expansion collected nothing but what a project sees by way of some of its own entries. -/
def Gathers (m : Model) (project : String) (own : List Entry) (x : Expansion) : Prop :=
  ∀ y ∈ x.entries, ∃ links q e, m.SeesBy project own links q e ∧ y = e.combine (Entry.referrer links)

/-- A walk through some of a project's own entries collects what the project sees by way of them. -/
theorem gathers_walkOver {own : List Entry} (hown : own ⊆ m.entriesOf project) (depth : Nat) :
    Gathers m project own (walkOver (fun _ ↦ turn m) m.entriesOf depth project none own
      (ofProject project)) := by
  let I (x : Expansion) := projectId project ∈ x.rootIds ∧ Gathers m project own x
  let At (q : String) (r : Option Entry) := ∃ links, m.Leads project links q ∧ r = Entry.referrer links ∧
    ∃ start ∈ own, links.getLast? = some start
  have collected : ∀ {links q x f}, m.SeesBy project own links q f → I x →
      I (x.collect m f (Entry.referrer links)) := by
    intro links q x f hsees hx
    refine ⟨mem_rootIds_collect.mpr (.inl hx.1), fun y hy ↦ ?_⟩
    rw [entries_collect, List.mem_append, List.mem_singleton] at hy
    rcases hy with hy | rfl
    · exact hx.2 y hy
    · exact ⟨links, q, f, hsees, rfl⟩
  have hstart : I (ofProject project) :=
    ⟨List.mem_singleton_self _, fun y hy ↦ absurd hy List.not_mem_nil⟩
  have below : ∀ {depth q r x}, At q r → I x →
      I (walkOver (fun _ ↦ turn m) m.entriesOf depth q r (m.entriesOf q) x) := by
    intro depth q r x hat hx
    refine walkOver_collects (V := At) ?_ ?_ depth hat (List.Subset.refl _) hx
    · rintro q r x f ⟨links, hleads, rfl, start, hmem, hlast⟩ hf hvisible - hx
      have hne : links ≠ [] := by rintro rfl; cases hlast
      refine collected ⟨⟨hleads, hf, Entry.isHidden_referrer.mp hvisible⟩, start, hmem, ?_⟩ hx
      rw [List.getLast?_cons_of_ne_nil hne, hlast]
    · rintro q r x f q' ⟨links, hleads, rfl, start, hmem, hlast⟩ hf hvisible hnew hx hrequired
      have hne : links ≠ [] := by rintro rfl; cases hlast
      refine ⟨f :: links, .next hleads hf (Entry.isHidden_referrer.mp hvisible) hrequired
        fun hid ↦ hnew (hid ▸ hx.1), rfl, start, hmem, ?_⟩
      rw [List.getLast?_cons_of_ne_nil hne, hlast]
  cases depth with
  | zero => exact hstart.2
  | succ depth =>
    rw [walkOver_succ]
    refine (List.foldlRecOn (motive := I) _ _ hstart fun x hx e he ↦ ?_).2
    have hsees : m.SeesBy project own [] project e := ⟨⟨.start, hown he, .inl rfl⟩, e, he, rfl⟩
    rw [stepOver, turn_eq]
    by_cases hskip : e.isHidden none || e.rootId ∈ x.rootIds
    · rw [if_pos hskip]
      exact hx
    · rw [if_neg hskip]
      simp only [Bool.or_eq_true, decide_eq_true_eq, not_or] at hskip
      have hcollected : I (x.collect m e none) := collected hsees hx
      cases hrequired : m.requiredProject? e with
      | none => exact hcollected
      | some required =>
        have hleads : m.Leads project [e] required :=
          .next .start (hown he) (.inl rfl) hrequired fun hid ↦ hskip.2 (hid ▸ hx.1)
        exact below ⟨[e], hleads, rfl, e, he, rfl⟩ hcollected

/-- A walk through some of a project's own entries that is deep enough deals with all that the project
sees by way of them. -/
theorem done_of_leads {own : List Entry} {x : Expansion}
    (hc : (account m project).Covers m.requiredProject? Sought m.entriesOf project false own
      (ofProject project) x) {links : List Entry} {q : String} (h : m.Leads project links q)
    (hfirst : ∀ start ∈ links.getLast?, start ∈ own) :
    ∀ e ∈ m.entriesOf q, (links = [] → e ∈ own) → (links = [] ∨ e.exported) →
      (account m project).Done x q e := by
  induction h with
  | start => exact fun e _ hown _ ↦ hc.done e (hown rfl) (by simp [Sought])
  | @next links q required e' hleads hmem hvisible hrequired hother ih =>
    have hown : links = [] → e' ∈ own := fun hnil ↦ hfirst e' (by simp [hnil])
    have hlinks : ∀ start ∈ links.getLast?, start ∈ own := fun start hstart ↦ by
      refine hfirst start ?_
      cases links with
      | nil => cases hstart
      | cons link links => rwa [List.getLast?_cons_cons]
    have hdone := ih hlinks e' hmem hown hvisible
    have hmark := hdone.2 (Option.isSome_of_eq_some hrequired)
    rcases hc.closed _ hmark with hold | hclosed
    · exact absurd (List.mem_singleton.mp hold) hother
    · exact fun e he _ hexported ↦ hclosed hmem hrequired rfl e he
        fun _ ↦ hexported.resolve_left (List.cons_ne_nil e' links)

theorem exact_walkOver {own : List Entry} (hown : own ⊆ m.entriesOf project) (depth : Nat) :
    Exact m project (walkOver (fun _ ↦ turn m) m.entriesOf depth project none own (ofProject project)) :=
  walkOver_collects_all (I := Exact m project) (fun _ hx ↦ hx.collect) depth hown (.ofProject m project)

/-- A walk keeps what was collected. -/
theorem mem_walkOver {depth : Nat} {q : String} {es : List Entry} (hes : es ⊆ m.entriesOf q)
    (h : e ∈ x.entries) :
    e ∈ (walkOver (fun _ ↦ turn m) m.entriesOf depth q referring es x).entries :=
  walkOver_collects_all (I := fun x ↦ e ∈ x.entries) (fun _ h ↦ by simp [h]) depth hes h

/-- A walk collects nothing more under an identity that was met. -/
theorem mem_of_mem_walkOver {depth : Nat} {q : String} {es : List Entry} (hes : es ⊆ m.entriesOf q)
    (hmet : id ∈ x.rootIds)
    (h : e ∈ (walkOver (fun _ ↦ turn m) m.entriesOf depth q referring es x).entries)
    (hid : e.rootId = id) : e ∈ x.entries := by
  refine (walkOver_collects_all (I := fun x' ↦ id ∈ x'.rootIds ∧ ∀ y ∈ x'.entries, y.rootId = id →
    y ∈ x.entries) (fun {r x' f} hnew hx ↦ ⟨mem_rootIds_collect.mpr (.inl hx.1), fun y hy hyid ↦ ?_⟩)
    depth hes ⟨hmet, fun _ hy _ ↦ hy⟩).2 e h hid
  rw [entries_collect, List.mem_append, List.mem_singleton] at hy
  rcases hy with hy | rfl
  · exact hx.2 y hy hyid
  · rw [Entry.rootId_combine] at hyid
    exact absurd (hyid ▸ hx.1) hnew

/-- A walk collects an own entry that was not met, as it is. -/
theorem mem_walkOver_of_new {depth : Nat} {after : List Entry} (hdepth : 0 < depth)
    (hafter : after ⊆ m.entriesOf project) (hnew : e.rootId ∉ x.rootIds) :
    e ∈ (walkOver (fun _ ↦ turn m) m.entriesOf depth project none (e :: after) x).entries := by
  obtain ⟨depth, rfl⟩ := Nat.exists_eq_add_of_lt hdepth
  have hcollected : e ∈ (x.collect m e none).entries := by simp [Entry.combine]
  rw [← List.singleton_append, walkOver_append]
  refine mem_walkOver hafter ?_
  rw [Nat.zero_add, walkOver_succ, List.foldl_cons, List.foldl_nil, stepOver, turn_eq, if_neg (by
    simpa [Entry.isHidden] using hnew)]
  cases m.requiredProject? e with
  | none => exact hcollected
  | some required => exact mem_walkOver (List.Subset.refl _) hcollected

/-- After a walk through some of a project's own entries the identities that were met are those of the
project and of all that it sees by way of them. -/
theorem met_iff (hw : m.Walkable) {own : List Entry} (hown : own ⊆ m.entriesOf project)
    (hid : id ≠ projectId project) :
    id ∈ (walkOver (fun _ ↦ turn m) m.entriesOf m.depth project none own (ofProject project)).rootIds ↔
      ∃ links q e, m.SeesBy project own links q e ∧ m.CountsAsMet e ∧ e.rootId = id := by
  have hexact := exact_walkOver hown m.depth
  rw [hexact, or_iff_right hid]
  constructor
  · rintro ⟨y, hy, hmet, rfl⟩
    obtain ⟨links, q, e, hsees, rfl⟩ := gathers_walkOver hown m.depth y hy
    exact ⟨links, q, e, hsees, by simpa using hmet, (Entry.rootId_combine _ _).symm⟩
  · rintro ⟨links, q, e, hsees, hmet, rfl⟩
    obtain ⟨start, hstart, hlast⟩ := hsees.first
    have hdone := done_of_leads (covers_walkOver hw hown) hsees.leads (fun first hfirst ↦ by
      have hne : links ≠ [] := by rintro rfl; cases hfirst
      rw [List.getLast?_cons_of_ne_nil hne, Option.mem_def.mp hfirst] at hlast
      exact Option.some.inj hlast ▸ hstart) e hsees.mem (fun hnil ↦ by
      subst hnil
      exact (Option.some.inj hlast : e = start) ▸ hstart) hsees.isVisible
    obtain ⟨y, hy, hyid⟩ := hdone.1.resolve_left hid
    by_cases hkind : e.kind = .project
    · exact ((hexact _).mp (hdone.2 (hmet hkind))).resolve_left hid
    · exact ⟨y, hy, fun hproject ↦ absurd (Entry.kind_eq_project_of_rootId hyid.symm hproject) hkind, hyid⟩

end Expansion

namespace ModelM

open Expansion

/-- In every model where no initializer runs, however the projects refer to each other, the buildpath of a
project that exists can be expanded. An own entry that leads not to the project itself stands there
unchanged, unless a contribution of its identity is met before it: one of the own entries before it, or
one that a project exports that a chain leads to which starts with one of these. In that case only such
contributions stand there under this identity, each restricted by the chain that leads to it. -/
theorem own_entries_expanded (h : m.Still) (hexists : m.workspace.projectExists project)
    (hpaths : ∀ {q e}, e ∈ m.entriesOf q → (m.requiredProject? e).isSome → e.path.InWorkspace) :
    ∃ es, ((expanded project).runOn m).1 = .ok es ∧
      ∀ before e after, m.entriesOf project = before ++ e :: after → e.rootId ≠ projectId project →
        ((¬ ∃ links q f, m.SeesBy project before links q f ∧ m.CountsAsMet f ∧ f.rootId = e.rootId) →
          e ∈ es) ∧
        ((∃ links q f, m.SeesBy project before links q f ∧ m.CountsAsMet f ∧ f.rootId = e.rootId) →
          (∃ x ∈ es, x.rootId = e.rootId) ∧
            ∀ x ∈ es, x.rootId = e.rootId → ∃ links q f, m.SeesBy project before links q f ∧
              x = f.combine (Entry.referrer links)) := by
  refine ⟨_, expanded_still h hexists, fun before e after hown hid ↦ ?_⟩
  have hsub : before ++ e :: after ⊆ m.entriesOf project := hown ▸ List.Subset.refl _
  obtain ⟨hbefore, hrest⟩ := List.append_subset.mp hsub
  have hafter := (List.cons_subset.mp hrest).2
  have hdepth : 0 < m.depth := Nat.add_pos_left h.nesting _
  rw [← met_iff (.of_paths h.nesting hpaths) hbefore hid, hown, walkOver_append]
  have hgathers := gathers_walkOver hbefore m.depth
  have hlisted := exact_walkOver hbefore m.depth
  generalize walkOver (fun _ ↦ turn m) m.entriesOf m.depth project none before (ofProject project) = x
    at hgathers hlisted
  constructor
  · intro hnew
    exact mem_walkOver_of_new hdepth hafter hnew
  · intro hmet
    obtain ⟨y, hy, -, hyid⟩ := ((hlisted _).mp hmet).resolve_left hid
    refine ⟨⟨y, mem_walkOver hrest hy, hyid⟩, fun z hz hzid ↦ ?_⟩
    exact hgathers z (mem_of_mem_walkOver hrest hmet hz hzid)

/-- A project that requires a second one, and both export the same library. -/
def sharing : Model :=
  .ofBuildpaths [("p", [.project (.parse "/q"), { Model.archive with exported := true }]),
    ("q", [{ Model.archive with exported := true }])]

/-- What the second project exports is met before the library of the first one. So the library stands in
the expanded buildpath as the reference to the second project restricts it, and is not exported there. -/
theorem expanded_sharing : ((expanded "p").runOn sharing).1 = .ok [.project (.parse "/q"), Model.archive] ∧
    ∃ es, ((expanded "p").runOn sharing).1 = .ok es ∧
      ∀ before e after, sharing.entriesOf "p" = before ++ e :: after → e.rootId ≠ projectId "p" →
        ((¬ ∃ links q f, sharing.SeesBy "p" before links q f ∧ sharing.CountsAsMet f ∧
          f.rootId = e.rootId) → e ∈ es) ∧
        ((∃ links q f, sharing.SeesBy "p" before links q f ∧ sharing.CountsAsMet f ∧
          f.rootId = e.rootId) →
          (∃ x ∈ es, x.rootId = e.rootId) ∧
            ∀ x ∈ es, x.rootId = e.rootId → ∃ links q f, sharing.SeesBy "p" before links q f ∧
              x = f.combine (Entry.referrer links)) :=
  ⟨by decide +kernel,
    own_entries_expanded (.ofBuildpaths _) (by decide +kernel)
      (Model.inWorkspace_ofBuildpaths (by decide +kernel))⟩

/-- An own entry is not always in the expanded buildpath as it is: the library that the first project
exports is not. -/
theorem own_library_is_restricted :
    ¬ ∀ (m : Model) (project : String) (es : List Entry), ((expanded project).runOn m).1 = .ok es →
      ∀ e ∈ m.entriesOf project, e.rootId ≠ projectId project → e ∈ es := fun hall ↦
  absurd (hall sharing "p" _ (by decide +kernel : _ = Except.ok [.project (.parse "/q"), Model.archive])
    { Model.archive with exported := true } (by decide +kernel) (by decide +kernel)) (by decide +kernel)

end ModelM

end Buildpath
