import Buildpath.Model.Expansion
import Buildpath.Proofs.Model.Reachability

/-!
# Expanded buildpaths

Where no initializer runs, the expanded buildpath of a project lists what the project sees, each
contribution as far as the entries that lead to it export it (`expanded_lists_what_is_seen`), however the
projects refer to each other.
-/

namespace Buildpath

variable {m m' : Model} {project : String} {id : String} {x : Expansion} {e : Entry}

namespace Expansion

/-- Whether an entry of some identity was collected. -/
def Lists (x : Expansion) (id : String) : Prop := ∃ y ∈ x.entries, y.rootId = id

@[simp] theorem lists_add {referring : Option Entry} :
    (x.add e referring).Lists id ↔ x.Lists id ∨ e.rootId = id := by
  simp [Lists, add, or_and_right, exists_or]

@[simp] theorem lists_mark {rootId : String} : (x.mark rootId).Lists id ↔ x.Lists id := Iff.rfl

@[simp] theorem rootIds_add {referring : Option Entry} : (x.add e referring).rootIds = x.rootIds := rfl

@[simp] theorem rootIds_mark {rootId : String} :
    (x.mark rootId).rootIds = rootId :: x.rootIds := rfl

/-- What a turn makes of an entry, with what this depends on. -/
inductive Turns (m : Model) (referring : Option Entry) (x : Expansion) (e : Entry) : Turn Expansion → Prop
  | skips (hskip : e.isHidden referring ∨ e.rootId ∈ x.rootIds) : Turns m referring x e (.pass x)
  | collects (hvisible : e.isHidden referring = false) (hnew : e.rootId ∉ x.rootIds)
      (hkind : e.kind ≠ .project) : Turns m referring x e (.pass ((x.add e referring).mark e.rootId))
  | strays (hvisible : e.isHidden referring = false) (hnew : e.rootId ∉ x.rootIds)
      (hrequired : m.requiredProject? e = none) : Turns m referring x e (.pass (x.add e referring))
  | enters {required : String} (hvisible : e.isHidden referring = false) (hnew : e.rootId ∉ x.rootIds)
      (hrequired : m.requiredProject? e = some required) :
      Turns m referring x e (.enter required ((x.add e referring).mark e.rootId))

theorem turns (m : Model) (referring : Option Entry) (x : Expansion) (e : Entry) :
    Turns m referring x e (turn m referring x e) := by
  unfold turn
  split
  · next hskip => exact .skips (by simpa using hskip)
  next hskip =>
  simp only [Bool.or_eq_true, decide_eq_true_eq, not_or, Bool.not_eq_true] at hskip
  split
  · next hkind => exact .collects hskip.1 hskip.2 hkind
  · split
    · next hrequired => exact .strays hskip.1 hskip.2 hrequired
    · next hrequired => exact .enters hskip.1 hskip.2 hrequired

/-- What an expansion that starts at a project keeps account of. An entry is dealt with when it was
collected, apart from those that lead back by the path of the project itself. -/
def account (m : Model) (project : String) : Account Expansion where
  marks x := x.rootIds
  Done x _ e := (e.rootId = projectId project ∨ x.Lists e.rootId) ∧
    ((m.requiredProject? e).isSome → e.rootId ∈ x.rootIds)
  Valid x := ∀ id ∈ x.rootIds, id = projectId project ∨ x.Lists id

/-- Whether an entry of a project is in sight, where it matters if the project is below another one. -/
def Sought (below : Bool) (e : Entry) : Prop := below = true → e.exported

theorem sought_isSome {referring : Option Entry} :
    Sought referring.isSome e ↔ e.isHidden referring = false := by
  unfold Sought Entry.isHidden
  cases referring <;> simp

theorem grows_account {x' : Expansion} (hmarks : x.rootIds ⊆ x'.rootIds)
    (hlists : ∀ id, x.Lists id → x'.Lists id) : (account m project).Grows x x' :=
  ⟨hmarks, fun hdone ↦ ⟨hdone.1.imp_right (hlists _), fun hrequired ↦ hmarks (hdone.2 hrequired)⟩⟩

/-- Collecting an entry and marking it as met leaves nothing that was met unlisted. -/
private theorem valid_mark {referring : Option Entry} (hx : (account m project).Valid x) :
    (account m project).Valid ((x.add e referring).mark e.rootId) := by
  intro id hid
  rcases List.mem_cons.mp hid with rfl | hid
  · simp
  · exact (hx id hid).imp_right fun h ↦ by simp [h]

/-- Each turn collects the entry, if it is in sight and was not met before. -/
theorem kept_account : (account m project).Kept (fun _ ↦ turn m) m.requiredProject? Sought where
  pass := by
    intro _ r x e x' hx hturn
    have hturns := turns m r x e
    rw [hturn] at hturns
    cases hturns with
    | skips hskip =>
      refine ⟨hx, .refl x, fun hsought ↦ ?_, fun _ ↦ .inl⟩
      have hmet : e.rootId ∈ x.rootIds := hskip.resolve_left (by simp [sought_isSome.mp hsought])
      exact ⟨hx _ hmet, fun _ ↦ hmet⟩
    | collects _ _ hkind =>
      refine ⟨valid_mark hx, grows_account (List.subset_cons_self _ _) fun id h ↦ by simp [h],
        fun _ ↦ ⟨by simp, fun _ ↦ List.mem_cons_self⟩, fun id hid ↦ ?_⟩
      rcases List.mem_cons.mp hid with rfl | hid
      · exact .inr fun e' q' ↦ Model.rootId_ne_of_kind hkind
      · exact .inl hid
    | strays _ _ hrequired =>
      refine ⟨fun id hid ↦ (hx id hid).imp_right fun h ↦ by simp [h],
        grows_account (List.Subset.refl _) fun id h ↦ by simp [h], fun _ ↦ ⟨by simp, fun h ↦ ?_⟩,
        fun _ ↦ .inl⟩
      rw [hrequired] at h
      cases h
  enter := by
    intro _ r x e q x' hx hturn
    have hturns := turns m r x e
    rw [hturn] at hturns
    cases hturns with
    | enters _ hnew hrequired =>
      exact ⟨valid_mark hx, grows_account (List.subset_cons_self _ _) fun id h ↦ by simp [h],
        ⟨by simp, fun _ ↦ List.mem_cons_self⟩, hrequired, hnew, fun id ↦ List.mem_cons⟩

/-- Whether an expansion from a project collected nothing but what the project sees, and never the
project itself. -/
structure Sound (m : Model) (project : String) (x : Expansion) : Prop where
  isMarked : projectId project ∈ x.rootIds
  seen : ∀ y ∈ x.entries, y.rootId ≠ projectId project ∧
    ∃ links q e, m.Sees project links q e ∧ y = e.combine (Entry.referrer links)

theorem Sound.mark (h : Sound m project x) (rootId : String) : Sound m project (x.mark rootId) :=
  ⟨List.mem_cons_of_mem _ h.isMarked, h.seen⟩

/-- Collecting an entry that is in sight and was not met before. -/
theorem Sound.add {q : String} {referring : Option Entry} (h : Sound m project x)
    (hat : m.IsAt project q referring) (he : e ∈ m.entriesOf q)
    (hvisible : e.isHidden referring = false) (hnew : e.rootId ∉ x.rootIds) :
    Sound m project (x.add e referring) := by
  refine ⟨h.isMarked, fun y hy ↦ ?_⟩
  rcases List.mem_append.mp hy with hy | hy
  · exact h.seen y hy
  · obtain rfl := List.mem_singleton.mp hy
    obtain ⟨links, hleads, rfl⟩ := hat
    refine ⟨fun hid ↦ hnew ?_, links, q, e, ⟨hleads, he, Entry.isHidden_referrer.mp hvisible⟩, rfl⟩
    rw [Entry.rootId_combine] at hid
    exact hid ▸ h.isMarked

/-- A walk from a project collects nothing but what the project sees. -/
theorem sound_walkOver (depth : Nat) : Sound m project (walkOver (fun _ ↦ turn m) m.entriesOf depth
    project none (m.entriesOf project) (ofProject project)) := by
  have hstart : Sound m project (ofProject project) :=
    ⟨List.mem_singleton_self _, fun _ hy ↦ absurd hy List.not_mem_nil⟩
  refine walkOver_keeps (fun {q r x e x'} hat he hx hturn ↦ ?_)
    (fun {q r x e q' x'} hat he hx hturn ↦ ?_) depth (Model.IsAt.start m project) (List.Subset.refl _) hstart
  all_goals
    have hturns := turns m r x e
    rw [hturn] at hturns
  · cases hturns with
    | skips => exact hx
    | collects hvisible hnew => exact (hx.add hat he hvisible hnew).mark _
    | strays hvisible hnew => exact hx.add hat he hvisible hnew
  · cases hturns with
    | enters hvisible hnew hrequired =>
      exact ⟨(hx.add hat he hvisible hnew).mark _,
        hat.enter he hvisible hrequired fun hid ↦ hnew (hid ▸ hx.isMarked)⟩

/-- A walk through some of a project's own entries that is deep enough deals with these and with all that
is in sight behind them. -/
theorem covers_walkOver (hw : m.Walkable) {own : List Entry} (hown : own ⊆ m.entriesOf project) :
    (account m project).Covers m.requiredProject? Sought m.entriesOf project false own (ofProject project)
      (walkOver (fun _ ↦ turn m) m.entriesOf m.depth project none own (ofProject project)) := by
  obtain ⟨ids, hlength, hids⟩ := hw.identifies
  have hvalid : (account m project).Valid (ofProject project) :=
    fun id hid ↦ .inl (List.mem_singleton.mp hid)
  have hcovers : (account m project).Covers m.requiredProject? Sought m.entriesOf project
      (none : Option Entry).isSome own (ofProject project) _ :=
    kept_account.walk hids hvalid (Nat.lt_of_le_of_lt List.countP_le_length hlength) hown
  exact hcovers

/-- A walk from a project that is deep enough collects all that the project sees. -/
theorem lists_walkOver (hw : m.Walkable) {links : List Entry} {q : String}
    (h : m.Sees project links q e) (hid : e.rootId ≠ projectId project) :
    (walkOver (fun _ ↦ turn m) m.entriesOf m.depth project none (m.entriesOf project)
      (ofProject project)).Lists e.rootId := by
  have hdone := h.leads.done (covers_walkOver hw (List.Subset.refl _)) rfl
    (fun hdone hrequired ↦ hdone.2 hrequired) (fun hsought ↦ hsought) e h.mem (by
      simpa [Sought, or_iff_not_imp_left] using h.isVisible)
  exact hdone.1.resolve_left hid

end Expansion

namespace ModelM

/-- Where no initializer runs, the expanded buildpath is collected by a walk over the resolutions. -/
theorem expanded_still (h : m.Still) (hexists : m.workspace.projectExists project) :
    ((expanded project).runOn m).1 = .ok (walkOver (fun _ ↦ Expansion.turn m) m.entriesOf m.depth project
      none (m.entriesOf project) (.ofProject project)).entries := by
  obtain ⟨i, m₁, hrun, hremembers, hothers, hresolves⟩ := resolution_still h hexists
  have hm₁ := h.of_resolves hremembers hothers hresolves
  have hentries : m.entriesOf project = i.result.entries := by rw [Model.entriesOf, hrun]
  have hcomes : Comes m.StillAs (walk (fun _ ↦ Expansion.turn m) resolvedEntries? m.depth project none
      i.result.entries (Expansion.ofProject project)) _ := walk_still _ _ _ _ _
  obtain ⟨m₂, hwalk, -⟩ := hcomes m₁ hm₁
  have hturn : Expansion.turn m₁ = Expansion.turn m ∧ m₁.depth = m.depth := by
    obtain ⟨cells, folders, issued, rfl⟩ := hremembers
    exact ⟨rfl, rfl⟩
  have hsteps : ((expanded project).runOn m).1 = .ok
      ((walk (fun _ ↦ Expansion.turn m₁) resolvedEntries? m₁.depth project none i.result.entries
        (.ofProject project)).run m₁).1.entries := by
    rw [expanded, Action.bind_runOn, hrun]
    rfl
  rw [hsteps, hturn.1, hturn.2, hwalk, hentries]

/-- In every model where no initializer runs, however the projects refer to each other, the buildpath of a
project that exists can be expanded. What it lists are the contributions that the project sees, other than
the project itself: those of its own buildpath, and those that are exported by the projects that a chain
of project entries leads to. Each entry of the list is one that is seen, restricted by a chain that leads
to it, and it is exported only if the entry and the whole chain are. -/
theorem expanded_lists_what_is_seen (h : m.Still) (hexists : m.workspace.projectExists project)
    (hpaths : ∀ {q e}, e ∈ m.entriesOf q → (m.requiredProject? e).isSome → e.path.InWorkspace) :
    ∃ es, ((expanded project).runOn m).1 = .ok es ∧
      (∀ id, (∃ x ∈ es, x.rootId = id) ↔ id ≠ projectId project ∧
        ∃ links q e, m.Sees project links q e ∧ e.rootId = id) ∧
      ∀ x ∈ es, ∃ links q e, m.Sees project links q e ∧ x = e.combine (Entry.referrer links) ∧
        (x.exported ↔ e.exported ∧ ∀ link ∈ links, link.exported) := by
  have hsound := (@Expansion.sound_walkOver m project m.depth).seen
  refine ⟨_, expanded_still h hexists, fun id ↦ ⟨?_, ?_⟩, fun x hx ↦ ?_⟩
  · rintro ⟨x, hx, rfl⟩
    obtain ⟨hother, links, q, e, hsees, rfl⟩ := hsound x hx
    exact ⟨hother, links, q, e, hsees, (Entry.rootId_combine _ _).symm⟩
  · rintro ⟨hother, links, q, e, hsees, rfl⟩
    exact Expansion.lists_walkOver (.of_paths h.nesting hpaths) hsees hother
  · obtain ⟨-, links, q, e, hsees, rfl⟩ := hsound x hx
    exact ⟨links, q, e, hsees, rfl, Entry.exported_combine_referrer⟩

/-- Two projects that refer to each other. The second one exports a library and its reference to the
first one, and keeps a source folder to itself. -/
def cyclic : Model :=
  .ofBuildpaths [("p", [.project (.parse "/q")]),
    ("q", [{ Model.archive with exported := true }, .source (.parse "/q/src"),
      { Entry.project (.parse "/p") with exported := true }])]

/-- The first of two projects that refer to each other sees the second one and the library that it
exports, but not its source folder and not itself. -/
theorem expanded_cyclic : ((expanded "p").runOn cyclic).1 =
      .ok [.project (.parse "/q"), Model.archive] ∧
    ∃ es, ((expanded "p").runOn cyclic).1 = .ok es ∧
      (∀ id, (∃ x ∈ es, x.rootId = id) ↔ id ≠ projectId "p" ∧
        ∃ links q e, cyclic.Sees "p" links q e ∧ e.rootId = id) ∧
      ∀ x ∈ es, ∃ links q e, cyclic.Sees "p" links q e ∧ x = e.combine (Entry.referrer links) ∧
        (x.exported ↔ e.exported ∧ ∀ link ∈ links, link.exported) :=
  ⟨by decide +kernel,
    expanded_lists_what_is_seen (.ofBuildpaths _) (by decide +kernel)
      (Model.inWorkspace_ofBuildpaths (by decide +kernel))⟩

/-- A project that refers to itself, by a path below the path of another project. -/
def selfReference : Model :=
  .ofBuildpaths [("a/b", [.project (.parse "/a/b")]), ("a", [{ Model.archive with exported := true }])]

/-- An entry with the path of the project itself is not followed, although the first segment of the path
names another project, which exports a library. -/
theorem own_path_is_not_followed :
    Entry.project (.parse "/a/b") ∈ selfReference.entriesOf "a/b" ∧
    selfReference.requiredProject? (.project (.parse "/a/b")) = some "a" ∧
    (∃ e ∈ selfReference.entriesOf "a", e.exported ∧ e.rootId ≠ projectId "a/b" ∧
      ¬ ∃ x ∈ (((expanded "a/b").runOn selfReference).1.toOption.getD []), x.rootId = e.rootId) ∧
    ((expanded "a/b").runOn selfReference).1 = .ok [] := by
  decide +kernel

end ModelM

end Buildpath
