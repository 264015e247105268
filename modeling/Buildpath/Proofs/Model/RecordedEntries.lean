import Buildpath.Proofs.Model.CachedRoots
import Buildpath.Proofs.Model.Contributions
import Buildpath.Proofs.Model.VisibleFragments

/-!
# Entries behind fragments

A walk for fragments records the entry behind each fragment under the path of the fragment. It does not
find two fragments of one identity, but a source folder and a library may have one path: the entry of the
later one replaces that of the earlier one. So the entry recorded for a fragment is the one that makes it
just if no later fragment stands at its path (`VisibleRoots.Recorded`), whatever operations and initializers
did before.
-/

namespace Buildpath

variable {m m' : Model} {project : String} {e : Entry} {f : Fragment} {referring : Option Entry}
  {roots : VisibleRoots} {w : FragmentWalk}

/-- Whether a fragment is that of an entry, with the resources of some model without factories. -/
def Entry.Makes (e : Entry) (f : Fragment) : Prop :=
  ∃ m : Model, m.factories = .empty ∧ m.fragment? true f.project e = some f

theorem Entry.Makes.rootId (h : e.Makes f) : e.rootId = f.rootId := by
  obtain ⟨m, hf, hfragment⟩ := h
  exact (Model.rootId_of_fragment? hf hfragment).symm

theorem Entry.Makes.path (h : e.Makes f) : e.path = f.path := by
  obtain ⟨m, hf, hfragment⟩ := h
  exact (Model.fragment?_eq_some hf hfragment).2.1.symm

/-- An entry makes the same fragment when another one leads to it. -/
theorem Model.makes_combine (hf : m.factories = .empty) (h : m.fragment? true project e = some f)
    (referring : Option Entry) : (e.combine referring).Makes f := by
  have hexternal : (e.combine referring).external = e.external := by cases referring <;> rfl
  refine ⟨m, hf, ?_⟩
  rw [(fragment?_eq_some hf h).2.2, fragment?_congr hf hf (Entry.kind_combine e referring)
    (Entry.path_combine e referring) (fun _ ↦ hexternal) rfl rfl, h]

/-! ### Fragments with their entries -/

namespace VisibleRoots

/-- Whether the fragments have different identities, and at the path of each of them stands the entry that
makes it or, if there is a later fragment at that path, an entry of another identity. -/
structure Recorded (roots : VisibleRoots) : Prop where
  distinct : (roots.fragments.map Fragment.rootId).Nodup
  recorded : ∀ before f after, roots.fragments = before ++ f :: after →
    ∃ e, roots.entryOf.find? f.path = some e ∧ e.path = f.path ∧
      (e.rootId = f.rootId ↔ ∀ g ∈ after, g.path ≠ f.path) ∧ (e.rootId = f.rootId → e.Makes f)

theorem Recorded.empty : Recorded {} :=
  ⟨List.nodup_nil, fun _ _ _ h ↦ absurd h.symm (List.append_ne_nil_of_right_ne_nil _ nofun)⟩

/-- One more fragment replaces the entry at its path. -/
theorem Recorded.snoc (h : roots.Recorded) (hmakes : e.Makes f)
    (hnew : f.rootId ∉ roots.fragments.map Fragment.rootId) :
    Recorded ⟨roots.fragments ++ [f], roots.entryOf.insert f.path e⟩ where
  distinct := by
    rw [List.map_append, List.map_singleton, ← List.concat_eq_append, List.nodup_concat]
    exact ⟨hnew, h.distinct⟩
  recorded before g after hsplit := by
    dsimp only at hsplit ⊢
    rw [Table.find?_insert]
    rcases List.eq_nil_or_concat after with rfl | ⟨between, last, rfl⟩
    · -- the fragment is the new one
      obtain rfl : f = g := by simpa using (List.append_inj' hsplit rfl).2
      rw [if_pos rfl]
      exact ⟨e, rfl, hmakes.path, iff_of_true hmakes.rootId nofun, fun _ ↦ hmakes⟩
    · -- the new fragment stands behind it, perhaps at the same path
      have hsplit : roots.fragments ++ [f] = (before ++ g :: between) ++ [last] := by
        rw [hsplit, List.concat_eq_append, List.append_assoc, List.cons_append]
      obtain ⟨hbefore, hlast⟩ := List.append_inj' hsplit rfl
      obtain rfl : f = last := by simpa using hlast
      have hlater : (∀ x ∈ between ++ [f], x.path ≠ g.path) ↔
          (∀ x ∈ between, x.path ≠ g.path) ∧ f.path ≠ g.path := by
        rw [List.forall_mem_append, List.forall_mem_singleton]
      rw [List.concat_eq_append, hlater]
      by_cases hpath : f.path = g.path
      · have hmem : g ∈ roots.fragments :=
          hbefore ▸ List.mem_append_right before List.mem_cons_self
        have hother : e.rootId ≠ g.rootId := fun hsame ↦
          hnew (List.mem_map.mpr ⟨g, hmem, hsame.symm.trans hmakes.rootId⟩)
        rw [if_pos hpath]
        exact ⟨e, rfl, hmakes.path.trans hpath, iff_of_false hother fun h ↦ h.2 hpath,
          fun hsame ↦ absurd hsame hother⟩
      · obtain ⟨x, hx, hrest⟩ := h.recorded before g between hbefore
        rw [if_neg hpath, and_iff_left hpath]
        exact ⟨x, hx, hrest⟩

/-- All fragments have the entries that make them just if no two of them stand at one path. -/
theorem Recorded.explained_iff (h : roots.Recorded) :
    (∀ f ∈ roots.fragments, ∃ e, roots.entryOf.find? f.path = some e ∧ e.rootId = f.rootId) ↔
      (roots.fragments.map Fragment.path).Nodup := by
  constructor
  · intro hall
    rw [List.Nodup, List.pairwise_map, List.pairwise_iff_forall_sublist]
    intro f g hsublist hpath
    obtain ⟨first, rest, hsplit, hf, hg⟩ := List.cons_sublist_iff.mp hsublist
    obtain ⟨before, after, rfl⟩ := List.append_of_mem hf
    rw [List.append_assoc, List.cons_append] at hsplit
    obtain ⟨e, he, -, hsame, -⟩ := h.recorded before f (after ++ rest) hsplit
    have hmem : f ∈ roots.fragments := hsplit ▸ List.mem_append_right before List.mem_cons_self
    obtain ⟨x, hx, hid⟩ := hall f hmem
    obtain rfl := Option.some.inj (he.symm.trans hx)
    exact hsame.mp hid g (List.mem_append_right after (List.singleton_sublist.mp hg)) hpath.symm
  · intro hnodup f hf
    obtain ⟨before, after, hsplit⟩ := List.append_of_mem hf
    obtain ⟨e, he, -, hsame, -⟩ := h.recorded before f after hsplit
    rw [hsplit, List.map_append, List.map_cons] at hnodup
    have hnotin := (List.nodup_cons.mp (List.nodup_append.mp hnodup).2.1).1
    refine ⟨e, he, hsame.mpr fun g hg hpath ↦ hnotin ?_⟩
    exact hpath ▸ List.mem_map_of_mem hg

end VisibleRoots

/-! ### Walks -/

namespace FragmentWalk

/-- Whether a walk recorded the entries behind its fragments, and met all of these. -/
structure Recorded (w : FragmentWalk) : Prop where
  roots : w.roots.Recorded
  met : ∀ f ∈ w.roots.fragments, f.rootId ∈ w.rootIds

theorem Recorded.ofProject (project : String) : (ofProject project).Recorded :=
  ⟨.empty, fun _ hf ↦ absurd hf List.not_mem_nil⟩

/-- Marking an identity records nothing. -/
theorem Recorded.mark (h : w.Recorded) (rootId : String) : (w.mark rootId).Recorded :=
  ⟨h.roots, fun f hf ↦ List.mem_cons_of_mem _ (h.met f hf)⟩

/-- Visiting an entry records it behind its fragment, unless the fragment was met. -/
theorem Recorded.visit (h : w.Recorded) (hf : m.factories = .empty) (project : String)
    (referring : Option Entry) (e : Entry) : (w.visit m true project referring e).Recorded := by
  unfold FragmentWalk.visit
  split
  · exact h
  · next hnew =>
    cases hfragment : m.fragment? true project e with
    | none => exact h
    | some f =>
      have hid : f.rootId = e.rootId := Model.rootId_of_fragment? hf hfragment
      have hunmet : f ∉ w.roots.fragments := fun hmem ↦ hnew (hid ▸ h.met f hmem)
      have hunknown : f.rootId ∉ w.roots.fragments.map Fragment.rootId := by
        intro hmem
        obtain ⟨g, hg, hsame⟩ := List.mem_map.mp hmem
        exact hnew (hid ▸ hsame ▸ h.met g hg)
      refine ⟨?_, fun g hg ↦ ?_⟩
      · dsimp only [add]
        rw [if_neg hunmet]
        exact h.roots.snoc (Model.makes_combine hf hfragment referring) hunknown
      · dsimp only [add]
        rcases mem_fragments_add.mp hg with hg | rfl
        · exact List.mem_cons_of_mem _ (h.met g hg)
        · exact hid ▸ List.mem_cons_self

/-- What a turn makes of a walk is recorded. -/
theorem Recorded.turn (h : w.Recorded) (hf : m.factories = .empty) (project : String)
    (referring : Option Entry) (e : Entry) : (turn m project referring w e).state.Recorded := by
  have hturns := turns m project referring w e
  generalize FragmentWalk.turn m project referring w e = t at hturns ⊢
  cases hturns with
  | met => exact h
  | hides => exact h
  | strays => exact h
  | visits => exact h.visit hf project referring e
  | enters => exact h.mark e.rootId

end FragmentWalk

/-! ### Models -/

namespace Model

/-- Whether a model makes no fragments by factories and keeps recorded fragments only. -/
structure KeepsEntries (m : Model) : Prop where
  factories : m.factories = .empty
  roots : ∀ project roots, (m.cell project).roots = some roots → roots.Recorded

/-- Steps after which a model still keeps recorded fragments only. -/
def StillKeepsEntries (m m' : Model) : Prop := m.KeepsEntries → m'.KeepsEntries

/-- Steps that do not store fragments that a project sees. -/
theorem StillKeepsEntries.of_roots (hf : m'.factories = m.factories) (h : ∀ project,
    (m'.cell project).roots = none ∨ (m'.cell project).roots = (m.cell project).roots) :
    m.StillKeepsEntries m' := by
  refine fun hm ↦ ⟨hf.trans hm.factories, fun project roots hroots ↦ ?_⟩
  rcases h project with hnone | hsame
  · cases hnone.symm.trans hroots
  · exact hm.roots project roots (hsame.symm.trans hroots)

theorem StillKeepsEntries.of_cells (hf : m'.factories = m.factories) (hcells : m'.cells = m.cells) :
    m.StillKeepsEntries m' :=
  .of_roots hf fun project ↦ .inr (by rw [cell, hcells, cell])

/-- Changing a cell without storing fragments that its project sees. -/
theorem StillKeepsEntries.setCell {c : Cell} (h : c.roots = none ∨ c.roots = (m.cell project).roots) :
    m.StillKeepsEntries (m.setCell project c) := by
  refine .of_roots rfl fun other ↦ ?_
  rw [cell_setCell]
  split
  · next heq => exact heq ▸ h
  · exact .inr rfl

instance : Chained StillKeepsEntries where
  refl _ := id
  trans h h' := h' ∘ h

instance : OperationFrame (fun _ _ ↦ True) StillKeepsEntries where
  volatile _ _ _ _ _ := .of_cells rfl rfl
  touched _ _ := .setCell (.inr rfl)
  clearRoots m := .of_roots rfl fun _ ↦ by
    rw [cell_clearRoots]
    exact .inl rfl
  noted _ _ := .of_cells rfl rfl
  registry _ _ := .of_cells rfl rfl
  issued _ := .of_cells rfl rfl
  fragments _ _ _ := .setCell (.inr rfl)
  loads m project hnone := .setCell <| .inl <| by
    rw [loaded, Cell.storeRaw, hnone]
    rfl
  begins _ _ _ _ _ _ := .setCell (.inr rfl)
  completes {m m' project raw r} _ _ _ _ h := by
    have hbefore : m.StillKeepsEntries m' := fun hm ↦ h ⟨hm.factories, hm.roots⟩
    refine Chained.trans hbefore (.of_roots rfl fun other ↦ ?_)
    rw [cell_completed]
    split
    · next heq =>
      subst heq
      unfold Cell.complete
      split
      · exact .inl rfl
      · exact .inr rfl
    · exact .inr rfl
  replaces _ _ _ _ := .setCell (.inl rfl)
  announced _ _ _ := .of_cells rfl rfl
  references _ _ _ _ _ := .of_cells rfl rfl
  bindsVariables _ _ := .of_cells rfl rfl
  invalidates _ _ := .setCell (.inl rfl)

end Model

namespace ModelM

variable {α : Type}

theorem keepsEntries {x : ModelM α} (hx : x.Moves (Model.Tamely (fun _ _ ↦ True) Model.StillKeepsEntries))
    (hm : m.KeepsEntries) : (x.run m).2.KeepsEntries :=
  (hx m m.tame).1 hm

/-- The fragments that are computed for a project are recorded with their entries, and so are those that are
kept. -/
theorem computeRoots_recorded (hm : m.KeepsEntries) (project : String) (i : Issued) :
    ((computeRoots project i).run m).1.Recorded ∧
      ((computeRoots project i).run m).2.KeepsEntries := by
  have hwalk : ((m.walkRoots project resolvedEntries? i).run m).1.Recorded :=
    walk_keeps (fun e hw ↦ hw.turn hm.factories _ _ e) _ _ _ _ (.ofProject project) m
  have hm' : ((m.walkRoots project resolvedEntries? i).run m).2.KeepsEntries :=
    keepsEntries (moves_walk (moves_resolvedEntries? moves_resolution_tame) _ _ _ _ _) hm
  rw [computeRoots_run]
  refine ⟨hwalk.roots, hm'.factories, fun other roots hroots ↦ ?_⟩
  rw [Model.cell_setCell] at hroots
  split at hroots
  · unfold Cell.storeRoots at hroots
    split at hroots
    · cases hroots
      exact hwalk.roots
    · exact hm'.roots project roots hroots
  · exact hm'.roots other roots hroots

/-- The fragments that a project sees are recorded with their entries, whether they were kept or not. -/
theorem visibleRoots_keepsEntries (hm : m.KeepsEntries) (project : String) :
    (∀ roots, ((visibleRoots project).runOn m).1 = .ok roots → roots.Recorded) ∧
      ((visibleRoots project).runOn m).2.KeepsEntries := by
  have hres : ((resolution project).runOn m).2.KeepsEntries :=
    keepsEntries (moves_resolution_tame project) hm
  rcases hrun : (resolution project).runOn m with ⟨failure | i, m₁⟩
  · rw [visibleRoots, Action.bind_runOn, hrun]
    rw [hrun] at hres
    refine ⟨fun roots h ↦ ?_, hres⟩
    cases h
  · rw [hrun] at hres
    have htouched : (m₁.setCell project (m₁.cell project)).KeepsEntries :=
      Ground.touched (R := Model.StillKeepsEntries) m₁ project hres
    rw [visibleRoots_runOn hrun]
    cases hroots : (m₁.cell project).roots with
    | some kept =>
      refine ⟨fun roots h ↦ ?_, htouched⟩
      cases h
      exact hres.roots project kept hroots
    | none =>
      obtain ⟨hrecorded, hkept⟩ := computeRoots_recorded htouched project i
      refine ⟨fun roots h ↦ ?_, hkept⟩
      cases h
      exact hrecorded

end ModelM

/-- After any operation, fragments are recorded with their entries as before. -/
theorem Operation.keepsEntries {op : Operation} (hm : m.KeepsEntries) : (op.apply m).KeepsEntries := by
  have of_still : ∀ {m m' : Model}, m.StillKeepsEntries m' →
      Model.Tamely (fun _ _ ↦ True) Model.StillKeepsEntries m m' := fun h _ ↦ ⟨h, Model.tame _⟩
  refine ModelM.keepsEntries (Operation.moves_tame (fun _ _ _ _ ↦ trivial) ?_ ?_ ?_) hm
  · intro m m' project entries hsave
    obtain ⟨isWritten, w, -, rfl⟩ := ModelM.saveFile_eq_ok hsave
    have hwritten : m.StillKeepsEntries { m with workspace := w } := .of_cells rfl rfl
    exact of_still (Chained.trans hwritten (.setCell (.inr rfl)))
  · intro project m
    refine of_still (.of_roots rfl fun other ↦ ?_)
    rw [ModelM.cell_closeProject]
    split <;> exact .inl rfl
  · exact fun project m ↦ of_still fun hm ↦ (ModelM.visibleRoots_keepsEntries hm project).2

/-- However buildpaths, bindings and variables are changed and asked for, and whatever initializers do, the
fragments that a project sees have different identities, and the entry recorded at the path of a fragment
makes it just if no later fragment stands at that path. So all of them have the entries that make them just
if no two stand at one path. -/
theorem visibleRoots_recorded {m₀ : Model} (hf : m₀.factories = .empty)
    (hnew : ∀ other, (m₀.cell other).roots = none) (hreaches : m₀.Reaches (fun _ _ ↦ True) m)
    (hexists : m.workspace.projectExists project) :
    ∃ roots, ((ModelM.visibleRoots project).runOn m).1 = .ok roots ∧ roots.Recorded ∧
      ((∀ f ∈ roots.fragments, ∃ e, roots.entryOf.find? f.path = some e ∧ e.rootId = f.rootId) ↔
        (roots.fragments.map Fragment.path).Nodup) := by
  have hm : m.KeepsEntries := by
    clear hexists
    induction hreaches with
    | start => exact ⟨hf, fun other roots hroots ↦ absurd ((hnew other).symm.trans hroots) nofun⟩
    | next _ _ ih => exact Operation.keepsEntries ih
  obtain ⟨roots, hroots⟩ : ∃ roots, ((ModelM.visibleRoots project).runOn m).1 = .ok roots := by
    obtain ⟨i, m₁, hrun⟩ := ModelM.resolution_succeeds hexists
    rw [ModelM.visibleRoots_runOn hrun]
    cases (m₁.cell project).roots with
    | some kept => exact ⟨kept, rfl⟩
    | none => exact ⟨_, rfl⟩
  have hrecorded := (ModelM.visibleRoots_keepsEntries hm project).1 roots hroots
  exact ⟨roots, hroots, hrecorded, hrecorded.explained_iff⟩

namespace Model

/-- A project with the folder of the project as its source folder that requires another one, which exports the
folder as a library. -/
def sharedFolder : Model :=
  .ofBuildpaths [("p", [.source (.parse "/p"), .project (.parse "/q")]),
    ("q", [{ kind := .library, path := .parse "/p", exported := true }])]

/-- Asked for again, the project sees both fragments, so not both of them have the entry that makes them. -/
theorem recorded_sharedFolder :
    let asked := (Operation.ask (.visibleRoots "p")).apply sharedFolder
    ((ModelM.visibleRoots "p").runOn asked).1.toOption.map VisibleRoots.fragments =
        some [⟨"p", .parse "/p", .source⟩, ⟨"q", .parse "/p", .folder⟩] ∧
      ∃ roots, ((ModelM.visibleRoots "p").runOn asked).1 = .ok roots ∧ roots.Recorded ∧
        ((∀ f ∈ roots.fragments, ∃ e, roots.entryOf.find? f.path = some e ∧ e.rootId = f.rootId) ↔
          (roots.fragments.map Fragment.path).Nodup) := by
  have hf : sharedFolder.factories = .empty := rfl
  have hnew : ∀ other, (sharedFolder.cell other).roots = none := by
    intro other
    obtain ⟨raw, hcell⟩ := cell_ofBuildpaths _ other
    rw [sharedFolder, hcell]
  exact ⟨by decide +kernel, visibleRoots_recorded hf hnew (.next .start trivial) (by decide +kernel)⟩

/-- No entry is recorded for the source folder that has its identity: the library took its place. -/
theorem source_folder_is_unexplained : ∃ roots, ((ModelM.visibleRoots "p").runOn sharedFolder).1 = .ok roots ∧
    ∃ f ∈ roots.fragments, ¬ ∃ e, roots.entryOf.find? f.path = some e ∧ e.rootId = f.rootId := by
  obtain ⟨roots, hrun⟩ : ∃ roots, ((ModelM.visibleRoots "p").runOn sharedFolder).1 = .ok roots := by
    obtain ⟨roots, hrun⟩ := Action.runOn_eq_ok (ModelM.visibleRoots "p") sharedFolder (by decide +kernel)
    exact ⟨roots, congrArg Prod.fst hrun⟩
  have hparts : (((ModelM.visibleRoots "p").runOn sharedFolder).1.toOption.map fun roots ↦
      (roots.fragments, roots.entryOf.find? (.parse "/p"))) =
        some ([⟨"p", .parse "/p", .source⟩, ⟨"q", .parse "/p", .folder⟩],
          some { kind := .library, path := .parse "/p" }) := by decide +kernel
  rw [hrun] at hparts
  obtain ⟨hfragments, hentry⟩ := Prod.mk.inj (Option.some.inj hparts)
  refine ⟨roots, hrun, ⟨"p", .parse "/p", .source⟩, hfragments ▸ List.mem_cons_self, ?_⟩
  rintro ⟨e, he, hsame⟩
  obtain rfl := Option.some.inj (hentry.symm.trans he)
  revert hsame
  decide +kernel

end Model

end Buildpath
