import Buildpath.Proofs.Cell
import Buildpath.Proofs.Model.Coverage

/-!
# Fragments of a project

The fragments that a project contributes are those of the entries that it is resolved to
(`mem_ownFragments`). They are told by the project, whether they are remembered or computed
(`fragments_eq`), if what is remembered is what would be computed (`Model.Fresh`).
-/

namespace Buildpath

variable {m m' : Model} {project : String} {checks : Bool} {e e' : Entry} {es : List Entry}
  {f : Fragment}

namespace Model

/-! ### The fragment of an entry -/

/-- Whether two models tell the fragments of entries in the same terms: they have the same files,
settings and factories. -/
structure SameTerms (m m' : Model) : Prop where
  files : m'.workspace.files = m.workspace.files
  settings : m'.settings = m.settings
  factories : m'.factories = m.factories

instance : OpenFrame SameTerms where
  refl _ := ⟨rfl, rfl, rfl⟩
  trans h h' := ⟨h'.files.trans h.files, h'.settings.trans h.settings,
    h'.factories.trans h.factories⟩
  volatile _ _ _ _ _ := ⟨rfl, rfl, rfl⟩
  caches _ _ _ _ _ _ _ := ⟨rfl, rfl, rfl⟩
  clearRoots _ := ⟨rfl, rfl, rfl⟩
  cells _ _ _ := ⟨rfl, rfl, rfl⟩
  noted _ _ := ⟨rfl, rfl, rfl⟩
  issued _ _ := ⟨rfl, rfl, rfl⟩
  resolving _ _ _ h := ⟨h.files, h.settings, h.factories⟩

instance : Deaf SameTerms where
  announced _ _ _ := ⟨rfl, rfl, rfl⟩
  references _ _ _ _ h := ⟨Workspace.files_setReferences h, rfl, rfl⟩

theorem SameTerms.kind? (h : m.SameTerms m') (path : Path) :
    m'.workspace.kind? path = m.workspace.kind? path := by
  rw [← Workspace.kind?_files, h.files, Workspace.kind?_files]

theorem SameTerms.externalKind? (h : m.SameTerms m') (path : Path) :
    m'.workspace.externalKind? path = m.workspace.externalKind? path := by
  rw [← Workspace.externalKind?_files, h.files, Workspace.externalKind?_files]

theorem SameTerms.fragment? (h : m.SameTerms m') : m'.fragment? = m.fragment? := by
  have hnature : ∀ name, m'.workspace.nature? name = m.workspace.nature? name := by
    intro name
    rw [← Workspace.nature?_files, h.files, Workspace.nature?_files]
  funext checks project e
  unfold Model.fragment?
  cases e.kind with
  | source =>
    dsimp only
    rw [sourceFragment?, sourceFragment?, Workspace.isContainer, Workspace.isContainer, h.kind?]
  | library =>
    dsimp only
    rw [libraryFragment?, libraryFragment?, factoryFragment?, factoryFragment?, libraryKind?,
      libraryKind?, missingLibraryKind, missingLibraryKind, optionsOf, optionsOf, hnature,
      h.factories, h.settings, h.kind?, h.externalKind?]
  | project => rfl
  | variableRef => rfl
  | container => rfl

theorem SameTerms.ownFragments (h : m.SameTerms m') : m'.ownFragments = m.ownFragments := by
  unfold Model.ownFragments FragmentWalk.visit
  rw [h.fragment?]

/-- A library is no source folder. -/
theorem libraryKind?_ne_source : m.libraryKind? checks project e ≠ some .source := by
  have hmissing : some (m.missingLibraryKind project e) ≠ some .source := by
    unfold missingLibraryKind
    split
    · decide
    · split <;> decide
  unfold libraryKind?
  split
  · decide
  · decide
  · decide
  · split
    · decide
    · decide
    · decide
    · split
      · decide
      · exact hmissing

theorem factoryFragment?_eq_none (hf : m.factories = .empty) (project : String) (e : Entry) :
    m.factoryFragment? project e = none := by
  rw [factoryFragment?, hf]
  cases m.workspace.nature? project <;> rfl

/-- Without factories, the fragment of an entry stands at its path in the project. -/
theorem fragment?_eq_some (hf : m.factories = .empty) (h : m.fragment? checks project e = some f) :
    e.IsIndexed ∧ f.path = e.path ∧ f.project = project := by
  unfold fragment? at h
  cases hkind : e.kind with
  | source =>
    rw [hkind] at h
    dsimp only at h
    unfold sourceFragment? at h
    split at h
    · cases h
    split at h
    · cases h
    obtain rfl := Option.some.inj h
    exact ⟨.inl hkind, rfl, rfl⟩
  | library =>
    rw [hkind] at h
    dsimp only at h
    rw [libraryFragment?, factoryFragment?_eq_none hf] at h
    dsimp only at h
    split at h
    · obtain rfl := Option.some.inj h
      exact ⟨.inr hkind, rfl, rfl⟩
    · obtain ⟨kind, -, rfl⟩ := Option.map_eq_some_iff.mp h
      exact ⟨.inr hkind, rfl, rfl⟩
  | project => rw [hkind] at h; cases h
  | variableRef => rw [hkind] at h; cases h
  | container => rw [hkind] at h; cases h

/-- An entry whose fragment is there has one in any model, if nobody asks whether it is there. -/
theorem fragment?_unchecked (hf : m'.factories = .empty) (h : m.fragment? true project e = some f) :
    ∃ f', m'.fragment? false project e = some f' := by
  unfold fragment? at h ⊢
  cases hkind : e.kind with
  | source =>
    rw [hkind] at h
    dsimp only at h ⊢
    unfold sourceFragment? at h ⊢
    split at h
    · cases h
    · next hinside =>
      rw [if_neg hinside]
      exact ⟨_, rfl⟩
  | library =>
    dsimp only
    rw [libraryFragment?, factoryFragment?_eq_none hf]
    dsimp only
    split
    · exact ⟨_, rfl⟩
    · obtain ⟨kind, hlibrary⟩ : ∃ kind, m'.libraryKind? false project e = some kind := by
        unfold libraryKind?
        split
        · exact ⟨_, rfl⟩
        · exact ⟨_, rfl⟩
        · exact ⟨_, rfl⟩
        · split <;> exact ⟨_, rfl⟩
      rw [hlibrary]
      exact ⟨_, rfl⟩
  | project => rw [hkind] at h; cases h
  | variableRef => rw [hkind] at h; cases h
  | container => rw [hkind] at h; cases h

/-- The fragment of an entry that is there depends on its kind and path, on what is found at the path and,
for a library, on where it is looked for. -/
theorem fragment?_congr (hf : m.factories = .empty) (hf' : m'.factories = .empty)
    (hkind : e'.kind = e.kind) (hpath : e'.path = e.path)
    (hexternal : e.kind = .library → e'.external = e.external)
    (hinside : m'.workspace.kind? e.path = m.workspace.kind? e.path)
    (houtside : m'.workspace.externalKind? e.path = m.workspace.externalKind? e.path) :
    m'.fragment? true project e' = m.fragment? true project e := by
  unfold fragment?
  rw [hkind]
  cases hlibrary : e.kind with
  | source =>
    dsimp only
    rw [sourceFragment?, sourceFragment?, hpath, Workspace.isContainer, Workspace.isContainer, hinside]
  | library =>
    dsimp only
    rw [libraryFragment?, libraryFragment?, factoryFragment?_eq_none hf, factoryFragment?_eq_none hf',
      hpath, libraryKind?, libraryKind?, hpath, hexternal hlibrary, hinside, houtside]
    rfl
  | project => rfl
  | variableRef => rfl
  | container => rfl

/-! ### The fragments of entries -/

private theorem mem_visit {w : FragmentWalk} : f ∈ (w.visit m checks project none e).roots.fragments ↔
    f ∈ w.roots.fragments ∨ e.rootId ∉ w.rootIds ∧ m.fragment? checks project e = some f := by
  unfold FragmentWalk.visit
  by_cases hin : e.rootId ∈ w.rootIds
  · simp [hin]
  · cases hfragment : m.fragment? checks project e with
    | none => simp [hin]
    | some fragment =>
      simp only [hin, if_false, FragmentWalk.add]
      split <;> grind

/-- What a project contributes comes from its entries. -/
theorem exists_of_mem_ownFragments (h : f ∈ m.ownFragments checks project es) :
    ∃ e ∈ es, m.fragment? checks project e = some f := by
  have hwalk : ∀ (es : List Entry) (w : FragmentWalk),
      f ∈ (es.foldl (fun w e ↦ w.visit m checks project none e) w).roots.fragments →
        f ∈ w.roots.fragments ∨ ∃ e ∈ es, m.fragment? checks project e = some f := by
    intro es
    induction es with
    | nil => exact fun w ↦ .inl
    | cons e es ih =>
      intro w hf
      rcases ih _ hf with hf | ⟨e', he', hfragment⟩
      · exact (mem_visit.mp hf).imp_right fun hnew ↦ ⟨e, List.mem_cons_self, hnew.2⟩
      · exact .inr ⟨e', List.mem_cons_of_mem _ he', hfragment⟩
  exact (hwalk es _ h).resolve_left List.not_mem_nil

private theorem rootIds_visit {w : FragmentWalk} {rootId : String} (hne : e.rootId ≠ rootId) :
    rootId ∈ (w.visit m checks project none e).rootIds ↔ rootId ∈ w.rootIds := by
  unfold FragmentWalk.visit FragmentWalk.add
  split
  · rfl
  · split
    · simp [hne.symm]
    · rfl

/-- A walk starts with no identity of an entry that is indexed. -/
theorem rootId_not_mem_ofProject (h : e.IsIndexed) :
    e.rootId ∉ (FragmentWalk.ofProject project).rootIds :=
  fun hin ↦ h.rootId_ne rfl (List.mem_singleton.mp hin)

/-- A project contributes the fragments of its entries, if no two have one root identity. -/
theorem mem_ownFragments (hf : m.factories = .empty) (hids : (es.map Entry.rootId).Nodup) :
    f ∈ m.ownFragments checks project es ↔ ∃ e ∈ es, m.fragment? checks project e = some f := by
  have hwalk : ∀ (es : List Entry) (w : FragmentWalk), (es.map Entry.rootId).Nodup →
      (∀ e ∈ es, e.IsIndexed → e.rootId ∉ w.rootIds) →
      (f ∈ (es.foldl (fun w e ↦ w.visit m checks project none e) w).roots.fragments ↔
        f ∈ w.roots.fragments ∨ ∃ e ∈ es, m.fragment? checks project e = some f) := by
    intro es
    induction es with
    | nil => simp
    | cons e es ih =>
      intro w hids hnew
      obtain ⟨hfirst, hrest⟩ := List.nodup_cons.mp hids
      obtain ⟨he, hes⟩ := List.forall_mem_cons.mp hnew
      have hnext : ∀ e' ∈ es, e'.IsIndexed →
          e'.rootId ∉ (w.visit m checks project none e).rootIds := by
        intro e' he' hindexed
        rw [rootIds_visit fun heq ↦ hfirst (List.mem_map.mpr ⟨e', he', heq.symm⟩)]
        exact hes e' he' hindexed
      rw [List.foldl_cons, ih _ hrest hnext, mem_visit, or_assoc, List.exists_mem_cons_iff]
      refine or_congr_right (or_congr_left (and_iff_right_of_imp fun hfragment ↦ ?_))
      exact he (fragment?_eq_some hf hfragment).1
  rw [Model.ownFragments, hwalk es _ hids fun e _ ↦ rootId_not_mem_ofProject]
  exact or_iff_right List.not_mem_nil

/-- An entry contributes its fragment. -/
theorem ownFragments_singleton (hf : m.factories = .empty) :
    m.ownFragments checks project [e] = (m.fragment? checks project e).toList := by
  have hfirst : m.ownFragments checks project [e] =
      ((FragmentWalk.ofProject project).visit m checks project none e).roots.fragments := rfl
  rw [hfirst, FragmentWalk.visit]
  cases hfragment : m.fragment? checks project e with
  | none => split <;> rfl
  | some fragment =>
    rw [if_neg (rootId_not_mem_ofProject (fragment?_eq_some hf hfragment).1)]
    rfl

/-! ### What is remembered -/

/-- Whether the fragments that are remembered of a project stayed or were forgotten. -/
def Forgets (project : String) (m m' : Model) : Prop :=
  (m'.cell project).fragments = none ∨ (m'.cell project).fragments = (m.cell project).fragments

private theorem fragments_of_step {c c' : Cell} (h : c.Step c') :
    c'.fragments = none ∨ c'.fragments = c.fragments := by
  cases h with
  | storeRaw raw stamp =>
    unfold Cell.storeRaw
    cases c.raw with
    | some _ => exact .inr rfl
    | none => exact .inl rfl
  | setRaw entries => exact .inl rfl
  | begin isResolving =>
    refine .inr ?_
    rcases c.begin_cases isResolving with ⟨_, _, _, he⟩ | ⟨_, he⟩ | ⟨_, _, _, he⟩ <;> rw [he]
  | complete generation issued =>
    unfold Cell.complete
    split
    · exact .inl rfl
    · exact .inr rfl

instance : ResolutionFrame (Forgets project) where
  refl _ := .inr rfl
  trans h h' := by
    rcases h' with h' | h'
    · exact .inl h'
    · exact h.imp h'.trans h'.trans
  volatile _ _ _ _ _ := .inr rfl
  touched m other := by
    refine .inr ?_
    rw [cell_setCell]
    split
    · next heq => rw [heq]
    · rfl
  clearRoots m := by
    refine .inr ?_
    rw [cell_clearRoots]
    rfl
  steps m other c h := by
    rw [Forgets, cell_setCell]
    split
    · next heq => exact heq ▸ fragments_of_step h
    · exact .inr rfl
  noted _ _ := .inr rfl
  issued _ _ := .inr rfl
  resolving _ _ _ h := h

instance : Deaf (Forgets project) where
  announced _ _ _ := .inr rfl
  references _ _ _ _ _ := .inr rfl

theorem Forgets.remembered {fs : List Fragment} (h : m.Forgets project m')
    (hfs : (m'.cell project).fragments = some fs) : (m.cell project).fragments = some fs := by
  rcases h with hnone | hsame
  · rw [hfs] at hnone
    cases hnone
  · rw [← hsame, hfs]

/-- Whether what is remembered of a project is what would be computed: the fragments are those of the
entries that it is resolved to, and each path occurs once in these. -/
structure Fresh (m : Model) (project : String) : Prop where
  paths : ((m.entriesOf project).map Entry.path).Nodup
  fragments : ∀ fs, (m.cell project).fragments = some fs →
    fs = m.ownFragments true project (m.entriesOf project)

end Model

namespace ModelM

theorem sameTerms_resolution (project : String) :
    Action.Moves Model.SameTerms (resolution project) :=
  moves_resolutionBy (moves_findContainer fun _ _ ↦ ⟨rfl, rfl, rfl⟩) project

theorem forgets_resolution (other : String) :
    Action.Moves (Model.Forgets project) (resolution other) :=
  moves_resolutionBy (moves_findContainer fun _ _ ↦ .inr rfl) other

/-- What is told of the fragments of a project: those that are still remembered once it is resolved, or
those of its entries. -/
theorem fragments_runOn {i : Issued} (h : ((resolution project).runOn m).1 = .ok i) :
    ((fragments project).runOn m).1 =
      .ok ((((resolution project).runOn m).2.cell project).fragments.getD
        (m.ownFragments true project i.result.entries)) := by
  have hterms : m.SameTerms ((resolution project).runOn m).2 := sameTerms_resolution project m
  rw [fragments, Action.bind_runOn]
  rcases hrun : (resolution project).runOn m with ⟨r, m₁⟩
  rw [hrun] at h hterms
  obtain rfl : r = .ok i := h
  have hread : (cell project).run m₁ = (m₁.cell project, m₁.setCell project (m₁.cell project)) := rfl
  dsimp only
  rw [Action.bind_runOn, Action.runOn_lift, hread]
  dsimp only
  cases (m₁.cell project).fragments with
  | some fs => rfl
  | none =>
    exact congrArg (fun own ↦ Except.ok (own true project i.result.entries)) hterms.ownFragments

/-- The fragments of a project are those of the entries that it is resolved to. -/
theorem fragments_eq {i : Issued} (h : ((resolution project).runOn m).1 = .ok i)
    (hfresh : m.Fresh project) : ((fragments project).runOn m).1 =
      .ok (m.ownFragments true project (m.entriesOf project)) := by
  have hforgets : m.Forgets project ((resolution project).runOn m).2 := forgets_resolution project m
  have hentries : m.entriesOf project = i.result.entries := by
    rw [Model.entriesOf, h]
  rw [fragments_runOn h, ← hentries]
  cases hcell : (((resolution project).runOn m).2.cell project).fragments with
  | none => rfl
  | some fs => exact congrArg Except.ok (hfresh.fragments fs (hforgets.remembered hcell))

/-- The fragments that are told of a project lie in it, if those that are remembered do. -/
theorem project_of_fragments {fs : List Fragment} (hf : m.factories = .empty)
    (hm : ∀ fs, (m.cell project).fragments = some fs → ∀ f ∈ fs, f.project = project)
    (h : ((fragments project).runOn m).1 = .ok fs) : ∀ f ∈ fs, f.project = project := by
  have hforgets : m.Forgets project ((resolution project).runOn m).2 := forgets_resolution project m
  have hown : ∀ es, ∀ f ∈ m.ownFragments true project es, f.project = project := by
    intro es f hf'
    obtain ⟨e, -, hfragment⟩ := Model.exists_of_mem_ownFragments hf'
    exact (Model.fragment?_eq_some hf hfragment).2.2
  rcases hrun : (resolution project).runOn m with ⟨failure | i, m₁⟩
  · rw [fragments, Action.bind_runOn, hrun] at h
    cases h
  · rw [fragments_runOn (congrArg Prod.fst hrun)] at h
    obtain rfl := Except.ok.inj h
    cases hcell : (((resolution project).runOn m).2.cell project).fragments with
    | none => exact hown _
    | some fs => exact hm fs (hforgets.remembered hcell)

private theorem project_of_knownFragments (hf : m.factories = .empty)
    (hm : ∀ fs, (m.cell project).fragments = some fs → ∀ f ∈ fs, f.project = project) :
    ∀ f ∈ ((knownFragments project).run m).1.getD [], f.project = project := by
  have hcell : (m.setCell project (m.cell project)).cell project = m.cell project := by
    rw [Model.cell_setCell, if_pos rfl]
  have hread : (cell project).run m = (m.cell project, m.setCell project (m.cell project)) := rfl
  have hsteps : ((knownFragments project).run m).1 = (m.cell project).fragments.or
      ((fragments project).runOn (m.setCell project (m.cell project))).1.toOption := by
    rw [knownFragments, StateT.run_bind, hread]
    dsimp only [bind]
    cases (m.cell project).fragments <;> rfl
  rw [hsteps]
  cases hremembered : (m.cell project).fragments with
  | some fs => exact hm fs hremembered
  | none =>
    rw [Option.none_or]
    rcases htold : (fragments project).runOn (m.setCell project (m.cell project)) with ⟨failure | fs, m₁⟩
    · exact fun f hmem ↦ absurd hmem List.not_mem_nil
    · have hkept : ∀ fs, ((m.setCell project (m.cell project)).cell project).fragments = some fs →
          ∀ f ∈ fs, f.project = project := by
        rwa [hcell]
      exact project_of_fragments (m := m.setCell project (m.cell project)) hf hkept
        (congrArg Prod.fst htold)

/-- The fragments that are known of a project before its raw buildpath is replaced lie in it. -/
theorem project_of_inspect (hf : m.factories = .empty)
    (hm : ∀ fs, (m.cell project).fragments = some fs → ∀ f ∈ fs, f.project = project) :
    ∀ f ∈ ((inspect project).run m).1.getD [], f.project = project := by
  let looked : ModelM (Except Failure Issued) := do
    flushMarkers project false false
    let _ ← loadRaw project
    (resolution project).run
  have hterms : m.SameTerms (looked.run m).2 :=
    ModelM.Moves.bind (moves_flushMarkers _ _ _) (fun _ ↦ .bind (moves_loadRaw _) fun _ ↦
      sameTerms_resolution project) m
  have hforgets : m.Forgets project (looked.run m).2 :=
    ModelM.Moves.bind (moves_flushMarkers _ _ _) (fun _ ↦ .bind (moves_loadRaw _) fun _ ↦
      forgets_resolution project) m
  exact project_of_knownFragments (m := (looked.run m).2) (hterms.factories.trans hf) fun fs hfs ↦
    hm fs (hforgets.remembered hfs)

end ModelM

end Buildpath
