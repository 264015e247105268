import Buildpath.Proofs.Model.Fragments
import Buildpath.Proofs.Model.Histories
import Buildpath.Proofs.Model.Linking
import Buildpath.Proofs.Resource.Children

/-!
# Children that are kept for a project

The children of a fragment are listed once and then kept under its project and path. Those that are kept for
a project are right for entries of some shapes (`Model.Serves`) if they are what the source entries among
these let through. Looking at projects keeps nothing more for the project, as long as nobody asks for its
fragments' children, and does not spoil what is kept (`Model.KeepsListings`).
-/

namespace Buildpath

variable {m m' m'' : Model} {project q : String} {e : Entry} {f : Fragment} {i : Issued}

namespace Model

/-! ### Source folders among fragments -/

/-- Whether there are no initializers, and no factory makes a source folder of a library. -/
structure Inert (m : Model) : Prop extends Bare m where
  factories : ∀ nature factory, m.factories.find? nature = some factory → ∀ project e f,
    factory project e = some f → f.kind ≠ .source

theorem Inert.of_same (hm : m.Inert) (hinitializers : m'.initializers = m.initializers)
    (hresolving : m'.resolving = m.resolving) (hnesting : m'.nesting = m.nesting)
    (hfactories : m'.factories = m.factories) : m'.Inert :=
  ⟨⟨hinitializers.trans hm.initializers, hresolving.trans hm.isIdle, hnesting ▸ hm.nesting⟩,
    hfactories ▸ hm.factories⟩

/-- Only a source entry contributes a source folder, which is there. -/
theorem source_of_fragment? (hm : m.Inert) (h : m.fragment? true project e = some f)
    (hsource : f.kind = .source) :
    e.kind = .source ∧ f = ⟨project, e.path, .source⟩ ∧ m.workspace.isContainer e.path := by
  unfold fragment? at h
  cases hkind : e.kind with
  | source =>
    rw [hkind] at h
    dsimp only at h
    unfold sourceFragment? at h
    split at h
    · cases h
    split at h
    · cases h
    · next hthere => exact ⟨rfl, (Option.some.inj h).symm, by simpa using hthere⟩
  | library =>
    rw [hkind] at h
    dsimp only at h
    unfold libraryFragment? at h
    split at h
    · next made hmade =>
      obtain rfl := Option.some.inj h
      obtain ⟨nature, -, hfactory⟩ := Option.bind_eq_some_iff.mp hmade
      obtain ⟨factory, hfound, hmakes⟩ := Option.bind_eq_some_iff.mp hfactory
      exact absurd hsource (hm.factories _ _ hfound _ _ _ hmakes)
    split at h
    · obtain rfl := Option.some.inj h
      cases hsource
    · obtain ⟨kind, hlibrary, rfl⟩ := Option.map_eq_some_iff.mp h
      obtain rfl : kind = .source := hsource
      exact absurd hlibrary (libraryKind?_ne_source)
  | project => rw [hkind] at h; cases h
  | variableRef => rw [hkind] at h; cases h
  | container => rw [hkind] at h; cases h

/-- Whether a source folder lies in a project, is there, and comes from a source entry of a result. -/
structure Brings (m : Model) (project : String) (r : Resolved) (f : Fragment) : Prop where
  project : f.project = project
  isThere : m.workspace.isContainer f.path
  entry : ∃ e ∈ r.entries, e.kind = .source ∧ e.path = f.path

theorem Brings.of_files {r : Resolved} (h : m.Brings project r f)
    (hfiles : m'.workspace.files = m.workspace.files) : m'.Brings project r f :=
  ⟨h.project, (Workspace.isContainer_of_files hfiles f.path).trans h.isThere, h.entry⟩

/-- What a project contributes brings in its source folders. -/
theorem brings_ownFragments {r : Resolved} (hm : m.Inert)
    (h : f ∈ m.ownFragments true project r.entries) (hsource : f.kind = .source) :
    m.Brings project r f := by
  obtain ⟨e, he, hfragment⟩ := exists_of_mem_ownFragments h
  obtain ⟨hkind, rfl, hthere⟩ := source_of_fragment? hm hfragment hsource
  exact ⟨rfl, hthere, e, he, hkind, rfl⟩

/-- Whether the result that is kept for a project has its entries under their paths, and brings in the source
folders among the fragments that are kept. -/
def Backed (m : Model) (project : String) : Prop :=
  ∀ i, (m.cell project).issued? = some i → i.result.Keyed ∧
    ∀ fs, (m.cell project).fragments = some fs → ∀ f ∈ fs, f.kind = .source →
      m.Brings project i.result f

/-- Whether the cell of a project keeps no result and no fragments but those of before. -/
structure KeepsLess (project : String) (m m' : Model) : Prop where
  issued : ∀ i, (m'.cell project).issued? = some i → (m.cell project).issued? = some i
  fragments : ∀ fs, (m'.cell project).fragments = some fs → (m.cell project).fragments = some fs

theorem KeepsLess.of_cell (hissued : (m'.cell project).issued? = (m.cell project).issued?)
    (hfragments : (m'.cell project).fragments = (m.cell project).fragments) : m.KeepsLess project m' :=
  ⟨fun _ hi ↦ hissued ▸ hi, fun _ hfs ↦ hfragments ▸ hfs⟩

theorem Backed.of_less (h : m.Backed project) (hfiles : m'.workspace.files = m.workspace.files)
    (hless : m.KeepsLess project m') : m'.Backed project := fun i hi ↦
  (h i (hless.issued i hi)).imp_right fun hbrings fs hfs f hf hsource ↦
    (hbrings fs (hless.fragments fs hfs) f hf hsource).of_files hfiles

/-- Whether no children are kept for a project but those of before. -/
def ListsLess (project : String) (m m' : Model) : Prop :=
  ∀ path paths, m'.children.find? (project, path) = some paths →
    m.children.find? (project, path) = some paths

/-- What steps may do to what is kept of the fragments of a project. -/
structure Backs (project : String) (m m' : Model) : Prop where
  inert : m'.Inert
  files : m'.workspace.files = m.workspace.files
  children : m.ListsLess project m'
  backed : m.Backed project → m'.Backed project

/-- Steps that keep no children for a project, and back its fragments. -/
def KeepsBacked (project : String) (m m' : Model) : Prop := m.Inert → m.Backs project m'

theorem Backs.of_less (hm : m'.Inert) (hfiles : m'.workspace.files = m.workspace.files)
    (hchildren : m.ListsLess project m') (hless : m.KeepsLess project m') : m.Backs project m' :=
  ⟨hm, hfiles, hchildren, fun h ↦ h.of_less hfiles hless⟩

instance : Scene (KeepsBacked project) where
  refl _ hm := ⟨hm, rfl, fun _ _ ↦ id, id⟩
  trans h h' hm := by
    have hfirst := h hm
    have hnext := h' hfirst.inert
    exact ⟨hnext.inert, hnext.files.trans hfirst.files,
      fun path paths ↦ hfirst.children path paths ∘ hnext.children path paths,
      hnext.backed ∘ hfirst.backed⟩
  unheld _ _ _ hm := .of_less (hm.of_same rfl rfl rfl rfl) rfl (fun _ _ ↦ id) (.of_cell rfl rfl)
  closes _ keep hm := by
    refine .of_less (hm.of_same rfl rfl rfl rfl) rfl (fun path paths h ↦ ?_) (.of_cell rfl rfl)
    rw [Table.find?_filterKeys] at h
    split at h
    · exact h
    · cases h
  touched m other hm := by
    have hcell := m.cell_touched other project
    exact .of_less (hm.of_same rfl rfl rfl rfl) rfl (fun _ _ ↦ id)
      (.of_cell (congrArg Cell.issued? hcell) (congrArg Cell.fragments hcell))
  clearRoots m hm := by
    have hcell := m.cell_clearRoots project
    exact .of_less (hm.of_same rfl rfl rfl rfl) rfl (fun _ _ ↦ id)
      (.of_cell ((congrArg Cell.issued? hcell).trans rfl) ((congrArg Cell.fragments hcell).trans rfl))
  marked _ _ hm := .of_less (hm.of_same rfl rfl rfl rfl) rfl (fun _ _ ↦ id) (.of_cell rfl rfl)

instance : Deaf (KeepsBacked project) where
  announced _ _ _ hm := .of_less (hm.of_same rfl rfl rfl rfl) rfl (fun _ _ ↦ id) (.of_cell rfl rfl)
  references _ _ _ _ hw hm :=
    .of_less (hm.of_same rfl rfl rfl rfl) (Workspace.files_setReferences hw) (fun _ _ ↦ id)
      (.of_cell rfl rfl)

/-- Bindings do not matter to what is kept. -/
theorem keepsBacked_bindings (m : Model) (registry : Registry) (variableValues : Variables) :
    KeepsBacked project m { m with registry, variableValues } := fun hm ↦
  .of_less (hm.of_same rfl rfl rfl rfl) rfl (fun _ _ ↦ id) (.of_cell rfl rfl)

end Model

namespace ModelM

open Model

theorem fragments_of_loaded {fs : List Fragment} (h : (m.loaded q).fragments = some fs) :
    (m.cell q).fragments = some fs := by
  rw [Model.loaded, Cell.storeRaw] at h
  split at h
  · exact h
  · cases h

private theorem keepsBacked_loadRaw (other : String) : (loadRaw other).Moves (KeepsBacked project) := by
  intro m hm
  obtain ⟨cells, hrun, hcell⟩ := loadRaw_run m other
  rw [hrun]
  refine .of_less (hm.of_same rfl rfl rfl rfl) rfl (fun _ _ ↦ id) ⟨fun i hi ↦ ?_, fun fs hfs ↦ ?_⟩
  · rw [hcell] at hi
    split at hi
    · next hq => exact hq ▸ issued?_of_loaded hi
    · exact hi
  · rw [hcell] at hfs
    split at hfs
    · next hq => exact hq ▸ fragments_of_loaded hfs
    · exact hfs

/-- A resolution keeps no children, and backs the fragments that are kept with its result. -/
theorem keepsBacked_resolution (other : String) :
    Action.Moves (KeepsBacked project) (resolution other) := by
  refine moves_resolution fun m hexists hm ↦ ?_
  obtain ⟨i, m', hrun, hremembers, hothers, hresolves⟩ := resolution_still hm.still hexists
  rw [hrun]
  have hidle : other ∉ m.resolving := hm.isIdle ▸ List.not_mem_nil
  obtain ⟨cells, folders, issued, rfl⟩ := hremembers
  refine ⟨hm.of_same rfl rfl rfl rfl, rfl, fun _ _ ↦ id, fun hbacked ↦ ?_⟩
  by_cases hq : other = project
  · subst hq
    cases hresolves with
    | cached _ _ hcell =>
      exact hbacked.of_less rfl ⟨fun j hj ↦ issued?_of_loaded (hcell ▸ hj),
        fun fs hfs ↦ fragments_of_loaded (hcell ▸ hfs)⟩
    | reentrant hin _ _ => exact absurd hin hidle
    | anew _ _ hresult hcell _ =>
      intro j hj
      rw [hcell] at hj
      obtain rfl : i = j := Option.some.inj hj
      refine ⟨hresult ▸ keyed_outcome _ _ _, fun fs hfs ↦ ?_⟩
      rw [hcell] at hfs
      cases hfs
  · have hcell := hothers project hq
    exact hbacked.of_less rfl (.of_cell (congrArg Cell.issued? hcell) (congrArg Cell.fragments hcell))

end ModelM

namespace Model

/-- Steps that keep shapes, keep no children for a project, and back its fragments. -/
def KeepsListings (project : String) (m m' : Model) : Prop := KeepsShapes m m' ∧ KeepsBacked project m m'

instance : Scene (KeepsListings project) where
  refl m := ⟨Chained.refl m, Chained.refl m⟩
  trans h h' := ⟨Chained.trans h.1 h'.1, Chained.trans h.2 h'.2⟩
  unheld m held folders := ⟨Ground.unheld m held folders, Ground.unheld m held folders⟩
  closes m keep := ⟨Ground.closes m keep, Ground.closes m keep⟩
  touched m other := ⟨Ground.touched m other, Ground.touched m other⟩
  clearRoots m := ⟨Ground.clearRoots m, Ground.clearRoots m⟩
  marked m markers := ⟨Scene.marked m markers, Scene.marked m markers⟩

end Model

namespace ModelM

open Model

instance : Looks Model.Inert (Model.KeepsListings project) where
  loadRaw other m := ⟨Looks.loadRaw (R := KeepsShapes) other m, keepsBacked_loadRaw other m⟩
  resolution other m := ⟨Looks.resolution (R := KeepsShapes) other m, keepsBacked_resolution other m⟩
  holds m held := Ground.unheld m held m.folders
  resembles h hm := (h.1 hm.toBare).toResembles
  stays h hm := (h.2 hm).inert

/-- The fragments of the result that is kept are kept. -/
private theorem storeFragments_issued {c : Cell} (h : c.issued? = some i) (fs : List Fragment) :
    c.storeFragments i fs = { c with fragments := some fs } := by
  have hcurrent : c.isCurrent i := by
    rw [Cell.isCurrent, h]
    exact decide_eq_true rfl
  rw [Cell.storeFragments, if_pos hcurrent]

/-- Keeping the fragments of a result backs them. -/
private theorem backs_storeFragments (hm : m.Inert) {other : String}
    (hissued : (m.cell other).issued? = some i) : m.Backs project (m.setCell other
      ((m.cell other).storeFragments i (m.ownFragments true other i.result.entries))) := by
  rw [storeFragments_issued hissued]
  refine ⟨hm.of_same rfl rfl rfl rfl, rfl, fun _ _ ↦ id, fun hbacked ↦ ?_⟩
  by_cases hq : other = project
  · subst hq
    intro j hj
    rw [cell_setCell, if_pos rfl] at hj
    obtain rfl : i = j := Option.some.inj (hissued.symm.trans hj)
    refine ⟨(hbacked i hissued).1, fun fs hfs f hf hsource ↦ ?_⟩
    rw [cell_setCell, if_pos rfl] at hfs
    obtain rfl := Option.some.inj hfs
    exact (brings_ownFragments hm hf hsource).of_files rfl
  · refine hbacked.of_less rfl (.of_cell ?_ ?_)
    · rw [cell_setCell, if_neg hq]
    · rw [cell_setCell, if_neg hq]

private theorem keepsBacked_fragments (other : String) :
    Action.Moves (KeepsBacked project) (fragments other) := by
  intro m hm
  refine Action.Moves.bind_runOn (R := KeepsBacked project) (keepsBacked_resolution other)
    (fun i m₁ hrun hm₁ ↦ ?_) hm
  obtain ⟨i', m₁', hrun', -, -, hissued, -⟩ :=
    resolution_shapes hm.toBare (projectExists_of_resolution (congrArg Prod.fst hrun))
  obtain ⟨rfl, rfl⟩ : i = i' ∧ m₁ = m₁' := by
    have heq := Prod.mk.inj (hrun.symm.trans hrun')
    exact ⟨Except.ok.inj heq.1, heq.2⟩
  have htouched : KeepsBacked project m₁ (m₁.setCell other (m₁.cell other)) := Ground.touched m₁ other
  have hcell := m₁.cell_touched other other
  have hread : (cell other).run m₁ = (m₁.cell other, m₁.setCell other (m₁.cell other)) := rfl
  rw [Action.bind_runOn, Action.runOn_lift, hread]
  dsimp only
  cases (m₁.cell other).fragments with
  | some fs => exact htouched hm₁
  | none =>
    refine Chained.trans htouched (fun hm ↦ backs_storeFragments hm ?_) hm₁
    exact (congrArg Cell.issued? hcell).trans (issued?_of_loaded hissued)

/-- Asking for the fragments of a project backs those that are kept then. -/
theorem keepsListings_fragments (other : String) :
    Action.Moves (KeepsListings project) (fragments other) := fun m ↦
  ⟨moves_fragments (R := KeepsShapes) Looks.resolution other m, keepsBacked_fragments other m⟩

/-- Looking at a project before it is changed. -/
theorem keepsListings_inspect (other : String) : (inspect other).Moves (KeepsListings project) := by
  refine .bind (moves_flushMarkers _ _ _) fun _ ↦ .bind (Looks.loadRaw other) fun _ ↦
    .bind (Looks.resolution other) fun _ ↦ .bind (moves_cell other) fun c ↦ ?_
  cases c.fragments with
  | some fs => exact .pure _
  | none => exact .bind (keepsListings_fragments other) fun _ ↦ .pure _

private theorem keepsListings_visibleRoots (other : String) :
    Action.Moves (KeepsListings project) (visibleRoots other) := by
  refine moves_visibleRoots Looks.resolution fun m roots ↦ ?_
  have hshapes : KeepsShapes m (m.setCell other { m.cell other with roots }) :=
    CacheFrame.caches m other _ rfl rfl rfl rfl
  refine ⟨hshapes, fun hm ↦ .of_less (hm.of_same rfl rfl rfl rfl) rfl (fun _ _ ↦ id) (.of_cell ?_ ?_)⟩
  · rw [cell_setCell]
    split
    · next hq => exact hq ▸ rfl
    · rfl
  · rw [cell_setCell]
    split
    · next hq => exact hq ▸ rfl
    · rfl

private theorem keepsListings_findContainer (path : Path) (other : String) :
    (findContainer path other).Moves (KeepsListings project) := by
  have hsame : ∀ m : Model, m.Bare → ((findContainer path other).run m).2 = m := by
    intro m hm
    have hnone : m.initializer? path = none := by
      rw [Model.initializer?, hm.initializers]
      cases path.firstSegment? <;> rfl
    rw [findContainer_unmade hm.nesting fun _ ↦ hnone]
  intro m
  refine ⟨fun hm ↦ ?_, fun hm ↦ ?_⟩
  · rw [hsame m hm]
    exact .refl m
  · rw [hsame m hm.toBare]
    exact Chained.refl (R := KeepsBacked project) m hm

/-- Queries keep no children for a project but for its own fragments. -/
theorem keepsListings_query (query : Query) (h : ∀ f, query = .children f → f.project ≠ project) :
    query.steps.Moves (KeepsListings project) := by
  refine moves_queryBy Looks.loadRaw Looks.resolution keepsListings_findContainer query
    (fun other _ ↦ keepsListings_fragments other) (fun other _ ↦ keepsListings_visibleRoots other)
    fun f hf ↦ moves_fragmentChildren Looks.resolution fun m paths ↦ ⟨?_, fun hm ↦ ?_⟩
  · exact Backdrop.volatile m m.held m.markers m.folders _
  · refine .of_less (hm.of_same rfl rfl rfl rfl) rfl (fun path kept hkept ↦ ?_) (.of_cell rfl rfl)
    rw [Table.find?_insert, if_neg fun heq ↦ h f hf (congrArg Prod.fst heq)] at hkept
    exact hkept

end ModelM

namespace Model

/-! ### Children that are right -/

/-- Whether some paths are the children of the folder of a source entry that it does not exclude, in ascending
order and apart from project files. -/
def Lists (m : Model) (e : Entry) (paths : List Path) : Prop :=
  ∃ members, m.workspace.children e.path = .ok members ∧
    withoutProjectFiles paths = withoutProjectFiles (Path.sort (members.filter fun child ↦
      !e.isExcluded child (m.workspace.isContainer child)))

theorem Lists.of_files {paths : List Path} (h : m.Lists e paths)
    (hfiles : m'.workspace.files = m.workspace.files) : m'.Lists e paths := by
  obtain ⟨members, hmembers, hpaths⟩ := h
  refine ⟨members, (Workspace.children_of_files hfiles _).trans hmembers, hpaths.trans ?_⟩
  simp only [Workspace.isContainer_of_files hfiles]

/-- Whether the children that are kept for a script project are right for entries of some shapes. Its raw
buildpath is known if any are kept. -/
structure Serves (m : Model) (project : String) (ls : List Entry) : Prop where
  inert : m.Inert
  listed : project ∈ m.workspace.scriptProjects
  isThere : m.workspace.projectExists project
  backed : m.Backed project
  known : ∀ path paths, m.children.find? (project, path) = some paths → (m.cell project).raw.isSome
  lists : ∀ path paths, m.children.find? (project, path) = some paths →
    ∀ e ∈ ls, e.kind = .source → e.path = path → m.Lists e paths

/-- Whether the children that are kept for a script project are right for what it is resolved to. -/
def Coherent (m : Model) (project : String) : Prop := m.Serves project (m.shapesOf project)

theorem Serves.of_backs {ls : List Entry} (h : m.Serves project ls) (hbacks : m.Backs project m')
    (hknown : (m.cell project).raw.isSome → (m'.cell project).raw.isSome) : m'.Serves project ls :=
  ⟨hbacks.inert, Workspace.scriptProjects_of_files hbacks.files ▸ h.listed,
    (Workspace.projectExists_of_files hbacks.files project).trans h.isThere, hbacks.backed h.backed,
    fun path paths hkept ↦ hknown (h.known path paths (hbacks.children path paths hkept)),
    fun path paths hkept e he hkind hpath ↦
      (h.lists path paths (hbacks.children path paths hkept) e he hkind hpath).of_files hbacks.files⟩

theorem isSome_raw (h : ∀ raw, (m.cell project).raw = some raw → (m'.cell project).raw = some raw)
    (hraw : (m.cell project).raw.isSome) : (m'.cell project).raw.isSome := by
  obtain ⟨raw, hraw⟩ := Option.isSome_iff_exists.mp hraw
  exact Option.isSome_iff_exists.mpr ⟨raw, h raw hraw⟩

theorem Coherent.of_listings (h : m.Coherent project) (hsteps : KeepsListings project m m') :
    m'.Coherent project := by
  have hrereads := hsteps.1 h.inert.toBare
  rw [Coherent, hrereads.shapesOf]
  exact h.of_backs (hsteps.2 h.inert) (isSome_raw (hrereads.known project))

/-- Keeping children that are right for what a project is resolved to. -/
theorem Coherent.insert (h : m.Coherent project) {path : Path} {paths : List Path}
    (hknown : (m.cell project).raw.isSome)
    (hlists : ∀ e ∈ m.shapesOf project, e.kind = .source → e.path = path → m.Lists e paths) :
    ({ m with children := m.children.insert (project, path) paths } : Model).Coherent project := by
  have hrereads := (Backdrop.volatile m m.held m.markers m.folders
    (m.children.insert (project, path) paths) : KeepsShapes _ _) h.inert.toBare
  rw [Coherent, hrereads.shapesOf]
  refine ⟨h.inert.of_same rfl rfl rfl rfl, h.listed, h.isThere, h.backed.of_less rfl (.of_cell rfl rfl),
    fun other kept hkept ↦ ?_, fun other kept hkept e he hkind hpath ↦ ?_⟩
  all_goals
    rw [Table.find?_insert] at hkept
    split at hkept
  · exact hknown
  · exact h.known other kept hkept
  · next heq =>
    obtain rfl := Option.some.inj hkept
    exact (hlists e he hkind (hpath.trans (congrArg Prod.snd heq).symm)).of_files rfl
  · exact (h.lists other kept hkept e he hkind hpath).of_files rfl

/-- Whether a fragment is a source folder, or stands at a path at which its project is known to have no source
entry. -/
def Suits (m : Model) (f : Fragment) : Prop :=
  f.kind ≠ .source → (m.cell f.project).raw.isSome ∧
    ∀ e ∈ m.shapesOf f.project, e.kind = .source → e.path ≠ f.path

end Model

namespace ModelM

open Model

/-- Listing a source folder resolves its project, and leaves out what the entry at its path excludes. -/
private theorem listFragment_runOn {members : List Path} (hkind : f.kind = .source)
    (hmembers : m.workspace.children f.path = .ok members)
    (hrun : (resolution f.project).runOn m = (.ok i, m')) :
    (listFragment f).runOn m = (.ok (Path.sort (match i.result.roots.find? f.path with
      | some e => members.filter fun child ↦ !e.isExcluded child (m'.workspace.isContainer child)
      | none => members)), m') := by
  have hof : m.membersOf f = .ok members := by
    rw [Model.membersOf, hkind]
    exact hmembers
  have hentry : (entryFor f.project f.path).runOn m = (.ok (i.result.roots.find? f.path), m') := by
    rw [entryFor, Action.bind_runOn, hrun]
    rfl
  have hread : (get : Action Model).runOn m = (.ok m, m) := rfl
  have hmembersRun : (access f.path (m.membersOf f)).runOn m = (.ok members, m) := by
    rw [hof]
    rfl
  unfold listFragment
  rw [Action.bind_runOn, hread]
  dsimp only
  rw [Action.bind_runOn, hmembersRun]
  dsimp only
  rw [if_pos hkind, Action.bind_runOn, hentry]
  have hplain : f.kind ≠ .archive := by
    rw [hkind]
    nofun
  simp only [if_neg hplain]
  cases i.result.roots.find? f.path <;> rfl

/-- A fragment has children if they are listed. -/
private theorem exists_members {paths : List Path} (hrun : (listFragment f).runOn m = (.ok paths, m')) :
    ∃ members, m.membersOf f = .ok members := by
  obtain ⟨m₁, m₂, hread, hrun⟩ := Action.bind_eq_ok.mp hrun
  cases hread
  obtain ⟨members, m₂, haccess, -⟩ := Action.bind_eq_ok.mp hrun
  cases hmembers : m.membersOf f with
  | ok members => exact ⟨members, rfl⟩
  | error error =>
    rw [hmembers] at haccess
    cases haccess

/-- The children of a fragment are kept, and they are listed if none are. -/
theorem fragmentChildren_runOn (m : Model) (f : Fragment) : (fragmentChildren f).runOn m =
    match m.children.find? (f.project, f.path) with
    | some paths => (.ok paths, m)
    | none => match (listFragment f).runOn m with
      | (.ok paths, m') =>
        (.ok paths, { m' with children := m'.children.insert (f.project, f.path) paths })
      | (.error failure, m') => (.error failure, m') := by
  have hread : (get : Action Model).runOn m = (.ok m, m) := rfl
  rw [fragmentChildren, Action.bind_runOn, hread]
  dsimp only
  cases m.children.find? (f.project, f.path) with
  | some paths => rfl
  | none =>
    dsimp only
    rw [Action.bind_runOn]
    rcases (listFragment f).runOn m with ⟨failure | paths, m'⟩ <;> rfl

/-- A source folder is listed as the source entries at its path let through. -/
private theorem lists_listFragment {paths : List Path} (h : m'.Coherent f.project) (hm : m.Inert)
    (hexists : m.workspace.projectExists f.project) (hkind : f.kind = .source)
    (hrun : (listFragment f).runOn m = (.ok paths, m')) :
    (m'.cell f.project).raw.isSome ∧
      ∀ e ∈ m'.shapesOf f.project, e.kind = .source → e.path = f.path → m'.Lists e paths := by
  obtain ⟨members, hof⟩ := exists_members hrun
  obtain ⟨i, m₁, hresolution, -, hrereads, hissued, hshapes⟩ := resolution_shapes hm.toBare hexists
  have hmembers : m.workspace.children f.path = .ok members := by
    rw [Model.membersOf, hkind] at hof
    exact hof
  rw [listFragment_runOn hkind hmembers hresolution] at hrun
  obtain ⟨hpaths, rfl⟩ := Prod.mk.inj hrun
  refine ⟨?_, fun e he _ hpath ↦ ⟨members, ?_, ?_⟩⟩
  · rw [issued?_loaded] at hissued
    split at hissued
    · assumption
    · cases hissued
  · rw [hpath, Workspace.children_of_files hrereads.files, hmembers]
  · rw [hrereads.shapesOf, ← hshapes] at he
    obtain ⟨entry, hentry, rfl⟩ := List.mem_map.mp he
    have hkeyed := (h.backed i (issued?_of_loaded hissued)).1
    have hroot : i.result.roots.find? f.path = some entry := hpath ▸ hkeyed.entry entry hentry
    rw [hroot] at hpaths
    rw [← Except.ok.inj hpaths]
    rfl

/-- What is kept for a project is right once the children of one of its fragments were asked for. -/
theorem coherent_fragmentChildren (h : m.Coherent f.project) (hsuits : m.Suits f) :
    ((fragmentChildren f).runOn m).2.Coherent f.project := by
  rw [fragmentChildren_runOn]
  cases m.children.find? (f.project, f.path) with
  | some paths => exact h
  | none =>
    have hsteps : KeepsListings f.project m ((listFragment f).runOn m).2 :=
      moves_listFragment Looks.resolution f m
    have hrereads := hsteps.1 h.inert.toBare
    have h' := h.of_listings hsteps
    dsimp only
    rcases hrun : (listFragment f).runOn m with ⟨failure | paths, m'⟩
    · rw [hrun] at h'
      exact h'
    · rw [hrun] at h' hrereads
      by_cases hkind : f.kind = .source
      · obtain ⟨hknown, hlists⟩ := lists_listFragment h' h.inert h.isThere hkind hrun
        exact h'.insert hknown hlists
      · obtain ⟨hknown, hnone⟩ := hsuits hkind
        refine h'.insert (isSome_raw (hrereads.known _) hknown) fun e he hsource hpath ↦ ?_
        rw [hrereads.shapesOf] at he
        exact absurd hpath (hnone e he hsource)

/-- The fragments that are told of a project are kept with its result. -/
private theorem fragments_kept (hm : m.Bare) (hexists : m.workspace.projectExists project) :
    ∃ fs m' i, (fragments project).runOn m = (.ok fs, m') ∧ (m'.cell project).issued? = some i ∧
      (m'.cell project).fragments = some fs ∧ shapes i.result.entries = m.shapesOf project := by
  obtain ⟨i, m₁, hrun, -, -, hloaded, hshapes⟩ := resolution_shapes hm hexists
  have hissued := issued?_of_loaded hloaded
  have hcell := m₁.cell_touched project project
  have hread : (cell project).run m₁ = (m₁.cell project, m₁.setCell project (m₁.cell project)) := rfl
  rw [fragments, Action.bind_runOn, hrun]
  dsimp only
  rw [Action.bind_runOn, Action.runOn_lift, hread]
  dsimp only
  cases hfs : (m₁.cell project).fragments with
  | some fs =>
    exact ⟨fs, _, i, rfl, (congrArg Cell.issued? hcell).trans hissued,
      (congrArg Cell.fragments hcell).trans hfs, hshapes⟩
  | none =>
    let m₂ := m₁.setCell project (m₁.cell project)
    let own := m₂.ownFragments true project i.result.entries
    have hstored : ((m₂.setCell project ((m₂.cell project).storeFragments i own)).cell project) =
        { m₁.cell project with fragments := some own } := by
      rw [cell_setCell, if_pos rfl, hcell, storeFragments_issued hissued]
    exact ⟨own, _, i, rfl, (congrArg Cell.issued? hstored).trans hissued,
      congrArg Cell.fragments hstored, hshapes⟩

/-- The children of a source folder are told, and they are right for the source entries at its path. -/
private theorem exists_children_of_source (h : m.Coherent f.project) (hkind : f.kind = .source)
    (hthere : m.workspace.isContainer f.path) :
    ∃ paths, ((fragmentChildren f).runOn m).1 = .ok paths ∧
      ∀ e ∈ m.shapesOf f.project, e.kind = .source → e.path = f.path → m.Lists e paths := by
  rw [fragmentChildren_runOn]
  cases hkept : m.children.find? (f.project, f.path) with
  | some paths => exact ⟨paths, rfl, h.lists f.path paths hkept⟩
  | none =>
    obtain ⟨members, hmembers⟩ := Workspace.exists_children hthere
    obtain ⟨i, m', hresolution, -, -, -, -⟩ := resolution_shapes h.inert.toBare h.isThere
    have hsteps : KeepsListings f.project m ((listFragment f).runOn m).2 :=
      moves_listFragment Looks.resolution f m
    have hrun := listFragment_runOn hkind hmembers hresolution
    rw [hrun] at hsteps ⊢
    have hrereads := hsteps.1 h.inert.toBare
    refine ⟨_, rfl, fun e he hsource hpath ↦ ?_⟩
    have hlists := (lists_listFragment (h.of_listings hsteps) h.inert h.isThere hkind hrun).2 e
    rw [hrereads.shapesOf] at hlists
    exact (hlists he hsource hpath).of_files hrereads.files.symm

/-- The children of a source folder that is told of a project are those in its folder that the entry at its
path does not exclude. -/
theorem coherent_answers (h : m.Coherent project) :
    ∃ fs m', (fragments project).runOn m = (.ok fs, m') ∧ ∀ f ∈ fs, f.kind = .source →
      ∃ e paths, ((entryFor project f.path).runOn m').1 = .ok (some e) ∧ e.path = f.path ∧
        ((fragmentChildren f).runOn m').1 = .ok paths ∧ m'.Lists e paths := by
  obtain ⟨fs, m', i, hrun, hissued, hkept, hshapes⟩ := fragments_kept h.inert.toBare h.isThere
  have hsteps : KeepsListings project m ((fragments project).runOn m).2 := keepsListings_fragments project m
  have h' := h.of_listings hsteps
  have hrereads := hsteps.1 h.inert.toBare
  rw [hrun] at h' hrereads
  refine ⟨fs, m', hrun, fun f hf hkind ↦ ?_⟩
  obtain ⟨rfl, hthere, e, he, hsource, hpath⟩ := (h'.backed i hissued).2 fs hkept f hf hkind
  -- the entry is found anew among those of the result that is current now
  obtain ⟨j, m'', hrun', -, hrereads', hloaded, hshapes'⟩ := resolution_shapes h'.inert.toBare h'.isThere
  have hcurrent : shapes j.result.entries = shapes i.result.entries := by
    rw [hshapes', hrereads.shapesOf, hshapes]
  have hshape : e.shape ∈ shapes j.result.entries := hcurrent ▸ List.mem_map_of_mem he
  obtain ⟨e', he', hsame⟩ := List.mem_map.mp hshape
  have hkind' : e'.kind = .source := (congrArg Entry.kind hsame).trans hsource
  have hpath' : e'.path = f.path := (congrArg Entry.path hsame).trans hpath
  have hresolved : KeepsListings f.project m' ((resolution f.project).runOn m').2 :=
    Looks.resolution f.project m'
  have h'' := h'.of_listings hresolved
  rw [hrun'] at h''
  have hkeyed := (h''.backed j (issued?_of_loaded hloaded)).1
  obtain ⟨paths, hpaths, hlists⟩ := exists_children_of_source h' hkind hthere
  refine ⟨e', paths, ?_, hpath', hpaths, hlists e'.shape ?_ hkind' hpath'⟩
  · rw [entryFor, Action.bind_runOn, hrun', ← hpath']
    exact congrArg Except.ok (hkeyed.entry e' he')
  · rw [← hshapes']
    exact List.mem_map_of_mem he'

end ModelM

end Buildpath
