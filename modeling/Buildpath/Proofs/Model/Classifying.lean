import Buildpath.Proofs.Model.Deltas
import Mathlib.Data.Set.Basic

/-!
# How deltas classify changes

A delta tells exactly how two resolved buildpaths differ by the identities of their entries
(`classifies_generateDelta`). The summary says whether the libraries and whether the projects differ. There
is one child for each path that something happened at: a fragment lost its entry, got one, or stands at
another index. Entries with distinct paths can share an identity, since the text of a path does not tell it;
an entry is then compared with the first of its identity.
-/

namespace Buildpath

variable {m m' : Model} {project : String} {known : List Fragment} {old new es : List Entry} {e : Entry}
  {path : Path} {checks : Bool}

/-! ### What differs -/

/-- The identities of the entries of a kind. -/
def rootIdsOf (kind : EntryKind) (es : List Entry) : Set String :=
  { id | ∃ e ∈ es, e.kind = kind ∧ e.rootId = id }

namespace Entry

/-- Whether an entry is a root of a project, be it there or not: a library, or a source folder inside the
project. -/
def IsRootOf (project : String) (e : Entry) : Prop :=
  e.kind = .source ∧ (projectPath project).isPrefixOf e.path ∨ e.kind = .library

theorem IsRootOf.isIndexed (h : e.IsRootOf project) : e.IsIndexed := h.imp_left And.left

/-- Whether the first entry of the identity of an entry differs by its export flag. -/
def ChangesExport (new : List Entry) (e : Entry) : Prop :=
  ∃ n, new.find? (·.rootId = e.rootId) = some n ∧ n.exported ≠ e.exported

end Entry

/-- Whether a root at a path has no match in a new buildpath. -/
def Loses (project : String) (old new : List Entry) (path : Path) : Prop :=
  ∃ o ∈ old, o.path = path ∧ o.IsRootOf project ∧ o.Unmatched new

namespace Model

/-- Whether an entry is a source folder or a library whose fragment is there. -/
def IsThere (m : Model) (project : String) (e : Entry) : Prop :=
  e.IsIndexed ∧ (m.fragment? true project e).isSome

/-- Whether a root at a path is there that has no match in an old buildpath. -/
def Gains (m : Model) (project : String) (old new : List Entry) (path : Path) : Prop :=
  ∃ n ∈ new, n.path = path ∧ m.IsThere project n ∧ n.Unmatched old

/-- Whether a root at a path is there whose identity occurs first at another index in a new buildpath. -/
def Shifts (m : Model) (project : String) (old new : List Entry) (path : Path) : Prop :=
  ∃ o i, old[i]? = some o ∧ o.path = path ∧ m.IsThere project o ∧
    ∃ j, firstIndex? new o.rootId = some j ∧ j ≠ i

/-- Whether a delta tells how the entries of a project differ: by libraries, by projects or their export
flags, and by the roots that come, go or stand elsewhere, with one child for each of their paths. -/
structure Classifies (m : Model) (project : String) (old new : List Entry) (g : GeneratedDelta) :
    Prop where
  libraries : g.flags.hasLibraryChange ↔ rootIdsOf .library old ≠ rootIdsOf .library new
  projects : g.flags.hasProjectChange ↔ rootIdsOf .project old ≠ rootIdsOf .project new ∨
    ∃ o ∈ old, o.kind = .project ∧ o.ChangesExport new
  isOwn : ∀ c ∈ g.delta.children, c.fragment.project = project
  paths : (g.delta.children.map fun c ↦ c.fragment.path).Nodup
  children : ∀ path, (∃ c ∈ g.delta.children, c.fragment.path = path) ↔
    Loses project old new path ∨ m.Gains project old new path ∨ m.Shifts project old new path
  removed : ∀ c ∈ g.delta.children, c.flags.removed ↔ Loses project old new c.fragment.path
  added : ∀ c ∈ g.delta.children, c.flags.added ↔ m.Gains project old new c.fragment.path
  reordered : ∀ c ∈ g.delta.children, c.flags.reordered ↔ m.Shifts project old new c.fragment.path

end Model

/-- Identities of a kind that they tell differ if an entry of the kind has no match. -/
theorem rootIdsOf_ne {kind : EntryKind}
    (hkind : ∀ {e e' : Entry}, e.rootId = e'.rootId → e'.kind = kind → e.kind = kind) :
    rootIdsOf kind old ≠ rootIdsOf kind new ↔
      (∃ o ∈ old, o.kind = kind ∧ o.Unmatched new) ∨ ∃ n ∈ new, n.kind = kind ∧ n.Unmatched old := by
  have hsubset : ∀ es es' : List Entry, rootIdsOf kind es ⊆ rootIdsOf kind es' ↔
      ¬ ∃ e ∈ es, e.kind = kind ∧ e.Unmatched es' := by
    intro es es'
    constructor
    · rintro h ⟨e, he, hk, hunmatched⟩
      obtain ⟨e', he', -, hid⟩ := h ⟨e, he, hk, rfl⟩
      exact hunmatched e' he' hid
    · rintro h _ ⟨e, he, hk, rfl⟩
      by_contra hnot
      exact h ⟨e, he, hk, fun e' he' hid ↦ hnot ⟨e', he', hkind hid hk, hid⟩⟩
  rw [Ne, Set.Subset.antisymm_iff, hsubset, hsubset, ← not_or, Classical.not_not]

theorem rootIdsOf_library_ne : rootIdsOf .library old ≠ rootIdsOf .library new ↔
    (∃ o ∈ old, o.kind = .library ∧ o.Unmatched new) ∨ ∃ n ∈ new, n.kind = .library ∧ n.Unmatched old :=
  rootIdsOf_ne fun hid he ↦ (Entry.kind_eq_of_rootId hid (.inr he)).trans he

theorem rootIdsOf_project_ne : rootIdsOf .project old ≠ rootIdsOf .project new ↔
    (∃ o ∈ old, o.kind = .project ∧ o.Unmatched new) ∨ ∃ n ∈ new, n.kind = .project ∧ n.Unmatched old :=
  rootIdsOf_ne Entry.kind_eq_project_of_rootId

/-- The entry at the first index of an identity is the first entry of that identity. -/
theorem getElem?_firstIndex? {rootId : String} {index : Nat} (h : firstIndex? es rootId = some index) :
    es[index]? = es.find? (·.rootId = rootId) := by
  obtain ⟨hlt, hhere, hbefore⟩ := List.findIdx?_eq_some_iff_getElem.mp h
  rw [List.getElem?_eq_getElem hlt, eq_comm, List.find?_eq_some_iff_getElem]
  exact ⟨hhere, index, hlt, rfl, fun j hj ↦ by simpa using hbefore j hj⟩

/-! ### The summary -/

/-- Whether a change of libraries and one of projects were noted between two stages of comparing. -/
structure GeneratedDelta.Notes (libraries projects : Prop) (g g' : GeneratedDelta) : Prop where
  libraries : g'.flags.hasLibraryChange ↔ g.flags.hasLibraryChange ∨ libraries
  projects : g'.flags.hasProjectChange ↔ g.flags.hasProjectChange ∨ projects

namespace GeneratedDelta.Notes

variable {g g' g'' : GeneratedDelta} {libraries libraries' projects projects' : Prop}

theorem nothing (g : GeneratedDelta) (hl : ¬ libraries) (hp : ¬ projects) :
    Notes libraries projects g g :=
  ⟨(or_iff_left hl).symm, (or_iff_left hp).symm⟩

theorem projectChange (g : GeneratedDelta) (hl : ¬ libraries) (hp : projects) :
    Notes libraries projects g g.noteProjectChange :=
  ⟨(or_iff_left hl).symm, iff_of_true rfl (.inr hp)⟩

theorem trans (h : Notes libraries projects g g') (h' : Notes libraries' projects' g' g'') :
    Notes (libraries ∨ libraries') (projects ∨ projects') g g'' :=
  ⟨by rw [h'.libraries, h.libraries, or_assoc], by rw [h'.projects, h.projects, or_assoc]⟩

/-- Recording fragments of an entry of some kind notes the kind. -/
theorem record (g : GeneratedDelta) (entryKind : EntryKind) (kind : DeltaKind) (flags : DeltaFlags)
    (fragments : List Fragment) : Notes (entryKind = .library) (entryKind = .project) g
      ((g.noteKind entryKind).record kind flags fragments) := by
  cases entryKind <;> constructor <;> simp [GeneratedDelta.record, noteKind, noteProjectChange]

theorem congr (h : Notes libraries projects g g') (hl : libraries ↔ libraries')
    (hp : projects ↔ projects') : Notes libraries' projects' g g' :=
  ⟨h.libraries.trans (or_congr_right hl), h.projects.trans (or_congr_right hp)⟩

end GeneratedDelta.Notes

namespace ModelM

open GeneratedDelta (Notes)

/-- Comparing an old entry notes a library without a match, and a project without a match or with another
export flag. -/
private theorem notes_compareOld (known : List Fragment) (new : List Entry) (g : GeneratedDelta)
    (index : Nat) (old : Entry) (m : Model) :
    Notes (old.kind = .library ∧ old.Unmatched new)
      (old.kind = .project ∧ (old.Unmatched new ∨ old.ChangesExport new)) g
      ((compareOld known new g index old).run m).1 := by
  rw [compareOld_run, ← isNone_firstIndex?]
  cases hfirst : firstIndex? new old.rootId with
  | none =>
    dsimp only
    split
    · next hkind => exact .projectChange g (by simp [hkind]) (by simp [hkind])
    · next hkind => exact (Notes.record g old.kind _ _ _).congr (by simp) (by simp [hkind])
  | some newIndex =>
    have hmatch := getElem?_firstIndex? hfirst
    dsimp only
    split
    · next hkind =>
      change Notes _ _ g (if _ then g else g.noteProjectChange)
      have hexport : new[newIndex]?.all (fun e ↦ e.exported = old.exported) ↔ ¬ old.ChangesExport new := by
        rw [hmatch, Entry.ChangesExport, Option.all_eq_true]
        simp
      split
      · next hsame => exact .nothing g (by simp) (by simp [hexport.mp hsame])
      · next hdiffers =>
        refine .projectChange g (by simp) ⟨hkind, .inr ?_⟩
        exact Classical.not_not.mp fun hnot ↦ hdiffers (hexport.mpr hnot)
    · next hkind =>
      split
      · exact .nothing g (by simp) (by simp [hkind])
      · exact (Notes.record g .source _ _ _).congr (by simp) (by simp [hkind])

/-- Comparing a new entry notes a library or a project without a match. -/
private theorem notes_compareNew (m : Model) (old : List Entry) (g : GeneratedDelta) (new : Entry) :
    Notes (new.kind = .library ∧ new.Unmatched old) (new.kind = .project ∧ new.Unmatched old) g
      (compareNew m old g new) := by
  unfold compareNew
  rw [← isNone_firstIndex?]
  cases firstIndex? old new.rootId with
  | some index => exact .nothing g (by simp) (by simp)
  | none =>
    rw [if_neg (by simp)]
    split
    · next hkind => exact .projectChange g (by simp [hkind]) (by simp [hkind])
    · exact (Notes.record g new.kind _ _ _).congr (by simp) (by simp)

private theorem notes_foldlM {α : Type} {f : GeneratedDelta → α → ModelM GeneratedDelta} {L P : α → Prop}
    (h : ∀ g a m, Notes (L a) (P a) g ((f g a).run m).1) (as : List α) (g : GeneratedDelta) (m : Model) :
    Notes (∃ a ∈ as, L a) (∃ a ∈ as, P a) g ((as.foldlM f g).run m).1 := by
  induction as generalizing g m with
  | nil => exact .nothing g (by simp) (by simp)
  | cons a as ih =>
    rw [List.foldlM_cons]
    exact ((h g a m).trans (ih _ _)).congr (by simp) (by simp)

private theorem notes_foldl {α : Type} {f : GeneratedDelta → α → GeneratedDelta} {L P : α → Prop}
    (h : ∀ g a, Notes (L a) (P a) g (f g a)) (as : List α) (g : GeneratedDelta) :
    Notes (∃ a ∈ as, L a) (∃ a ∈ as, P a) g (as.foldl f g) := by
  induction as generalizing g with
  | nil => exact .nothing g (by simp) (by simp)
  | cons a as ih => exact ((h g a).trans (ih _)).congr (by simp) (by simp)

/-- Comparing resolved buildpaths notes how their libraries and their projects differ. -/
theorem notes_compareResolved (known : List Fragment) (old new : List Entry) (g : GeneratedDelta)
    (m : Model) :
    Notes (rootIdsOf .library old ≠ rootIdsOf .library new)
      (rootIdsOf .project old ≠ rootIdsOf .project new ∨ ∃ o ∈ old, o.kind = .project ∧ o.ChangesExport new)
      g ((compareResolved known old new g).run m).1 := by
  let compared := (old.zipIdx.foldlM (fun g item ↦ compareOld known new g item.2 item.1) g).run m
  have hold := notes_foldlM (fun g (item : Entry × Nat) ↦ notes_compareOld known new g item.2 item.1)
    old.zipIdx g m
  have hnew := notes_foldl (notes_compareNew compared.2 old) new compared.1
  have hitems : ∀ P : Entry → Prop, (∃ item ∈ old.zipIdx, P item.1) ↔ ∃ o ∈ old, P o := by
    intro P
    constructor
    · rintro ⟨item, hitem, h⟩
      exact ⟨item.1, List.fst_mem_of_mem_zipIdx hitem, h⟩
    · rintro ⟨o, ho, h⟩
      obtain ⟨index, hindex⟩ := List.mem_iff_getElem?.mp ho
      exact ⟨(o, index), List.mk_mem_zipIdx_iff_getElem?.mpr hindex, h⟩
  refine (hold.trans hnew).congr ?_ ?_
  · rw [hitems fun o ↦ o.kind = .library ∧ o.Unmatched new, rootIdsOf_library_ne]
  · rw [hitems fun o ↦ o.kind = .project ∧ (o.Unmatched new ∨ o.ChangesExport new), rootIdsOf_project_ne]
    simp only [and_or_left, exists_or]
    exact or_right_comm

end ModelM

/-! ### The children -/

namespace Model

/-- The fragment of a root, if nobody asks whether it is there. -/
theorem isSome_fragment?_unchecked (hf : m.factories = .empty) :
    (m.fragment? false project e).isSome ↔ e.IsRootOf project := by
  unfold fragment? Entry.IsRootOf
  cases e.kind with
  | source =>
    unfold sourceFragment?
    by_cases hinside : (projectPath project).isPrefixOf e.path <;> simp [hinside]
  | library =>
    have hlibrary : (m.libraryKind? false project e).isSome := by
      unfold libraryKind?
      split <;> try rfl
      split <;> rfl
    dsimp only
    rw [libraryFragment?, factoryFragment?_eq_none hf]
    dsimp only
    split <;> simp [hlibrary]
  | project | variableRef | container => simp

/-- Whether fragments that were handed over are those of an old buildpath, or none at all. -/
def Known (m : Model) (project : String) (old : List Entry) (known : List Fragment) : Prop :=
  known = [] ∨ known = m.ownFragments true project old

theorem Known.isOwn (h : m.Known project old known) (hf : m.factories = .empty) :
    ∀ f ∈ known, f.project = project := by
  intro f hmem
  rcases h with rfl | rfl
  · cases hmem
  · obtain ⟨e, -, hfragment⟩ := exists_of_mem_ownFragments hmem
    exact (fragment?_eq_some hf hfragment).2.2

/-- An entry of an old buildpath loses a fragment exactly if it is a root. -/
theorem Known.exists_removed (h : m.Known project old known) (hf : m.factories = .empty)
    (hpaths : (old.map Entry.path).Nodup) (he : e ∈ old) :
    (∃ f ∈ m.removedFragments project known e, f.path = path) ↔ e.path = path ∧ e.IsRootOf project := by
  have hpath : ∀ f ∈ m.removedFragments project known e, f.path = e.path := fun f hmem ↦
    (mem_removedFragments hf (h.isOwn hf) hmem).1
  have hsome : (∃ f, f ∈ m.removedFragments project known e) ↔ e.IsRootOf project := by
    unfold removedFragments
    split
    · next f hfind =>
      refine iff_of_true ⟨f, List.mem_singleton_self f⟩ ?_
      have hmem : f ∈ known := List.mem_reverse.mp (List.mem_of_find?_eq_some hfind)
      have hplace : f.path = e.path := by simpa using List.find?_some hfind
      rcases h with rfl | rfl
      · cases hmem
      · -- a fragment that is there belongs to the one entry at its path
        obtain ⟨o, ho, hfragment⟩ := exists_of_mem_ownFragments hmem
        obtain rfl : o = e := List.inj_on_of_nodup_map hpaths ho he
          ((fragment?_eq_some hf hfragment).2.1.symm.trans hplace)
        rw [← isSome_fragment?_unchecked hf]
        obtain ⟨f', hf'⟩ := fragment?_unchecked hf hfragment
        exact Option.isSome_of_eq_some hf'
    · rw [← isSome_fragment?_unchecked hf, ownFragments_singleton hf]
      simp [Option.isSome_iff_exists]
  rw [← hsome]
  constructor
  · rintro ⟨f, hmem, rfl⟩
    exact ⟨(hpath f hmem).symm, f, hmem⟩
  · rintro ⟨rfl, f, hmem⟩
    exact ⟨f, hmem, hpath f hmem⟩

theorem exists_fragment?_iff (hf : m.factories = .empty) :
    (∃ f, m.fragment? true project e = some f ∧ f.path = path) ↔ e.path = path ∧ m.IsThere project e := by
  constructor
  · rintro ⟨f, hfragment, rfl⟩
    obtain ⟨hindexed, hpath, -⟩ := fragment?_eq_some hf hfragment
    exact ⟨hpath.symm, hindexed, Option.isSome_of_eq_some hfragment⟩
  · rintro ⟨rfl, -, hthere⟩
    obtain ⟨f, hfragment⟩ := Option.isSome_iff_exists.mp hthere
    exact ⟨f, hfragment, (fragment?_eq_some hf hfragment).2.1⟩

/-- What there is among the events of a comparison: roots that go, roots that come, and roots that stand
at another index. -/
private theorem exists_mem_events (hf : m.factories = .empty) {P : FragmentDelta → Prop} :
    (∃ event ∈ m.events project known old new, P event) ↔
      (∃ o ∈ old, o.Unmatched new ∧ o.kind ≠ .project ∧
        ∃ f ∈ m.removedFragments project known o, P ⟨f, .removed, { removed := true }⟩) ∨
      (∃ n ∈ new, n.Unmatched old ∧
        ∃ f, m.fragment? true project n = some f ∧ P ⟨f, .added, { added := true }⟩) ∨
      ∃ o i, old[i]? = some o ∧ o.kind ≠ .project ∧ ¬ o.Unmatched new ∧
        firstIndex? new o.rootId ≠ some i ∧
        ∃ f, m.fragment? true project o = some f ∧ P ⟨f, .changed, { reordered := true }⟩ := by
  constructor
  · rintro ⟨event, hmem, hP⟩
    rcases List.mem_append.mp hmem with hmem | hmem
    · obtain ⟨⟨o, i⟩, hitem, hmem⟩ := List.mem_flatMap.mp hmem
      obtain ⟨hkind, ⟨hgone, f, hfragment, rfl⟩ | ⟨hstays, hindex, f, hfragment, rfl⟩⟩ :=
        (mem_oldEvents hf).mp hmem
      · exact .inl ⟨o, List.fst_mem_of_mem_zipIdx hitem, hgone, hkind, f, hfragment, hP⟩
      · exact .inr (.inr ⟨o, i, List.mk_mem_zipIdx_iff_getElem?.mp hitem, hkind, hstays, hindex, f,
          hfragment, hP⟩)
    · obtain ⟨n, hn, hmem⟩ := List.mem_flatMap.mp hmem
      obtain ⟨hcome, f, hfragment, rfl⟩ := (mem_newEvents hf).mp hmem
      exact .inr (.inl ⟨n, hn, hcome, f, hfragment, hP⟩)
  · have hold : ∀ {o i event}, old[i]? = some o → event ∈ m.oldEvents project known new (o, i) →
        event ∈ m.events project known old new := fun hitem hmem ↦
      List.mem_append_left _ (List.mem_flatMap.mpr ⟨_, List.mk_mem_zipIdx_iff_getElem?.mpr hitem, hmem⟩)
    rintro (⟨o, ho, hgone, hkind, f, hfragment, hP⟩ | ⟨n, hn, hcome, f, hfragment, hP⟩ |
      ⟨o, i, hitem, hkind, hstays, hindex, f, hfragment, hP⟩)
    · obtain ⟨i, hitem⟩ := List.mem_iff_getElem?.mp ho
      exact ⟨_, hold hitem ((mem_oldEvents hf).mpr ⟨hkind, .inl ⟨hgone, f, hfragment, rfl⟩⟩), hP⟩
    · exact ⟨_, List.mem_append_right _ (List.mem_flatMap.mpr ⟨n, hn,
        (mem_newEvents hf).mpr ⟨hcome, f, hfragment, rfl⟩⟩), hP⟩
    · exact ⟨_, hold hitem ((mem_oldEvents hf).mpr ⟨hkind, .inr ⟨hstays, hindex, f, hfragment, rfl⟩⟩), hP⟩

/-- Something is removed at the paths where a root goes. -/
private theorem removed_event_iff (hf : m.factories = .empty) (hknown : m.Known project old known)
    (hpaths : (old.map Entry.path).Nodup) :
    (∃ event ∈ m.events project known old new, event.fragment.path = path ∧ event.flags.removed) ↔
      Loses project old new path := by
  rw [exists_mem_events hf, Loses]
  simp only [and_true, Bool.false_eq_true, and_false, exists_const, or_false]
  refine exists_congr fun o ↦ and_congr_right fun ho ↦ ?_
  have hroot : (∃ f ∈ m.removedFragments project known o, f.path = path) ↔ _ :=
    hknown.exists_removed hf hpaths ho
  constructor
  · rintro ⟨hgone, -, hfragment⟩
    obtain ⟨hpath, hroot⟩ := hroot.mp hfragment
    exact ⟨hpath, hroot, hgone⟩
  · rintro ⟨hpath, hisRoot, hgone⟩
    exact ⟨hgone, hisRoot.isIndexed.ne_project, hroot.mpr ⟨hpath, hisRoot⟩⟩

/-- Something is added at the paths where a root comes. -/
private theorem added_event_iff (hf : m.factories = .empty) (known : List Fragment) :
    (∃ event ∈ m.events project known old new, event.fragment.path = path ∧ event.flags.added) ↔
      m.Gains project old new path := by
  rw [exists_mem_events hf, Gains]
  simp only [and_true, Bool.false_eq_true, and_false, exists_const, or_false, false_or]
  refine exists_congr fun n ↦ and_congr_right fun _ ↦ ?_
  rw [exists_fragment?_iff hf, and_comm, and_assoc]

/-- Something is reordered at the paths where a root stands at another index. -/
private theorem reordered_event_iff (hf : m.factories = .empty) (known : List Fragment) :
    (∃ event ∈ m.events project known old new, event.fragment.path = path ∧ event.flags.reordered) ↔
      m.Shifts project old new path := by
  rw [exists_mem_events hf, Shifts]
  simp only [and_true, Bool.false_eq_true, and_false, exists_const, false_or]
  refine exists_congr fun o ↦ exists_congr fun i ↦ and_congr_right fun _ ↦ ?_
  rw [exists_fragment?_iff hf, ← isNone_firstIndex?]
  constructor
  · rintro ⟨-, hstays, hindex, hpath, hthere⟩
    cases hj : firstIndex? new o.rootId with
    | none => exact absurd (by rw [hj]; rfl) hstays
    | some j => exact ⟨hpath, hthere, j, rfl, fun heq ↦ hindex (heq ▸ hj)⟩
  · rintro ⟨hpath, hthere, j, hj, hne⟩
    exact ⟨hthere.1.ne_project, by simp [hj], by simpa [hj] using hne, hpath, hthere⟩

/-- Every event of a comparison removes, adds or reorders something. -/
private theorem flags_of_mem_events (hf : m.factories = .empty) :
    ∀ event ∈ m.events project known old new,
      event.flags.removed ∨ event.flags.added ∨ event.flags.reordered := by
  by_contra hnot
  push Not at hnot
  obtain ⟨event, hmem, hremoved, hadded, hreordered⟩ := hnot
  have hnone := (exists_mem_events hf (P := fun event ↦ ¬ event.flags.removed ∧ ¬ event.flags.added ∧
    ¬ event.flags.reordered)).mp ⟨event, hmem, hremoved, hadded, hreordered⟩
  simp at hnone

end Model

namespace ModelM

open Model

/-- Comparing resolved buildpaths classifies how they differ, where nothing was noted yet. -/
private theorem classifies_compareResolved {g : GeneratedDelta} (hf : m.factories = .empty)
    (hpaths : (old.map Entry.path).Nodup) (hknown : m.Known project old known)
    (hblank : g.IsBlank project) (hterms : m.SameTerms m') :
    m.Classifies project old new ((compareResolved known old new g).run m').1 := by
  have hnotes := notes_compareResolved known old new g m'
  have hrecords := records_compareResolved known old new g m'
  generalize ((compareResolved known old new g).run m').1 = compared at hnotes hrecords
  have hmerges : Delta.Merges project (m.events project known old new) compared.delta.children := by
    rw [hrecords.children, hterms.events, hblank.project, hblank.children]
    exact Delta.merges_mergeAll (project_of_mem_events hf (hknown.isOwn hf))
  refine ⟨?_, ?_, hmerges.projects, hmerges.paths, fun path ↦ ?_, fun c hc ↦ ?_, fun c hc ↦ ?_,
    fun c hc ↦ ?_⟩
  · rw [hnotes.libraries, hblank.library]
    exact or_iff_right Bool.false_ne_true
  · rw [hnotes.projects, hblank.projects]
    exact or_iff_right Bool.false_ne_true
  · rw [← removed_event_iff hf hknown hpaths, ← added_event_iff hf known,
      ← reordered_event_iff hf known]
    simp only [← exists_or, ← and_or_left]
    constructor
    · rintro ⟨c, hc, rfl⟩
      obtain ⟨event, hmem, horigin⟩ := hmerges.origin c hc
      exact ⟨event, hmem, congrArg Fragment.path horigin, flags_of_mem_events hf event hmem⟩
    · rintro ⟨event, hmem, rfl, -⟩
      exact hmerges.complete event hmem
  · rw [hmerges.flags _ DeltaFlags.isFlag_removed c hc, removed_event_iff hf hknown hpaths]
  · rw [hmerges.flags _ DeltaFlags.isFlag_added c hc, added_event_iff hf]
  · rw [hmerges.flags _ DeltaFlags.isFlag_reordered c hc, reordered_event_iff hf]

/-- In every model without fragment factories, if a project was resolved to entries with distinct paths and
is resolved to other entries now, the delta of the change tells exactly how they differ. This holds whether
the fragments before the change are handed over or not. -/
theorem classifies_generateDelta {change : Change} {old new : Issued} (hf : m.factories = .empty)
    (hrun : ((resolution change.project).runOn m).1 = .ok new) (hold : change.resolved = some old)
    (holdPaths : (old.result.entries.map Entry.path).Nodup)
    (hchanged : ¬ sameStructure old.result.entries new.result.entries)
    (hknown : change.fragments = none ∨
      change.fragments = some (m.ownFragments true change.project old.result.entries)) :
    m.Classifies change.project old.result.entries new.result.entries
      ((generateDelta change).run m).1.1 := by
  have hrun' : (resolution change.project).runOn m =
      (.ok new, ((resolution change.project).runOn m).2) := Prod.ext hrun rfl
  obtain ⟨g, m₁, hblank, hterms, hgenerated⟩ := generateDelta_compares hrun' hold hchanged
  have hhanded : m.Known change.project old.result.entries (change.fragments.getD []) := by
    rcases hknown with hnone | hsome
    · exact .inl (by rw [hnone]; rfl)
    · exact .inr (by rw [hsome]; rfl)
  rw [hgenerated]
  exact classifies_compareResolved hf holdPaths hhanded hblank hterms

/-- A project with an archive and two source folders, one in the other. -/
def rearranged : Model :=
  { workspace := withFolder "/p/src"
    followsLibraries := false
    cells := Table.empty.insert "p" { raw := some { entries :=
      [libraryAt "/ext/a.zip" true, .source (.parse "/p/src"), .source (.parse "/p")] } } }

/-- What the project was resolved to before: the same archive and folder in the other order, and a library
that is missing. -/
def beforeRearranging : Issued :=
  ⟨0, { entries := [.source (.parse "/p/src"), libraryAt "/ext/a.zip" true, libraryAt "/p/lib" false] }⟩

/-- The change from there, where the fragments before it are not known. -/
def rearranging : Change := { project := "p", resolved := some beforeRearranging }

/-- A source folder is added, the missing library is removed, and the others change places. -/
theorem classifies_rearranging : ∃ new, ((resolution "p").runOn rearranged).1 = .ok new ∧
    rearranged.Classifies "p" beforeRearranging.result.entries new.result.entries
      ((generateDelta rearranging).run rearranged).1.1 ∧
    ((generateDelta rearranging).run rearranged).1.1.delta.children.map (fun c ↦
        (c.fragment.path, c.flags)) =
      [(.parse "/p/src", { reordered := true }), (.parse "/ext/a.zip", { reordered := true }),
        (.parse "/p/lib", { removed := true }), (.parse "/p", { added := true })] := by
  obtain ⟨new, hrun⟩ := Action.runOn_eq_ok (resolution "p") rearranged (by decide +kernel)
  have hrun : ((resolution rearranging.project).runOn rearranged).1 = .ok new := congrArg Prod.fst hrun
  have hchanged : ((resolution "p").runOn rearranged).1.toOption.map (fun i ↦
      sameStructure beforeRearranging.result.entries i.result.entries) = some false := by decide +kernel
  have hdiffers : ¬ sameStructure beforeRearranging.result.entries new.result.entries := by
    rw [show ((resolution "p").runOn rearranged).1 = .ok new from hrun] at hchanged
    exact Bool.eq_false_iff.mp (Option.some.inj hchanged)
  have hfactories : rearranged.factories = .empty := rfl
  have hold : rearranging.resolved = some beforeRearranging := rfl
  have hpaths : (beforeRearranging.result.entries.map Entry.path).Nodup := by decide +kernel
  have hclassified := classifies_generateDelta hfactories hrun hold hpaths hdiffers (.inl rfl)
  exact ⟨new, hrun, hclassified, by decide +kernel⟩

/-- A project with two entries and an archive. At two paths outside the workspace that have one text there
are further archives. -/
def ambiguous (first second : Entry) : Model :=
  { workspace := .memory ((((Memory.addProject {} "p" (some defaultNature)).addExternalFile
      (.parse "./a:x") .empty).addExternalFile (.parse "a:x") .empty).addExternalFile
      (.parse "/ext/b.zip") .empty)
    followsLibraries := false
    cells := Table.empty.insert "p" { raw := some { entries :=
      [first, second, libraryAt "/ext/b.zip" true] } } }

/-- The change from the two entries alone. -/
def withoutThird (first second : Entry) : Change :=
  { project := "p", resolved := some ⟨0, { entries := [first, second] }⟩ }

/-- An entry is compared with the first one of its identity. So a root whose identity occurs at another index
too is not reported as reordered, and a project whose export flag stays is noted to change. -/
theorem shared_identity_misleads :
    (¬ ∀ (m : Model) (change : Change) (old new : Issued), m.factories = .empty →
      ((resolution change.project).runOn m).1 = .ok new → change.resolved = some old →
      (old.result.entries.map Entry.path).Nodup → (new.result.entries.map Entry.path).Nodup →
      ¬ sameStructure old.result.entries new.result.entries → change.fragments = none →
      ∀ (o n : Entry) (i j : Nat), old.result.entries[i]? = some o → new.result.entries[j]? = some n →
        j ≠ i → n.rootId = o.rootId → m.IsThere change.project o →
        ∃ c ∈ ((generateDelta change).run m).1.1.delta.children, c.fragment.path = o.path ∧
          c.flags.reordered) ∧
    ¬ ∀ (m : Model) (change : Change) (old new : Issued), m.factories = .empty →
      ((resolution change.project).runOn m).1 = .ok new → change.resolved = some old →
      (old.result.entries.map Entry.path).Nodup → (new.result.entries.map Entry.path).Nodup →
      ¬ sameStructure old.result.entries new.result.entries → change.fragments = none →
      ((generateDelta change).run m).1.1.flags.hasProjectChange →
        (∃ e ∈ old.result.entries, e.kind = .project ∧ e.Unmatched new.result.entries) ∨
        (∃ e ∈ new.result.entries, e.kind = .project ∧ e.Unmatched old.result.entries) ∨
        ∃ o ∈ old.result.entries, ∃ n ∈ new.result.entries, o.kind = .project ∧ n.path = o.path ∧
          n.exported ≠ o.exported := by
  have resolved : ∀ first second : Entry,
      ((resolution "p").runOn (ambiguous first second)).1.toOption.map (·.result.entries) =
        some [first, second, libraryAt "/ext/b.zip" true] →
      ∃ new, ((resolution (withoutThird first second).project).runOn (ambiguous first second)).1 = .ok new ∧
        new.result.entries = [first, second, libraryAt "/ext/b.zip" true] := by
    intro first second h
    obtain ⟨new, hnew, hentries⟩ := Option.map_eq_some_iff.mp h
    refine ⟨new, ?_, hentries⟩
    cases hrun : ((resolution "p").runOn (ambiguous first second)).1 with
    | error _ => rw [hrun] at hnew; cases hnew
    | ok found => rw [hrun] at hnew; exact hrun.trans (congrArg Except.ok (Option.some.inj hnew))
  constructor
  · intro hall
    obtain ⟨new, hrun, hentries⟩ := resolved (libraryAt "./a:x" true) (libraryAt "a:x" true)
      (by decide +kernel)
    have hreported := hall _ _ _ new rfl hrun rfl (by decide +kernel) (by rw [hentries]; decide +kernel)
      (by rw [hentries]; decide +kernel) rfl (libraryAt "./a:x" true) (libraryAt "a:x" true) 0 1 rfl
      (by rw [hentries]; rfl) Nat.one_ne_zero (by decide +kernel) ⟨.inr rfl, by decide +kernel⟩
    exact absurd hreported (by decide +kernel)
  · intro hall
    let first : Entry := { Entry.project (.parse "./a:x") with exported := true }
    obtain ⟨new, hrun, hentries⟩ := resolved first (.project (.parse "a:x")) (by decide +kernel)
    have hnoted := hall _ _ _ new rfl hrun rfl (by decide +kernel) (by rw [hentries]; decide +kernel)
      (by rw [hentries]; decide +kernel) rfl (by decide +kernel)
    rw [hentries] at hnoted
    exact absurd hnoted (by decide +kernel)

end ModelM

end Buildpath
