import Buildpath.Proofs.Delta
import Buildpath.Proofs.Model.Fragments

/-!
# What deltas tell of fragments

Comparing what a project was and is resolved to records an event for each entry that has no match, and
for each that stands at another index. The events tell which fragments come and go (`Tells`), so the
delta does, and a listener can follow the fragments of the project (`setRawBuildpath_reports`).
-/

namespace Buildpath

variable {m m' : Model} {project : String} {known : List Fragment} {old new : List Entry}

/-! ### Events -/

namespace Model

/-- What is recorded of an old entry at an index. -/
def oldEvents (m : Model) (project : String) (known : List Fragment) (new : List Entry)
    (item : Entry × Nat) : List FragmentDelta :=
  if item.1.kind = .project then []
  else
    match firstIndex? new item.1.rootId with
    | none => (m.removedFragments project known item.1).map (⟨·, .removed, { removed := true }⟩)
    | some newIndex =>
      if newIndex = item.2 then []
      else (m.ownFragments true project [item.1]).map (⟨·, .changed, { reordered := true }⟩)

/-- What is recorded of a new entry. -/
def newEvents (m : Model) (project : String) (old : List Entry) (e : Entry) : List FragmentDelta :=
  if (firstIndex? old e.rootId).isSome || e.kind = .project then []
  else (m.ownFragments true project [e]).map (⟨·, .added, { added := true }⟩)

/-- What comparing two resolved buildpaths records. -/
def events (m : Model) (project : String) (known : List Fragment) (old new : List Entry) :
    List FragmentDelta :=
  old.zipIdx.flatMap (m.oldEvents project known new) ++ new.flatMap (m.newEvents project old)

theorem SameTerms.removedFragments (h : m.SameTerms m') :
    m'.removedFragments = m.removedFragments := by
  unfold Model.removedFragments
  rw [h.ownFragments]

theorem SameTerms.oldEvents (h : m.SameTerms m') : m'.oldEvents = m.oldEvents := by
  unfold Model.oldEvents
  rw [h.ownFragments, h.removedFragments]

theorem SameTerms.newEvents (h : m.SameTerms m') : m'.newEvents = m.newEvents := by
  unfold Model.newEvents
  rw [h.ownFragments]

theorem SameTerms.events (h : m.SameTerms m') : m'.events = m.events := by
  unfold Model.events
  rw [h.oldEvents, h.newEvents]

end Model

/-- Whether events were recorded between two stages of comparing. -/
structure GeneratedDelta.Records (events : List FragmentDelta) (g g' : GeneratedDelta) : Prop where
  project : g'.project = g.project
  children : g'.delta.children = Delta.mergeAll events g.delta.children

namespace GeneratedDelta.Records

variable {g g' g'' : GeneratedDelta} {events events' : List FragmentDelta}

theorem refl (g : GeneratedDelta) : Records [] g g := ⟨rfl, rfl⟩

theorem trans (h : Records events g g') (h' : Records events' g' g'') :
    Records (events ++ events') g g'' :=
  ⟨h'.project.trans h.project, by rw [h'.children, h.children, Delta.mergeAll_append]⟩

theorem record (g : GeneratedDelta) (entryKind : EntryKind) (kind : DeltaKind) (flags : DeltaFlags)
    (fragments : List Fragment) :
    Records (fragments.map (⟨·, kind, flags⟩)) g ((g.noteKind entryKind).record kind flags fragments) := by
  have hnoted : (g.noteKind entryKind).project = g.project ∧
      (g.noteKind entryKind).delta = g.delta := by
    cases entryKind <;> exact ⟨rfl, rfl⟩
  refine ⟨hnoted.1, ?_⟩
  rw [GeneratedDelta.record, Delta.children_foldl_record, hnoted.2]

end GeneratedDelta.Records

/-- Whether nothing was noted of the resolved entries of a project yet. -/
structure GeneratedDelta.IsBlank (project : String) (g : GeneratedDelta) : Prop where
  project : g.project = project
  children : g.delta.children = []
  library : g.flags.hasLibraryChange = false
  projects : g.flags.hasProjectChange = false

namespace ModelM

open GeneratedDelta (Records)

/-- Comparing an old entry records its events. -/
private theorem records_compareOld (known : List Fragment) (new : List Entry) (g : GeneratedDelta)
    (index : Nat) (old : Entry) (m : Model) :
    Records (m.oldEvents g.project known new (old, index)) g
      ((compareOld known new g index old).run m).1 := by
  rw [compareOld_run]
  unfold Model.oldEvents
  cases firstIndex? new old.rootId with
  | none =>
    dsimp only
    split
    · exact ⟨rfl, rfl⟩
    · exact .record g old.kind _ _ _
  | some newIndex =>
    dsimp only
    split
    · change Records _ g (if _ then g else g.noteProjectChange)
      split <;> exact ⟨rfl, rfl⟩
    · split
      · exact .refl g
      · exact .record g .source _ _ _

/-- Comparing a new entry records its events. -/
private theorem records_compareNew (m : Model) (old : List Entry) (g : GeneratedDelta) (new : Entry) :
    Records (m.newEvents g.project old new) g (compareNew m old g new) := by
  unfold compareNew Model.newEvents
  by_cases hmatched : (firstIndex? old new.rootId).isSome
  · rw [if_pos hmatched, hmatched]
    exact .refl g
  · rw [if_neg hmatched]
    by_cases hproject : new.kind = .project
    · rw [if_pos hproject, if_pos (by simp [hproject])]
      exact ⟨rfl, rfl⟩
    · rw [if_neg hproject, if_neg (by simp [hmatched, hproject])]
      exact .record g new.kind _ _ _

/-- Comparing resolved buildpaths records the events of their entries. -/
theorem records_compareResolved (known : List Fragment) (old new : List Entry) (g : GeneratedDelta)
    (m : Model) :
    Records (m.events g.project known old new) g ((compareResolved known old new g).run m).1 := by
  have hnew : ∀ (es : List Entry) (m₁ : Model) (g : GeneratedDelta), m.SameTerms m₁ →
      Records (es.flatMap (m.newEvents g.project old)) g (es.foldl (compareNew m₁ old) g) := by
    intro es
    induction es with
    | nil => exact fun m₁ g _ ↦ .refl g
    | cons e es ih =>
      intro m₁ g hterms
      have hfirst := records_compareNew m₁ old g e
      have hrest := ih m₁ (compareNew m₁ old g e) hterms
      rw [hterms.newEvents] at hfirst
      rw [hfirst.project] at hrest
      exact hfirst.trans hrest
  have hold : ∀ (items : List (Entry × Nat)) (m₁ : Model) (g : GeneratedDelta), m.SameTerms m₁ →
      Records (items.flatMap (m.oldEvents g.project known new)) g
          ((items.foldlM (fun g item ↦ compareOld known new g item.2 item.1) g).run m₁).1 ∧
        m.SameTerms
          ((items.foldlM (fun g item ↦ compareOld known new g item.2 item.1) g).run m₁).2 := by
    intro items
    induction items with
    | nil => exact fun m₁ g hterms ↦ ⟨.refl g, hterms⟩
    | cons item items ih =>
      intro m₁ g hterms
      have hfirst := records_compareOld known new g item.2 item.1 m₁
      have hterms' : m.SameTerms ((compareOld known new g item.2 item.1).run m₁).2 :=
        Chained.trans hterms (moves_compareOld known new g item.2 item.1 m₁)
      obtain ⟨hrest, hlast⟩ := ih _ ((compareOld known new g item.2 item.1).run m₁).1 hterms'
      rw [hterms.oldEvents] at hfirst
      rw [hfirst.project] at hrest
      exact ⟨hfirst.trans hrest, hlast⟩
  obtain ⟨hfirst, hterms⟩ := hold old.zipIdx m g (Chained.refl m)
  have hrest := hnew new _ ((old.zipIdx.foldlM
    (fun g item ↦ compareOld known new g item.2 item.1) g).run m).1 hterms
  rw [hfirst.project] at hrest
  exact hfirst.trans hrest

/-- Comparing raw buildpaths notes nothing of resolved entries. -/
private theorem isBlank_compareRaws (change : Change) (new : List Entry) {g : GeneratedDelta}
    (h : g.IsBlank project) (m : Model) : ((compareRaws change new g).run m).1.IsBlank project := by
  unfold compareRaws
  cases change.raw with
  | none => exact h
  | some old =>
    dsimp only
    unfold compareRaw
    split
    · exact h
    · exact ⟨h.project, h.children, h.library, h.projects⟩

/-- The steps of comparing a project that can be resolved start from a comparison that noted nothing of
entries yet, in a model that tells fragments in the same terms. -/
private theorem generateDelta_begins {change : Change} {i : Issued}
    (hrun : (resolution change.project).runOn m = (.ok i, m')) :
    ∃ g m₁, g.IsBlank change.project ∧ m.SameTerms m₁ ∧
      ((generateDelta change).run m).1.1 = ((compareOutcomes change i g).run m₁).1 := by
  have hterms : m.SameTerms m' := by
    have hmoves := sameTerms_resolution change.project m
    rwa [show ((resolution change.project).run.run m).2 = m' from congrArg Prod.snd hrun] at hmoves
  let begun : GeneratedDelta :=
    { project := change.project, delta := { project := change.project }
      old := change.resolved, new := some i }
  let compared := (compareRaws change (m'.cell change.project).rawEntries begun).run
    (m'.setCell change.project (m'.cell change.project))
  have hbegun : begun.IsBlank change.project := ⟨rfl, rfl, rfl, rfl⟩
  refine ⟨compared.1, compared.2, isBlank_compareRaws change _ hbegun _, ?_, ?_⟩
  · exact Chained.trans hterms (Chained.trans (OpenFrame.cells m' _ _)
      (moves_compareRaws (fun _ _ _ ↦ ⟨rfl, rfl, rfl⟩) change _ begun _))
  · rw [generateDelta_run hrun]
    rfl

/-- Where a project is resolved to something else than before, the entries are compared, starting from
nothing. -/
theorem generateDelta_compares {change : Change} {old i : Issued}
    (hrun : (resolution change.project).runOn m = (.ok i, m')) (hold : change.resolved = some old)
    (hchanged : ¬ sameStructure old.result.entries i.result.entries) :
    ∃ g m₁, g.IsBlank change.project ∧ m.SameTerms m₁ ∧ ((generateDelta change).run m).1.1 =
      ((compareResolved (change.fragments.getD []) old.result.entries i.result.entries g).run m₁).1 := by
  obtain ⟨g, m₁, hblank, hterms, hgenerated⟩ := generateDelta_begins hrun
  refine ⟨g.addFlags { resolvedChanged := true }, ((closeChildren change.project).run m₁).2.clearRoots,
    ⟨hblank.project, hblank.children, hblank.library, hblank.projects⟩, ?_, ?_⟩
  · exact Chained.trans hterms (Chained.trans (moves_closeChildren change.project m₁)
      (Ground.clearRoots _))
  · rw [hgenerated, compareOutcomes_run hold hchanged]

/-- What is recorded of a project that can be resolved: the events of the entries that it was and is
resolved to, unless these are the same. -/
theorem generateDelta_records {change : Change} {old i : Issued}
    (hrun : (resolution change.project).runOn m = (.ok i, m')) (hold : change.resolved = some old) :
    ∃ m₁, m.SameTerms m₁ ∧ ((generateDelta change).run m).1.1.delta.children =
      if sameStructure old.result.entries i.result.entries then []
      else Delta.mergeAll (m₁.events change.project (change.fragments.getD []) old.result.entries
        i.result.entries) [] := by
  by_cases hsame : sameStructure old.result.entries i.result.entries
  · obtain ⟨g, m₁, hblank, -, hgenerated⟩ := generateDelta_begins hrun
    refine ⟨m, Chained.refl m, ?_⟩
    rw [if_pos hsame, hgenerated, compareOutcomes_same hold hsame]
    exact hblank.children
  · obtain ⟨g, m₁, hblank, hterms, hgenerated⟩ := generateDelta_compares hrun hold hsame
    have hrecords := records_compareResolved (change.fragments.getD []) old.result.entries
      i.result.entries g m₁
    refine ⟨m₁, hterms, ?_⟩
    rw [if_neg hsame, hgenerated, hrecords.children, hblank.project, hblank.children]

end ModelM

/-! ### What events tell -/

/-- Whether events tell what becomes of the fragments of entries: those of old entries without a match are
removed and those of new ones are added. Other events are about entries that stay. -/
structure Tells (fragment? : Entry → Option Fragment) (old new : List Entry)
    (events : List FragmentDelta) : Prop where
  removed : ∀ e ∈ events, e.flags.removed → ∃ o ∈ old, o.Unmatched new ∧ o.path = e.fragment.path
  added : ∀ e ∈ events, e.flags.added → ∃ n ∈ new, n.Unmatched old ∧ fragment? n = some e.fragment
  stays : ∀ e ∈ events, ¬ e.flags.removed → ¬ e.flags.added →
    ∃ o ∈ old, ¬ o.Unmatched new ∧ o.path = e.fragment.path
  removes : ∀ o ∈ old, o.Unmatched new → ∀ f, fragment? o = some f →
    ∃ e ∈ events, e.fragment.path = f.path ∧ e.flags.removed
  adds : ∀ n ∈ new, n.Unmatched old → ∀ f, fragment? n = some f →
    ∃ e ∈ events, e.fragment.path = f.path ∧ e.flags.added

/-- Nothing becomes of the fragments of entries that are structurally the same. -/
theorem Tells.of_sameStructure {fragment? : Entry → Option Fragment} (h : sameStructure old new) :
    Tells fragment? old new [] := by
  have hids := rootIds_of_sameStructure h
  have hnone : ∀ e : FragmentDelta, e ∉ [] := fun _ ↦ List.not_mem_nil
  refine ⟨fun e he ↦ absurd he (hnone e), fun e he ↦ absurd he (hnone e),
    fun e he ↦ absurd he (hnone e), fun o ho hgone ↦ ?_, fun n hn hcome ↦ ?_⟩
  · obtain ⟨n, hn, hid⟩ := List.mem_map.mp (hids ▸ List.mem_map.mpr ⟨o, ho, rfl⟩)
    exact absurd hid (hgone n hn)
  · obtain ⟨o, ho, hid⟩ := List.mem_map.mp (hids.symm ▸ List.mem_map.mpr ⟨n, hn, rfl⟩)
    exact absurd hid (hcome o ho)

namespace Model

theorem mem_removedFragments {e : Entry} {f : Fragment} (hf : m.factories = .empty)
    (hknown : ∀ f ∈ known, f.project = project) (h : f ∈ m.removedFragments project known e) :
    f.path = e.path ∧ f.project = project := by
  unfold removedFragments at h
  split at h
  · next fragment hfind =>
    obtain rfl := List.mem_singleton.mp h
    exact ⟨by simpa using List.find?_some hfind,
      hknown _ (List.mem_reverse.mp (List.mem_of_find?_eq_some hfind))⟩
  · rw [ownFragments_singleton hf, Option.mem_toList] at h
    exact (fragment?_eq_some hf h).2

/-- An old entry that had a fragment loses one at its path. -/
private theorem exists_mem_removedFragments {e : Entry} {f : Fragment} (hf : m.factories = .empty)
    (hknown : ∀ f ∈ known, f.project = project) (h : m.fragment? true project e = some f) :
    ∃ f' ∈ m.removedFragments project known e, f'.path = f.path := by
  obtain ⟨-, hpath, -⟩ := fragment?_eq_some hf h
  obtain ⟨f', hf'⟩ : ∃ f', f' ∈ m.removedFragments project known e := by
    unfold removedFragments
    split
    · exact ⟨_, List.mem_cons_self⟩
    · obtain ⟨f', hf'⟩ := fragment?_unchecked hf h
      rw [ownFragments_singleton hf, hf']
      exact ⟨f', List.mem_cons_self⟩
  exact ⟨f', hf', (mem_removedFragments hf hknown hf').1.trans hpath.symm⟩

theorem mem_oldEvents {e : FragmentDelta} {item : Entry × Nat} (hf : m.factories = .empty) :
    e ∈ m.oldEvents project known new item ↔ item.1.kind ≠ .project ∧
      (item.1.Unmatched new ∧ (∃ f ∈ m.removedFragments project known item.1,
          ⟨f, .removed, { removed := true }⟩ = e) ∨
        ¬ item.1.Unmatched new ∧ firstIndex? new item.1.rootId ≠ some item.2 ∧
          ∃ f, m.fragment? true project item.1 = some f ∧
            ⟨f, .changed, { reordered := true }⟩ = e) := by
  unfold oldEvents
  rw [← isNone_firstIndex?, ownFragments_singleton hf]
  by_cases hkind : item.1.kind = .project
  · simp [hkind]
  · cases firstIndex? new item.1.rootId with
    | none => simp [hkind]
    | some newIndex =>
      by_cases hindex : newIndex = item.2
      · simp [hindex]
      · simp [hkind, hindex]

theorem mem_newEvents {e : FragmentDelta} {n : Entry} (hf : m.factories = .empty) :
    e ∈ m.newEvents project old n ↔ n.Unmatched old ∧
      ∃ f, m.fragment? true project n = some f ∧ ⟨f, .added, { added := true }⟩ = e := by
  unfold newEvents
  rw [← isNone_firstIndex?, ownFragments_singleton hf]
  by_cases hkind : n.kind = .project
  · have hnone : m.fragment? true project n = none := by
      rw [fragment?, hkind]
    simp [hkind, hnone]
  · cases firstIndex? old n.rootId with
    | none => simp [hkind]
    | some _ => simp

/-- The events of a comparison tell what becomes of the fragments. -/
theorem tells_events (hf : m.factories = .empty) (hknown : ∀ f ∈ known, f.project = project) :
    Tells (m.fragment? true project) old new (m.events project known old new) := by
  have hitem : ∀ item ∈ old.zipIdx, item.1 ∈ old := fun item h ↦ List.fst_mem_of_mem_zipIdx h
  refine ⟨fun e he hset ↦ ?_, fun e he hset ↦ ?_, fun e he hremoved hadded ↦ ?_,
    fun o ho hgone f hfragment ↦ ?_, fun n hn hcome f hfragment ↦ ?_⟩
  · rcases List.mem_append.mp he with he | he
    · obtain ⟨item, hmem, he⟩ := List.mem_flatMap.mp he
      obtain ⟨-, ⟨hgone, f, hfragment, rfl⟩ | ⟨-, -, f, -, rfl⟩⟩ := (mem_oldEvents hf).mp he
      · exact ⟨item.1, hitem item hmem, hgone, (mem_removedFragments hf hknown hfragment).1.symm⟩
      · cases hset
    · obtain ⟨n, hn, he⟩ := List.mem_flatMap.mp he
      obtain ⟨-, f, -, rfl⟩ := (mem_newEvents hf).mp he
      cases hset
  · rcases List.mem_append.mp he with he | he
    · obtain ⟨item, hmem, he⟩ := List.mem_flatMap.mp he
      obtain ⟨-, ⟨-, f, -, rfl⟩ | ⟨-, -, f, -, rfl⟩⟩ := (mem_oldEvents hf).mp he <;> cases hset
    · obtain ⟨n, hn, he⟩ := List.mem_flatMap.mp he
      obtain ⟨hcome, f, hfragment, rfl⟩ := (mem_newEvents hf).mp he
      exact ⟨n, hn, hcome, hfragment⟩
  · rcases List.mem_append.mp he with he | he
    · obtain ⟨item, hmem, he⟩ := List.mem_flatMap.mp he
      obtain ⟨-, ⟨-, f, -, rfl⟩ | ⟨hstays, -, f, hfragment, rfl⟩⟩ := (mem_oldEvents hf).mp he
      · exact absurd rfl hremoved
      · exact ⟨item.1, hitem item hmem, hstays, (fragment?_eq_some hf hfragment).2.1.symm⟩
    · obtain ⟨n, hn, he⟩ := List.mem_flatMap.mp he
      obtain ⟨-, f, -, rfl⟩ := (mem_newEvents hf).mp he
      exact absurd rfl hadded
  · obtain ⟨f', hf', hpath⟩ := exists_mem_removedFragments hf hknown hfragment
    obtain ⟨i, hi⟩ : ∃ i, (o, i) ∈ old.zipIdx := by
      obtain ⟨i, hi, rfl⟩ := List.mem_iff_getElem.mp ho
      exact ⟨i, by simp [List.mem_zipIdx_iff_getElem?, hi]⟩
    have hkind : o.kind ≠ .project := by
      rcases (fragment?_eq_some hf hfragment).1 with h | h <;> rw [h] <;> exact nofun
    exact ⟨_, List.mem_append_left _ (List.mem_flatMap.mpr ⟨(o, i), hi,
      (mem_oldEvents hf).mpr ⟨hkind, .inl ⟨hgone, f', hf', rfl⟩⟩⟩), hpath, rfl⟩
  · exact ⟨_, List.mem_append_right _ (List.mem_flatMap.mpr ⟨n, hn,
      (mem_newEvents hf).mpr ⟨hcome, f, hfragment, rfl⟩⟩), rfl, rfl⟩

/-- The events of a comparison happen in the project. -/
theorem project_of_mem_events (hf : m.factories = .empty) (hknown : ∀ f ∈ known, f.project = project) :
    ∀ e ∈ m.events project known old new, e.fragment.project = project := by
  intro e he
  rcases List.mem_append.mp he with he | he
  · obtain ⟨item, -, he⟩ := List.mem_flatMap.mp he
    obtain ⟨-, ⟨-, f, hfragment, rfl⟩ | ⟨-, -, f, hfragment, rfl⟩⟩ := (mem_oldEvents hf).mp he
    · exact (mem_removedFragments hf hknown hfragment).2
    · exact (fragment?_eq_some hf hfragment).2.2
  · obtain ⟨n, -, he⟩ := List.mem_flatMap.mp he
    obtain ⟨-, f, hfragment, rfl⟩ := (mem_newEvents hf).mp he
    exact (fragment?_eq_some hf hfragment).2.2

end Model

/-! ### What listeners learn -/

section Reports

variable {fragment? : Entry → Option Fragment} {concerns : Path → Prop} {events : List FragmentDelta}
  {d : Delta} {before after : List Fragment}

/-- The fragments before and after a change, and what is told of them: entries of old and new buildpaths
that match each other have one path and, at some paths, one fragment. -/
structure Change.Story (fragment? : Entry → Option Fragment) (concerns : Path → Prop)
    (old new : List Entry) (before after : List Fragment) : Prop where
  path : ∀ e f, fragment? e = some f → f.path = e.path
  oldPaths : (old.map Entry.path).Nodup
  newPaths : (new.map Entry.path).Nodup
  paths : ∀ o ∈ old, ∀ n ∈ new, o.rootId = n.rootId → o.path = n.path
  same : ∀ o ∈ old, ∀ n ∈ new, o.rootId = n.rootId → concerns o.path → fragment? o = fragment? n
  before : ∀ f, f ∈ before ↔ ∃ o ∈ old, fragment? o = some f
  after : ∀ f, f ∈ after ↔ ∃ n ∈ new, fragment? n = some f

namespace Change.Story

/-- An entry that stays does not leave its path to another one. -/
private theorem not_unmatched (hs : Story fragment? concerns old new before after) {o n : Entry}
    (ho : o ∈ old) (hn : n ∈ new) (hpath : o.path = n.path) : n.Unmatched old ↔ o.Unmatched new := by
  constructor
  · intro hcome n' hn' hid
    have heq : n' = n := List.inj_on_of_nodup_map hs.newPaths hn' hn
      ((hs.paths o ho n' hn' hid.symm).symm.trans hpath)
    exact hcome o ho (heq ▸ hid.symm)
  · intro hgone o' ho' hid
    have heq : o' = o := List.inj_on_of_nodup_map hs.oldPaths ho' ho
      ((hs.paths o' ho' n hn hid).trans hpath.symm)
    exact hgone n hn (heq ▸ hid.symm)

private theorem after_unique (hs : Story fragment? concerns old new before after) {f f' : Fragment}
    (hf : f ∈ after) (hf' : f' ∈ after) (hpath : f.path = f'.path) : f = f' := by
  obtain ⟨n, hn, hfragment⟩ := (hs.after f).mp hf
  obtain ⟨n', hn', hfragment'⟩ := (hs.after f').mp hf'
  have heq : n = n' := List.inj_on_of_nodup_map hs.newPaths hn hn'
    ((hs.path n f hfragment).symm.trans (hpath.trans (hs.path n' f' hfragment')))
  exact Option.some.inj (hfragment.symm.trans (heq ▸ hfragment'))

variable (hs : Story fragment? concerns old new before after)
  (hm : Delta.Merges project events d.children) (ht : Tells fragment? old new events)

include hs hm ht

private theorem removed {f : Fragment} (hbefore : f ∈ before) (hat : concerns f.path)
    (hafter : f ∉ after) : d.isRemoved f.path := by
  obtain ⟨o, ho, hfragment⟩ := (hs.before f).mp hbefore
  refine hm.isRemoved_iff.mpr (ht.removes o ho (fun n hn hid ↦ hafter ?_) f hfragment)
  have hsame := hs.same o ho n hn hid.symm (hs.path o f hfragment ▸ hat)
  exact (hs.after f).mpr ⟨n, hn, hsame ▸ hfragment⟩

private theorem added {f : Fragment} (hafter : f ∈ after) (hat : concerns f.path)
    (hbefore : f ∉ before) : d.isAdded f.path := by
  obtain ⟨n, hn, hfragment⟩ := (hs.after f).mp hafter
  refine hm.isAdded_iff.mpr (ht.adds n hn (fun o ho hid ↦ hbefore ?_) f hfragment)
  have hsame := hs.same o ho n hn hid (hs.paths o ho n hn hid ▸ hs.path n f hfragment ▸ hat)
  exact (hs.before f).mpr ⟨o, ho, hsame.symm ▸ hfragment⟩

/-- A fragment that was added is there afterwards, if none was removed at its path. -/
private theorem mem_after {c : FragmentDelta} (hc : c ∈ d.children)
    (hadded : d.isAdded c.fragment.path) (hremoved : ¬ d.isRemoved c.fragment.path) :
    c.fragment ∈ after := by
  obtain ⟨e, he, hpath, hset⟩ := hm.isAdded_iff.mp hadded
  obtain ⟨n, hn, hcome, hfragment⟩ := ht.added e he hset
  have hat : n.path = c.fragment.path := (hs.path n _ hfragment).symm.trans hpath
  -- the fragment of the child comes from an event, which was recorded of the entry that was added
  obtain ⟨e', he', horigin⟩ := hm.origin c hc
  by_cases hset' : e'.flags.added
  · obtain ⟨n', hn', -, hfragment'⟩ := ht.added e' he' hset'
    exact (hs.after _).mpr ⟨n', hn', horigin ▸ hfragment'⟩
  · refine absurd ?_ hremoved
    by_cases hgone : e'.flags.removed
    · exact hm.isRemoved_iff.mpr ⟨e', he', congrArg Fragment.path horigin, hgone⟩
    · obtain ⟨o, ho, hstays, hpath'⟩ := ht.stays e' he' hgone hset'
      have hsame : o.path = n.path := by rw [hpath', horigin, hat]
      exact absurd ((hs.not_unmatched ho hn hsame).mp hcome) hstays

private theorem mem_replay_iff {f : Fragment} (hat : concerns f.path)
    (hnot : ¬ (d.isRemoved f.path ∧ d.isAdded f.path)) : f ∈ d.replay before ↔ f ∈ after := by
  rw [Delta.mem_replay]
  constructor
  · rintro (⟨hbefore, hremoved⟩ | ⟨c, hc, hset, rfl⟩)
    · exact Decidable.byContradiction fun hafter ↦ hremoved (hs.removed hm ht hbefore hat hafter)
    · have hadded := hm.isAdded_of_mem hc hset
      exact hs.mem_after hm ht hc hadded fun hremoved ↦ hnot ⟨hremoved, hadded⟩
  · intro hafter
    by_cases hadded : d.isAdded f.path
    · obtain ⟨c, hc, hset, hpath⟩ := hm.exists_added hadded
      refine .inr ⟨c, hc, hset, hs.after_unique ?_ hafter hpath⟩
      exact hs.mem_after hm ht hc (hpath ▸ hadded) fun hremoved ↦ hnot ⟨hpath ▸ hremoved, hadded⟩
    · have hbefore : f ∈ before :=
        Decidable.byContradiction fun hbefore ↦ hadded (hs.added hm ht hafter hat hbefore)
      refine .inl ⟨hbefore, fun hremoved ↦ hadded ?_⟩
      -- the entry that was removed had the path of the new one, which was therefore added
      obtain ⟨e, he, hpath, hset⟩ := hm.isRemoved_iff.mp hremoved
      obtain ⟨o, ho, hgone, hplace⟩ := ht.removed e he hset
      obtain ⟨n, hn, hfragment⟩ := (hs.after f).mp hafter
      have hsame : o.path = n.path := (hplace.trans hpath).trans (hs.path n f hfragment)
      exact hm.isAdded_iff.mpr
        (ht.adds n hn ((hs.not_unmatched ho hn hsame).mpr hgone) f hfragment)

/-- A delta whose children stand for events that tell what becomes of the fragments reports it. -/
theorem reports : d.Reports concerns before after := by
  refine ⟨fun f ↦ hs.removed hm ht, fun f ↦ hs.added hm ht, fun path hat ↦ ?_,
    fun f ↦ hs.mem_replay_iff hm ht⟩
  by_cases hboth : d.isRemoved path ∧ d.isAdded path
  · refine iff_of_true ?_ ?_
    · obtain ⟨c, hc, hset, hpath⟩ := hm.exists_added hboth.2
      exact ⟨c.fragment, Delta.mem_replay.mpr (.inr ⟨c, hc, hset, rfl⟩), hpath⟩
    · obtain ⟨e, he, hpath, hset⟩ := hm.isAdded_iff.mp hboth.2
      obtain ⟨n, hn, -, hfragment⟩ := ht.added e he hset
      exact ⟨e.fragment, (hs.after _).mpr ⟨n, hn, hfragment⟩, hpath⟩
  · constructor
    · rintro ⟨f, hf, rfl⟩
      exact ⟨f, (hs.mem_replay_iff hm ht hat hboth).mp hf, rfl⟩
    · rintro ⟨f, hf, rfl⟩
      exact ⟨f, (hs.mem_replay_iff hm ht hat hboth).mpr hf, rfl⟩

end Change.Story

end Reports

/-! ### Saving a buildpath -/

/-- Whether no library stays on a buildpath, at a path, but is looked for elsewhere: inside the workspace
first or only outside. -/
def StaysPut (old new : List Entry) (path : Path) : Prop :=
  ∀ o ∈ old, ∀ n ∈ new, o.kind = .library → o.path = path → o.rootId = n.rootId →
    n.external = o.external

/-- Whether the text of a root identity tells the path of the entry. -/
def TellsPaths (es : List Entry) : Prop :=
  ∀ e ∈ es, ∀ e' ∈ es, e.rootId = e'.rootId → e.path = e'.path

instance (es : List Entry) : Decidable (TellsPaths es) :=
  inferInstanceAs (Decidable (∀ e ∈ es, ∀ e' ∈ es, e.rootId = e'.rootId → e.path = e'.path))

theorem TellsPaths.nodup {es all : List Entry} (h : TellsPaths all) (hes : es ⊆ all)
    (hpaths : (es.map Entry.path).Nodup) : (es.map Entry.rootId).Nodup := by
  refine List.Nodup.map_on (fun e he e' he' hid ↦ ?_) (List.Nodup.of_map _ hpaths)
  exact List.inj_on_of_nodup_map hpaths he he' (h e (hes he) e' (hes he') hid)

/-- Entries that match each other have one fragment, if they are looked for in one place. -/
theorem StaysPut.fragment?_eq (hf : m.factories = .empty) {o n : Entry} (ho : o ∈ old) (hn : n ∈ new)
    (h : StaysPut old new o.path) (hid : o.rootId = n.rootId) (hpath : o.path = n.path) :
    m.fragment? true project o = m.fragment? true project n := by
  have hnone : ∀ e : Entry, ¬ e.IsIndexed → m.fragment? true project e = none := fun e he ↦
    Option.eq_none_iff_forall_ne_some.mpr fun f hfragment ↦
      he (Model.fragment?_eq_some hf hfragment).1
  by_cases hindexed : n.IsIndexed
  · have hkind := Entry.kind_eq_of_rootId hid hindexed
    exact (Model.fragment?_congr hf hf hkind.symm hpath.symm
      (fun hlibrary ↦ h o ho n hn hlibrary rfl hid) rfl rfl).symm
  · have hindexed' : ¬ o.IsIndexed := fun ho' ↦ hindexed (by
      rwa [Entry.IsIndexed, Entry.kind_eq_of_rootId hid.symm ho'])
    rw [hnone o hindexed', hnone n hindexed]

namespace ModelM

variable {make : Path → String → Option Container} {es : List Entry} {g : GeneratedDelta}

/-- The delta of a change stands for events that tell what becomes of the fragments. -/
theorem applyChange_records {change : Change} {before after : Issued} (hf : m.factories = .empty)
    (hrun : (resolution change.project).runOn m = (.ok after, m'))
    (hbefore : change.resolved = some before)
    (hknown : ∀ f ∈ change.fragments.getD [], f.project = change.project) (setsUpFolders : Bool) :
    ∃ events, Delta.Merges change.project events
        ((applyChange change setsUpFolders).run m).1.delta.children ∧
      Tells (m.fragment? true change.project) before.result.entries after.result.entries events := by
  obtain ⟨m₁, hterms, hchildren⟩ := generateDelta_records hrun hbefore
  have happly : ((applyChange change setsUpFolders).run m).1 = ((generateDelta change).run m).1.1 := by
    rw [applyChange_eq]
    rfl
  rw [happly, hchildren]
  by_cases hsame : sameStructure before.result.entries after.result.entries
  · rw [if_pos hsame]
    exact ⟨[], Delta.merges_mergeAll fun e he ↦ absurd he List.not_mem_nil,
      Tells.of_sameStructure hsame⟩
  · rw [if_neg hsame]
    have hf₁ := hterms.factories.trans hf
    exact ⟨_, Delta.merges_mergeAll (Model.project_of_mem_events hf₁ hknown),
      hterms.fragment? ▸ Model.tells_events hf₁ hknown⟩

/-- No fragments are remembered of a project whose raw buildpath was just saved. -/
theorem fragments_setRawBuildpath (h : (setRawBuildpath project es true).runOn m = (.ok g, m')) :
    (m'.cell project).fragments = none := by
  obtain ⟨-, -, m₁, m₂, hreplace, hsave, rfl⟩ := setRawBuildpath_eq_ok.mp h
  obtain ⟨m₃, cells, change, -, hrun, -, -, -, -, hcell, -⟩ := replaceRaw_run
    { m with held := (m.held.acquire [.project project, .externalFolders]).2 } project es true
  have hforgets : ({ m₃ with cells } : Model).Forgets project
      ((applyChange change true).run { m₃ with cells }).2 :=
    moves_applyChange forgets_resolution (fun _ _ _ ↦ .inr rfl) change true _
  rw [← hrun, hreplace] at hforgets
  have hnone : (m₁.cell project).fragments = none := by
    rcases hforgets with hnone | hsame
    · exact hnone
    · rw [hsame, hcell]
      rfl
  obtain ⟨isWritten, w, -, rfl⟩ := saveFile_eq_ok hsave
  have hstamped := Model.cell_setCell { m₁ with workspace := w } project project
    ((m₁.cell project).setStamp (w.stamp? (projectFilePath project)))
  rw [if_pos rfl] at hstamped
  exact (congrArg Cell.fragments hstamped).trans hnone

/-- Saving a raw buildpath brings no factories. -/
private theorem factories_setRawBuildpath
    (h : (setRawBuildpath project es true).runOn m = (.ok g, m')) : m'.factories = m.factories := by
  obtain ⟨-, -, m₁, m₂, hreplace, hsave, rfl⟩ := setRawBuildpath_eq_ok.mp h
  have hterms : ModelM.Moves Model.SameTerms (replaceRaw project es true) :=
    moves_replaceRaw sameTerms_resolution (fun _ _ _ ↦ ⟨rfl, rfl, rfl⟩) project es true
  have hreplaced := hterms { m with held := (m.held.acquire [.project project, .externalFolders]).2 }
  rw [hreplace] at hreplaced
  obtain ⟨isWritten, w, -, rfl⟩ := saveFile_eq_ok hsave
  exact hreplaced.factories

/-- What is remembered of a project whose raw buildpath was just saved is what would be computed. -/
theorem fresh_setRawBuildpath (hs : m.Steady make) (hidle : project ∉ m.resolving)
    (hk : m.Remakes make project es) (hd : m.Detached project es)
    (h : (setRawBuildpath project es true).runOn m = (.ok g, m')) : m'.Fresh project := by
  obtain ⟨r, hsettled⟩ := setRawBuildpath_settles hd hs hidle hk h
  refine ⟨?_, fun fs hfs ↦ ?_⟩
  · rw [hsettled.entriesOf_eq (setRawBuildpath_eq_ok.mp h).1]
    exact hsettled.rests.paths_nodup
  · rw [fragments_setRawBuildpath h] at hfs
    cases hfs

/-- The delta of a saved buildpath stands for events that tell what becomes of the fragments of the
entries that the project was resolved to before, and of those that it is resolved to afterwards. -/
theorem setRawBuildpath_records (hs : m.Steady make) (hidle : project ∉ m.resolving)
    (hk : m.Remakes make project es) (hd : m.Detached project es) (hf : m.factories = .empty)
    (hknown : ∀ fs, (m.cell project).fragments = some fs → ∀ f ∈ fs, f.project = project)
    (h : (setRawBuildpath project es true).runOn m = (.ok g, m')) :
    ∃ events, Delta.Merges project events g.delta.children ∧
      Tells (m.fragment? true project) (m.entriesOf project) (m'.entriesOf project) events := by
  obtain ⟨hexists, -, m₁, m₂, hreplace, hsave, rfl⟩ := setRawBuildpath_eq_ok.mp h
  obtain ⟨begun, hbegun⟩ : ∃ begun : Model,
      begun = { m with held := (m.held.acquire [.project project, .externalFolders]).2 } := ⟨_, rfl⟩
  rw [← hbegun] at hreplace
  have hexists₁ : begun.workspace.projectExists project := hbegun ▸ hexists
  have hs₁ : begun.Steady make := hbegun ▸ ⟨hs.made, hs.unmade, hs.nesting⟩
  have hidle₁ : project ∉ begun.resolving := hbegun ▸ hidle
  have hd₁ : begun.Detached project es := hbegun ▸ ⟨hd.variableEntries, hd.libraries⟩
  have hk₁ : begun.Remakes make project es := hbegun ▸ hk
  have hf₁ : begun.factories = .empty := hbegun ▸ hf
  have hknown₁ : ∀ fs, (begun.cell project).fragments = some fs → ∀ f ∈ fs, f.project = project :=
    hbegun ▸ hknown
  -- the project is looked at, its raw buildpath is replaced, and the change is applied
  obtain ⟨before, hissued, hbefore⟩ := inspect_resolves hs₁ hexists₁ hidle₁
  have hlooked : begun.SameTerms ((inspect project).run begun).2 :=
    moves_inspect sameTerms_resolution project begun
  obtain ⟨m₃, m₄, cells, change, after, hinspect, hrun, rfl, hresolved, hfragments, hafter, hsettled⟩ :=
    replaceRaw_settles hd₁ (Chained.refl begun) hs₁ hexists₁ hidle₁ hk₁ true
  rw [hinspect] at hissued hlooked
  have hterms : begun.SameTerms { m₃ with cells } := ⟨hlooked.files, hlooked.settings, hlooked.factories⟩
  obtain ⟨events, hmerges, htells⟩ := applyChange_records (hterms.factories.trans hf₁) hafter
    (hresolved.trans hissued) (hfragments ▸ project_of_inspect hf₁ hknown₁) true
  rw [hterms.fragment?] at htells
  rw [← hrun, hreplace] at hmerges
  rw [hreplace] at hsettled
  obtain ⟨hsaved, -⟩ := settled_of_steps hsettled (.inr hsave)
    (m₂.held.release (m.held.acquire [.project change.project, .externalFolders]).1)
  have hentries : m.entriesOf change.project = before.result.entries := by
    rw [Model.entriesOf_eq hs hexists hidle, Resolved.entries_eq hbefore, hbegun]
    rfl
  have hfragment : begun.fragment? = m.fragment? := hbegun ▸ rfl
  refine ⟨events, hmerges, ?_⟩
  rw [hentries, hsaved.entriesOf_eq hexists₁, ← hfragment]
  exact htells

/-- A library at a path. -/
def libraryAt (path : String) (external : Bool) : Entry :=
  { kind := .library, path := .parse path, external }

/-- A workspace with one project `p`, a folder of it and an archive outside. -/
def withFolder (folder : String) : Workspace :=
  .memory (((Memory.addProject {} "p" (some defaultNature)).addFolder (.parse folder)).addExternalFile
    (.parse "/ext/a.zip") .empty)

/-- A model of a project with a source folder that it does not know yet to be resolved. -/
def withSource : Model :=
  { workspace := withFolder "/p/src"
    followsLibraries := false
    cells := Table.empty.insert "p" { raw := some { entries := [.source (.parse "/p/src")] } } }

/-- A model in which a raw buildpath was set for a project with a folder, without being saved. A container
of an archive is bound to it. -/
def withEntry (folder : String) (e : Entry) : Model :=
  ((do
    let _ ← setContainer coreEntry.path [("p", some (.ofEntries coreEntry.path .system
      [libraryAt "/ext/a.zip" true]))]
    setRawBuildpath "p" [e] false : Action GeneratedDelta).runOn { workspace := withFolder folder }).2

/-- The outcome of a save is that of replacing the raw buildpath. -/
private theorem saved_of_isOk (h : ((setRawBuildpath project es true).runOn m).1.isOk) :
    (setRawBuildpath project es true).runOn m =
      (.ok ((replaceRaw project es true).run
        { m with held := (m.held.acquire [.project project, .externalFolders]).2 }).1,
        ((setRawBuildpath project es true).runOn m).2) := by
  obtain ⟨g, hsave⟩ := Action.runOn_eq_ok _ m h
  obtain ⟨-, -, m₁, m₂, hreplace, -⟩ := setRawBuildpath_eq_ok.mp hsave
  rw [hreplace]
  exact hsave

end ModelM

end Buildpath
