import Buildpath.Delta
import Mathlib.Data.List.Induction
import Mathlib.Data.List.Nodup

/-!
# Children of deltas

The children of a delta come from events, one for each time that something was recorded of a fragment. A
project and a path identify a fragment (`Fragment.place`), its kind does not. Each place that was mentioned
has one child, in the order of first mention (`Delta.Merged`), and the child sums up the events there
(`FragmentDelta.SumsUp`).
-/

namespace Buildpath

/-- What identifies a fragment in a delta: its project and its path. -/
def Fragment.place (f : Fragment) : String × Path := (f.project, f.path)

theorem DeltaFlags.none_union (flags : DeltaFlags) : none ∪ flags = flags := rfl

namespace FragmentDelta

variable {events : List FragmentDelta} {c : FragmentDelta}

/-- Whether a child sums up events: it is about the fragment that was mentioned first, it has the flags of all
events, and their kind if they are all of one kind. Events of different kinds are a change. -/
structure SumsUp (events : List FragmentDelta) (c : FragmentDelta) : Prop where
  first : events.head?.map FragmentDelta.fragment = some c.fragment
  flags : c.flags = events.foldl (fun flags e ↦ flags ∪ e.flags) .none
  common : ∀ kind, (∀ e ∈ events, e.kind = kind) → c.kind = kind
  mixed : ∀ e ∈ events, ∀ e' ∈ events, e.kind ≠ e'.kind → c.kind = .changed

/-- A child with one more event. -/
def merge (c e : FragmentDelta) : FragmentDelta where
  fragment := c.fragment
  kind := if c.kind = e.kind then c.kind else .changed
  flags := c.flags ∪ e.flags

theorem sumsUp_singleton (e : FragmentDelta) : SumsUp [e] e where
  first := rfl
  flags := (DeltaFlags.none_union e.flags).symm
  common kind h := h e List.mem_cons_self
  mixed e₁ h₁ e₂ h₂ hne := by
    rw [List.mem_singleton.mp h₁, List.mem_singleton.mp h₂] at hne
    exact absurd rfl hne

/-- A child of another kind than a change has the kind of all its events. -/
theorem SumsUp.kind_eq (h : SumsUp events c) (hkind : c.kind ≠ .changed) :
    ∀ e ∈ events, e.kind = c.kind := by
  intro e he
  have hsame : ∀ e' ∈ events, e'.kind = e.kind := fun e' he' ↦
    Classical.byContradiction fun hne ↦ hkind (h.mixed e' he' e he hne)
  exact (h.common e.kind hsame).symm

theorem SumsUp.merge (h : SumsUp events c) (event : FragmentDelta) :
    SumsUp (events ++ [event]) (c.merge event) where
  first := by
    obtain ⟨e, he, hfragment⟩ := Option.map_eq_some_iff.mp h.first
    rw [List.head?_append, he, Option.some_or, Option.map_some, hfragment]
    rfl
  flags := by
    rw [List.foldl_append, ← h.flags]
    rfl
  common kind hall := by
    obtain ⟨hbefore, hevent⟩ := List.forall_mem_append.mp hall
    have hc : c.kind = kind := h.common kind hbefore
    have he : event.kind = kind := hevent event List.mem_cons_self
    rw [FragmentDelta.merge, if_pos (hc.trans he.symm), hc]
  mixed e₁ h₁ e₂ h₂ hne := by
    refine Classical.byContradiction fun hkind ↦ hne ?_
    rw [FragmentDelta.merge] at hkind
    dsimp only at hkind
    split at hkind
    · next hevent =>
      have hall : ∀ e ∈ events ++ [event], e.kind = c.kind := List.forall_mem_append.mpr
        ⟨h.kind_eq hkind, fun e he ↦ List.mem_singleton.mp he ▸ hevent.symm⟩
      exact (hall e₁ h₁).trans (hall e₂ h₂).symm
    · exact absurd rfl hkind

end FragmentDelta

namespace Delta

variable {events children : List FragmentDelta} {c event : FragmentDelta} {f : Fragment}

theorem isAbout_iff : isAbout f c ↔ c.fragment.place = f.place := by
  simp [isAbout, Fragment.place, and_comm]

/-- Adds events to the children of a delta, one after the other. -/
def mergeAll (events children : List FragmentDelta) : List FragmentDelta :=
  events.foldl (fun children e ↦ mergeChild e.fragment e.kind e.flags children) children

theorem mergeAll_append (events events' children : List FragmentDelta) :
    mergeAll (events ++ events') children = mergeAll events' (mergeAll events children) :=
  List.foldl_append

/-! ### One event -/

/-- A place that was not mentioned gets a child at the end. -/
theorem mergeChild_of_notMem (h : event.fragment.place ∉ children.map fun c ↦ c.fragment.place) :
    mergeChild event.fragment event.kind event.flags children = children ++ [event] := by
  induction children with
  | nil => rfl
  | cons c children ih =>
    obtain ⟨hne, hrest⟩ := not_or.mp (mt List.mem_cons.mpr h)
    rw [mergeChild, if_neg fun habout ↦ hne (isAbout_iff.mp habout).symm, ih hrest, List.cons_append]

/-- A place that was mentioned keeps its child, which gets the event. -/
theorem mergeChild_of_mem (honce : (children.map fun c ↦ c.fragment.place).Nodup)
    (h : event.fragment.place ∈ children.map fun c ↦ c.fragment.place) :
    mergeChild event.fragment event.kind event.flags children =
      children.map fun c ↦ if isAbout event.fragment c then c.merge event else c := by
  induction children with
  | nil => exact absurd h List.not_mem_nil
  | cons c children ih =>
    obtain ⟨hfresh, hrest⟩ := List.nodup_cons.mp honce
    rw [mergeChild, List.map_cons]
    split
    · next habout =>
      have hothers : ∀ c' ∈ children, ¬ isAbout event.fragment c' := fun c' hc' habout' ↦
        hfresh (List.mem_map.mpr ⟨c', hc', (isAbout_iff.mp habout').trans (isAbout_iff.mp habout).symm⟩)
      rw [List.map_congr_left fun c' hc' ↦ if_neg (hothers c' hc'), List.map_id']
      rfl
    · next habout =>
      have hmem := (List.mem_cons.mp h).resolve_left fun heq ↦ habout (isAbout_iff.mpr heq.symm)
      rw [ih hrest hmem]

/-! ### All events -/

/-- Whether the children of a delta stand for events: each place that was mentioned has one child, in the
order of first mention, and the child sums up the events there. -/
structure Merged (events children : List FragmentDelta) : Prop where
  once : (children.map fun c ↦ c.fragment.place).Nodup
  order : (children.map fun c ↦ c.fragment.place) = (events.map fun e ↦ e.fragment.place).eraseDups
  sums : ∀ c ∈ children, c.SumsUp (events.filter (isAbout c.fragment))

theorem Merged.mem_places (h : Merged events children) {place : String × Path} :
    (place ∈ children.map fun c ↦ c.fragment.place) ↔ ∃ e ∈ events, e.fragment.place = place := by
  rw [h.order, List.mem_eraseDups, List.mem_map]

theorem filter_isAbout_append (f : Fragment) (events : List FragmentDelta) (event : FragmentDelta) :
    (events ++ [event]).filter (isAbout f) =
      if isAbout f event then events.filter (isAbout f) ++ [event] else events.filter (isAbout f) := by
  rw [List.filter_append, List.filter_singleton]
  cases isAbout f event with
  | true => rfl
  | false => exact List.append_nil _

private theorem eraseDups_append_singleton {α : Type} [BEq α] [LawfulBEq α] (as : List α) (a : α) :
    (as ++ [a]).eraseDups = if a ∈ as then as.eraseDups else as.eraseDups ++ [a] := by
  rw [List.eraseDups_append]
  split <;> next h => simp [List.removeAll, List.eraseDups_cons, h]

/-- Children at other places keep what they sum up. -/
theorem Merged.sums_of_ne (h : Merged events children) (hc : c ∈ children)
    (hne : event.fragment.place ≠ c.fragment.place) :
    c.SumsUp ((events ++ [event]).filter (isAbout c.fragment)) := by
  rw [filter_isAbout_append, if_neg fun habout ↦ hne (isAbout_iff.mp habout)]
  exact h.sums c hc

theorem Merged.of_notMem (h : Merged events children)
    (hfresh : event.fragment.place ∉ children.map fun c ↦ c.fragment.place) :
    Merged (events ++ [event]) (children ++ [event]) where
  once := by
    rw [List.map_append, List.nodup_append]
    refine ⟨h.once, List.nodup_singleton _, fun place hplace place' hplace' heq ↦ hfresh ?_⟩
    rwa [heq, List.mem_singleton.mp hplace'] at hplace
  order := by
    rw [List.map_append, List.map_append, h.order]
    rw [h.order, List.mem_eraseDups] at hfresh
    exact (eraseDups_append_singleton _ _ |>.trans (if_neg hfresh)).symm
  sums c hc := by
    rcases List.mem_append.mp hc with hc | hc
    · refine h.sums_of_ne hc fun heq ↦ hfresh ?_
      exact List.mem_map.mpr ⟨c, hc, heq.symm⟩
    · obtain rfl := List.mem_singleton.mp hc
      have hnone : events.filter (isAbout c.fragment) = [] := List.filter_eq_nil_iff.mpr fun e he habout ↦
        hfresh (h.mem_places.mpr ⟨e, he, isAbout_iff.mp habout⟩)
      rw [filter_isAbout_append, if_pos (isAbout_iff.mpr rfl), hnone]
      exact c.sumsUp_singleton

theorem Merged.of_mem (h : Merged events children)
    (hknown : event.fragment.place ∈ children.map fun c ↦ c.fragment.place) :
    Merged (events ++ [event])
      (children.map fun c ↦ if isAbout event.fragment c then c.merge event else c) := by
  have hplaces : (children.map fun c ↦ if isAbout event.fragment c then c.merge event else c).map
      (fun c ↦ c.fragment.place) = children.map fun c ↦ c.fragment.place := by
    rw [List.map_map]
    refine List.map_congr_left fun c _ ↦ ?_
    rw [Function.comp]
    split <;> rfl
  constructor
  · rw [hplaces]
    exact h.once
  · rw [hplaces, h.order, List.map_append]
    rw [h.order, List.mem_eraseDups] at hknown
    exact (eraseDups_append_singleton _ _ |>.trans (if_pos hknown)).symm
  · intro c' hc'
    obtain ⟨c, hc, rfl⟩ := List.mem_map.mp hc'
    split
    · next habout =>
      have hplace : event.fragment.place = c.fragment.place := (isAbout_iff.mp habout).symm
      show (c.merge event).SumsUp ((events ++ [event]).filter (isAbout c.fragment))
      rw [filter_isAbout_append, if_pos (isAbout_iff.mpr hplace)]
      exact (h.sums c hc).merge event
    · next habout =>
      exact h.sums_of_ne hc fun heq ↦ habout (isAbout_iff.mpr heq.symm)

/-- The children still stand for all events once one more was added. -/
theorem Merged.mergeChild (h : Merged events children) (event : FragmentDelta) :
    Merged (events ++ [event]) (mergeChild event.fragment event.kind event.flags children) := by
  by_cases hmem : event.fragment.place ∈ children.map fun c ↦ c.fragment.place
  · rw [mergeChild_of_mem h.once hmem]
    exact h.of_mem hmem
  · rw [mergeChild_of_notMem hmem]
    exact h.of_notMem hmem

theorem merged_mergeAll (events : List FragmentDelta) : Merged events (mergeAll events []) := by
  induction events using List.reverseRecOn with
  | nil => exact ⟨List.nodup_nil, rfl, fun _ hc ↦ absurd hc List.not_mem_nil⟩
  | append_singleton events event ih =>
    rw [mergeAll_append]
    exact ih.mergeChild event

/-! ### Fresh deltas -/

/-- Records events in a delta, one after the other. -/
def recordAll (d : Delta) (events : List FragmentDelta) : Delta :=
  events.foldl (fun d e ↦ d.record e.kind e.fragment e.flags) d

theorem children_recordAll (d : Delta) (events : List FragmentDelta) :
    (d.recordAll events).children = mergeAll events d.children := by
  induction events generalizing d with
  | nil => rfl
  | cons e events ih => exact ih _

/-- Events leave no other trace on the project itself than the flag for children. -/
theorem flags_recordAll (project : String) (events : List FragmentDelta) :
    (recordAll { project } events).flags = { children := !events.isEmpty } := by
  induction events using List.reverseRecOn with
  | nil => rfl
  | append_singleton events event ih =>
    rw [recordAll, List.foldl_append]
    change (recordAll { project } events).flags ∪ { children := true } = _
    rw [ih]
    cases events <;> rfl

/-- Whatever is recorded in a fresh delta, each project and path that was mentioned has one child, in the order
of first mention. The child is about the fragment mentioned first, has the flags of all events there and their
common kind, or has changed if their kinds differ. The project has the flag for children exactly if
something was recorded. -/
theorem recordAll_merged (project : String) (events : List FragmentDelta) :
    let d := recordAll { project } events
    Merged events d.children ∧ (d.flags.children ↔ events ≠ []) := by
  refine ⟨?_, ?_⟩
  · rw [children_recordAll]
    exact merged_mergeAll events
  · rw [flags_recordAll]
    cases events <;> simp

/-- A source folder that became a library folder at the same path is one child, and it has changed. -/
example :
    let source : Fragment := ⟨"p", .parse "/p/a", .source⟩
    let folder : Fragment := ⟨"p", .parse "/p/a", .folder⟩
    (recordAll { project := "p" } [⟨source, .removed, { removed := true }⟩,
        ⟨folder, .added, { added := true }⟩]).children =
      [⟨source, .changed, { added := true, removed := true }⟩] := by decide

end Delta

end Buildpath
