import Buildpath.Proofs.Delta.Children

/-!
# Deltas

The children of the delta of one project. A child stands for all events at its path: it has the flags of
each, and the fragment of one of them (`Delta.Merges`). A listener can replay the children on the fragments
that it knows (`Delta.replay`).
-/

namespace Buildpath

/-- Whether a flag is set in two sets of flags together exactly if it is set in one of them. -/
def DeltaFlags.IsFlag (flag : DeltaFlags → Bool) : Prop :=
  ∀ a b : DeltaFlags, flag (a ∪ b) = (flag a || flag b)

theorem DeltaFlags.isFlag_added : IsFlag DeltaFlags.added := fun _ _ ↦ rfl

theorem DeltaFlags.isFlag_removed : IsFlag DeltaFlags.removed := fun _ _ ↦ rfl

theorem DeltaFlags.isFlag_reordered : IsFlag DeltaFlags.reordered := fun _ _ ↦ rfl

theorem DeltaFlags.IsFlag.foldl_union {flag : DeltaFlags → Bool} (hflag : IsFlag flag)
    (events : List FragmentDelta) (flags : DeltaFlags) :
    flag (events.foldl (fun flags e ↦ flags ∪ e.flags) flags) =
      (flag flags || events.any fun e ↦ flag e.flags) := by
  induction events generalizing flags with
  | nil => exact (Bool.or_false _).symm
  | cons e events ih => rw [List.foldl_cons, ih, hflag, List.any_cons, Bool.or_assoc]

/-- A child has a flag if one of the events that it sums up has it. -/
theorem FragmentDelta.SumsUp.flag_iff {events : List FragmentDelta} {c : FragmentDelta}
    {flag : DeltaFlags → Bool} (h : SumsUp events c) (hflag : DeltaFlags.IsFlag flag) :
    flag c.flags ↔ ∃ e ∈ events, flag e.flags := by
  cases events with
  | nil => cases h.first
  | cons e events =>
    rw [h.flags, List.foldl_cons, DeltaFlags.none_union, hflag.foldl_union]
    simp

namespace Delta

variable {project : String} {events children : List FragmentDelta} {child : FragmentDelta}
  {flag : DeltaFlags → Bool} {path : Path}

theorem children_foldl_record (kind : DeltaKind) (flags : DeltaFlags) (fragments : List Fragment)
    (d : Delta) : (fragments.foldl (fun d f ↦ d.record kind f flags) d).children =
      mergeAll (fragments.map fun f ↦ ⟨f, kind, flags⟩) d.children := by
  rw [← children_recordAll, recordAll, List.foldl_map]

/-! ### What children stand for -/

/-- Whether the children of a delta stand for events in a project: there is one for each path that an
event happened at, with the flags of every event there. -/
structure Merges (project : String) (events children : List FragmentDelta) : Prop where
  projects : ∀ c ∈ children, c.fragment.project = project
  paths : (children.map fun c ↦ c.fragment.path).Nodup
  origin : ∀ c ∈ children, ∃ e ∈ events, e.fragment = c.fragment
  flags : ∀ flag, DeltaFlags.IsFlag flag → ∀ c ∈ children,
    (flag c.flags ↔ ∃ e ∈ events, e.fragment.path = c.fragment.path ∧ flag e.flags)
  complete : ∀ e ∈ events, ∃ c ∈ children, c.fragment.path = e.fragment.path

/-- In one project a path is enough to tell which fragment an event is about. -/
theorem Merged.merges (h : Merged events children) (hproject : ∀ e ∈ events, e.fragment.project = project) :
    Merges project events children := by
  have horigin : ∀ c ∈ children, ∃ e ∈ events, e.fragment = c.fragment := by
    intro c hc
    obtain ⟨e, he, hfragment⟩ := Option.map_eq_some_iff.mp (h.sums c hc).first
    exact ⟨e, (List.mem_filter.mp (List.mem_of_head? he)).1, hfragment⟩
  have hprojects : ∀ c ∈ children, c.fragment.project = project := by
    intro c hc
    obtain ⟨e, he, hfragment⟩ := horigin c hc
    rw [← hfragment, hproject e he]
  have hplaces : (children.map fun c ↦ c.fragment.place) =
      (children.map fun c ↦ c.fragment.path).map (Prod.mk project) := by
    rw [List.map_map]
    exact List.map_congr_left fun c hc ↦ congrArg (·, c.fragment.path) (hprojects c hc)
  refine ⟨hprojects, ?_, horigin, fun flag hflag c hc ↦ ?_, fun e he ↦ ?_⟩
  · exact List.Nodup.of_map (Prod.mk project) (hplaces ▸ h.once)
  · rw [(h.sums c hc).flag_iff hflag]
    simp only [List.mem_filter, and_assoc, isAbout_iff, Fragment.place, Prod.mk.injEq]
    refine exists_congr fun e ↦ and_congr_right fun he ↦ ?_
    exact and_iff_right ((hproject e he).trans (hprojects c hc).symm)
  · obtain ⟨c, hc, hplace⟩ := List.mem_map.mp (h.mem_places.mpr ⟨e, he, rfl⟩)
    exact ⟨c, hc, congrArg Prod.snd hplace⟩

/-- The children that come from events stand for them. -/
theorem merges_mergeAll (h : ∀ e ∈ events, e.fragment.project = project) :
    Merges project events (mergeAll events []) :=
  (merged_mergeAll events).merges h

/-! ### Listeners -/

variable {d : Delta} {f : Fragment} {fragments : List Fragment}

/-- Whether the child at a path says that an entry was removed from the resolved buildpath. -/
def isRemoved (d : Delta) (path : Path) : Bool := (d.find? path).any (·.flags.removed)

/-- Whether the child at a path says that an entry was added to the resolved buildpath. -/
def isAdded (d : Delta) (path : Path) : Bool := (d.find? path).any (·.flags.added)

/-- What a listener makes of the fragments that it knows: those whose entries were removed go, and those
whose entries were added come. -/
def replay (d : Delta) (fragments : List Fragment) : List Fragment :=
  fragments.filter (fun f ↦ !d.isRemoved f.path) ++
    (d.children.filter (·.flags.added)).map FragmentDelta.fragment

theorem mem_replay : f ∈ d.replay fragments ↔
    f ∈ fragments ∧ ¬ d.isRemoved f.path ∨ ∃ c ∈ d.children, c.flags.added ∧ c.fragment = f := by
  simp [replay, and_assoc]

/-- Whether a delta tells how the fragments of a project changed at some paths. The child at the path of a
fragment says that it was removed or added. A listener that replays the delta comes to the paths of the
fragments afterwards, and to the fragments themselves, apart from those at paths where one was removed and
another one was added. -/
structure Reports (d : Delta) (concerns : Path → Prop) (before after : List Fragment) : Prop where
  removed : ∀ f ∈ before, concerns f.path → f ∉ after → d.isRemoved f.path
  added : ∀ f ∈ after, concerns f.path → f ∉ before → d.isAdded f.path
  paths : ∀ path, concerns path →
    ((∃ f ∈ d.replay before, f.path = path) ↔ ∃ f ∈ after, f.path = path)
  replay : ∀ f, concerns f.path → ¬ (d.isRemoved f.path ∧ d.isAdded f.path) →
    (f ∈ d.replay before ↔ f ∈ after)

theorem Merges.find?_eq_some (h : Merges project events d.children) :
    d.find? path = some child ↔ child ∈ d.children ∧ child.fragment.path = path := by
  constructor
  · intro hfind
    exact ⟨List.mem_of_find?_eq_some hfind, by simpa using List.find?_some hfind⟩
  · rintro ⟨hmem, rfl⟩
    obtain ⟨c, hc⟩ : ∃ c, d.find? child.fragment.path = some c := by
      refine Option.isSome_iff_exists.mp (List.find?_isSome.mpr ⟨child, hmem, ?_⟩)
      exact decide_eq_true rfl
    have hpath : c.fragment.path = child.fragment.path := by simpa using List.find?_some hc
    rw [hc, List.inj_on_of_nodup_map h.paths (List.mem_of_find?_eq_some hc) hmem hpath]

/-- The child at a path has the flags of the events there. -/
theorem Merges.any_find? (h : Merges project events d.children) (hflag : DeltaFlags.IsFlag flag) :
    (d.find? path).any (fun c ↦ flag c.flags) ↔ ∃ e ∈ events, e.fragment.path = path ∧ flag e.flags := by
  rw [Option.any_eq_true]
  constructor
  · rintro ⟨c, hfind, hset⟩
    obtain ⟨hc, rfl⟩ := h.find?_eq_some.mp hfind
    exact (h.flags flag hflag c hc).mp hset
  · rintro ⟨e, he, rfl, hset⟩
    obtain ⟨c, hc, hpath⟩ := h.complete e he
    exact ⟨c, h.find?_eq_some.mpr ⟨hc, hpath⟩, (h.flags flag hflag c hc).mpr ⟨e, he, hpath.symm, hset⟩⟩

theorem Merges.isAdded_of_mem (h : Merges project events d.children) (hc : child ∈ d.children)
    (hset : child.flags.added) : d.isAdded child.fragment.path := by
  rw [isAdded, h.find?_eq_some.mpr ⟨hc, rfl⟩]
  exact hset

theorem Merges.exists_added (h : Merges project events d.children) (hadded : d.isAdded path) :
    ∃ c ∈ d.children, c.flags.added ∧ c.fragment.path = path := by
  obtain ⟨c, hfind, hset⟩ := (Option.any_eq_true _ _).mp hadded
  obtain ⟨hc, hpath⟩ := h.find?_eq_some.mp hfind
  exact ⟨c, hc, hset, hpath⟩

theorem Merges.isRemoved_iff (h : Merges project events d.children) :
    d.isRemoved path ↔ ∃ e ∈ events, e.fragment.path = path ∧ e.flags.removed :=
  h.any_find? DeltaFlags.isFlag_removed

theorem Merges.isAdded_iff (h : Merges project events d.children) :
    d.isAdded path ↔ ∃ e ∈ events, e.fragment.path = path ∧ e.flags.added :=
  h.any_find? DeltaFlags.isFlag_added

end Delta

end Buildpath
