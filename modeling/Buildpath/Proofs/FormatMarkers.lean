import Buildpath.Proofs.Markers

/-!
# Markers of unreadable project files

Whether an unreadable project file is shown at a project depends on the markers of the project only. Neither
cycle markers nor markers of other problems matter to it (`MarkerStore.SameFormats`), and one flush removes
what is shown (`MarkerStore.showsFormat_flush_formats`).
-/

namespace Buildpath

namespace MarkerStore

variable {s s' s'' : MarkerStore} {project q : String} {status : Status} {options : Options}

/-- Whether an unreadable project file is shown at a project. -/
def showsFormat (s : MarkerStore) (project : String) : Bool :=
  (s.markers project).any Marker.isFileFormat

theorem showsFormat_setMarkers (s : MarkerStore) (project : String) (markers : List Marker) (q : String) :
    (s.setMarkers project markers).showsFormat q =
      if project = q then markers.any Marker.isFileFormat else s.showsFormat q := by
  rw [showsFormat, markers_setMarkers, showsFormat]
  split <;> rfl

/-- Giving a project markers of which some is for an unreadable file exactly if some was before. -/
theorem showsFormat_setMarkers_same {markers : List Marker}
    (h : markers.any Marker.isFileFormat = s.showsFormat project) (q : String) :
    (s.setMarkers project markers).showsFormat q = s.showsFormat q := by
  rw [showsFormat_setMarkers]
  split
  · next hq => exact hq ▸ h
  · rfl

theorem Tidy.create (h : s.Tidy) (project : String) (status : Status) (options : Options) :
    (s.create project status options).Tidy := by
  unfold MarkerStore.create
  dsimp only
  split
  · exact h
  · refine h.setMarkers fun marker hmem ↦ ?_
    rcases List.mem_append.mp hmem with hmem | hmem
    · exact h project marker hmem
    · exact List.mem_singleton.mp hmem ▸ Marker.not_isFileFormat_of_isCycle

theorem Tidy.flush (h : s.Tidy) (project : String) (cycles formats : Bool) :
    (s.flush project cycles formats).Tidy :=
  h.setMarkers fun marker hmem ↦ h project marker (List.mem_filter.mp hmem).1

/-- A flush of format markers leaves none of them. -/
theorem showsFormat_flush_formats (h : s.Tidy) (project : String) :
    (s.flush project false true).showsFormat project = false := by
  rw [flush, showsFormat_setMarkers, if_pos rfl, List.any_filter, List.any_eq_false]
  intro marker hmem
  have hcycle := h project marker hmem
  cases hformat : marker.isFileFormat <;> simp_all [isFlushed]

/-! ### Steps that leave format markers alone -/

/-- Whether unreadable files are shown at the same projects, and markers stay tidy. -/
structure SameFormats (s s' : MarkerStore) : Prop where
  tidy : s.Tidy → s'.Tidy
  shows : ∀ q, s'.showsFormat q = s.showsFormat q

namespace SameFormats

theorem refl (s : MarkerStore) : s.SameFormats s := ⟨id, fun _ ↦ rfl⟩

theorem trans (h : s.SameFormats s') (h' : s'.SameFormats s'') : s.SameFormats s'' :=
  ⟨h'.tidy ∘ h.tidy, fun q ↦ (h'.shows q).trans (h.shows q)⟩

/-- A flush of other markers. -/
theorem flush (s : MarkerStore) (project : String) (cycles : Bool) :
    s.SameFormats (s.flush project cycles false) := by
  refine ⟨fun h ↦ h.flush project cycles false, showsFormat_setMarkers_same ?_⟩
  rw [showsFormat, List.any_filter]
  refine congrArg (List.any _) (funext fun marker ↦ ?_)
  cases hformat : marker.isFileFormat <;> simp [isFlushed, hformat]

/-- Showing another problem. -/
theorem create (s : MarkerStore) (project : String) (options : Options)
    (h : (Marker.ofStatus project status options).isFileFormat = false) :
    s.SameFormats (s.create project status options) := by
  refine ⟨fun ht ↦ ht.create project status options, ?_⟩
  unfold MarkerStore.create
  dsimp only
  split
  · exact fun _ ↦ rfl
  · refine showsFormat_setMarkers_same ?_
    rw [List.any_append, List.any_cons, h, List.any_nil, Bool.or_self, Bool.or_false, showsFormat]

/-- Showing the cycle at a project. -/
private theorem showCycle (s : MarkerStore) (project : String) (options : Options) :
    s.SameFormats (s.showCycle project options) := by
  have hseverity : s.SameFormats (s.setCycleSeverity project options.circular) := by
    refine ⟨fun h ↦ tidy_setCycleSeverity h project _, showsFormat_setMarkers_same ?_⟩
    rw [showsFormat, List.any_map]
    refine congrArg (List.any _) (funext fun marker ↦ ?_)
    rw [Function.comp]
    split <;> rfl
  unfold MarkerStore.showCycle
  dsimp only
  split
  · exact hseverity
  · exact hseverity.trans (.create _ _ _ rfl)

/-- Bringing cycle markers in line. -/
theorem validateCycles (s : MarkerStore) (projects participants : List String)
    (optionsOf : String → Options) :
    s.SameFormats (s.validateCycles projects participants optionsOf) := by
  unfold MarkerStore.validateCycles
  induction projects generalizing s with
  | nil => exact .refl s
  | cons project projects ih =>
    rw [List.foldl_cons]
    refine .trans ?_ (ih _)
    split
    · exact showCycle s project _
    · exact .flush s project true

end SameFormats

end MarkerStore

end Buildpath
