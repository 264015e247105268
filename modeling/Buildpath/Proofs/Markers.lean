import Buildpath.Marker

/-!
# Cycle markers

Whether a cycle is shown at a project depends on the markers of the project only. The cycle markers of
some projects are brought in line with a list (`MarkerStore.showsCycle_validateCycles`), provided that
no marker is both for a cycle and for an unreadable project file (`MarkerStore.Tidy`); none is made.
-/

namespace Buildpath

variable {s s' s'' : MarkerStore} {project q : String} {status : Status} {options : Options}

namespace Marker

/-- The marker for a problem is one for a cycle only if the problem is a cycle. -/
theorem isCycle_ofStatus (h : ∀ name, status ≠ .cycle name) :
    (ofStatus project status options).isCycle = false := by
  cases status with
  | cycle name => exact absurd rfl (h name)
  | _ => rfl

theorem not_isFileFormat_of_isCycle (h : (ofStatus project status options).isCycle) :
    ¬ (ofStatus project status options).isFileFormat := by
  cases status with
  | cycle name => exact Bool.false_ne_true
  | _ => exact absurd h Bool.false_ne_true

end Marker

namespace MarkerStore

/-- Whether a cycle is shown at a project. -/
def showsCycle (s : MarkerStore) (project : String) : Bool := (s.markers project).any Marker.isCycle

/-- Whether no marker is both for a cycle and for an unreadable project file. -/
def Tidy (s : MarkerStore) : Prop :=
  ∀ project, ∀ marker ∈ s.markers project, marker.isCycle → ¬ marker.isFileFormat

/-- The markers of a project are those that it is given. -/
theorem markers_setMarkers (s : MarkerStore) (project : String) (markers : List Marker) (q : String) :
    (s.setMarkers project markers).markers q = if project = q then markers else s.markers q := by
  unfold setMarkers MarkerStore.markers
  split
  · next hempty =>
    rw [Table.find?_erase]
    split
    · exact (List.isEmpty_iff.mp hempty).symm
    · rfl
  · rw [Table.find?_insert]
    split <;> rfl

theorem showsCycle_setMarkers (s : MarkerStore) (project : String) (markers : List Marker)
    (q : String) : (s.setMarkers project markers).showsCycle q =
      if project = q then markers.any Marker.isCycle else s.showsCycle q := by
  rw [showsCycle, markers_setMarkers, showsCycle]
  split <;> rfl

theorem Tidy.setMarkers (h : s.Tidy) {markers : List Marker}
    (hm : ∀ marker ∈ markers, marker.isCycle → ¬ marker.isFileFormat) :
    (s.setMarkers project markers).Tidy := by
  intro q marker hmem
  rw [markers_setMarkers] at hmem
  split at hmem
  · exact hm marker hmem
  · exact h q marker hmem

/-! ### Steps that leave cycle markers alone -/

/-- Whether cycles are shown at the same projects, and markers stay tidy. -/
structure SameCycles (s s' : MarkerStore) : Prop where
  tidy : s.Tidy → s'.Tidy
  shows : ∀ q, s'.showsCycle q = s.showsCycle q

theorem SameCycles.refl (s : MarkerStore) : s.SameCycles s := ⟨id, fun _ ↦ rfl⟩

theorem SameCycles.trans (h : s.SameCycles s') (h' : s'.SameCycles s'') : s.SameCycles s'' :=
  ⟨h'.tidy ∘ h.tidy, fun q ↦ (h'.shows q).trans (h.shows q)⟩

/-- Removing markers that are neither for cycles nor for project files. -/
theorem sameCycles_flush (s : MarkerStore) (project : String) :
    s.SameCycles (s.flush project false false) := by
  refine ⟨fun h ↦ h.setMarkers fun marker hmem ↦ h project marker (List.mem_filter.mp hmem).1,
    fun q ↦ ?_⟩
  rw [flush, showsCycle_setMarkers]
  split
  · next hq =>
    subst hq
    rw [showsCycle, List.any_filter]
    refine congrArg (List.any _) (funext fun marker ↦ ?_)
    cases hcycle : marker.isCycle <;> simp [isFlushed, hcycle]
  · rfl

/-- Showing a problem that is no cycle. -/
theorem sameCycles_create (s : MarkerStore) (project : String) (options : Options)
    (h : ∀ name, status ≠ .cycle name) : s.SameCycles (s.create project status options) := by
  unfold create
  dsimp only
  split
  · exact .refl s
  · have hother : (Marker.ofStatus project status options).isCycle = false :=
      Marker.isCycle_ofStatus h
    refine ⟨fun ht ↦ ht.setMarkers fun marker hmem hcycle ↦ ?_, fun q ↦ ?_⟩
    · rcases List.mem_append.mp hmem with hmem | hmem
      · exact ht project marker hmem hcycle
      · rw [List.mem_singleton.mp hmem, hother] at hcycle
        cases hcycle
    · rw [showsCycle_setMarkers]
      split
      · next hq => rw [← hq, List.any_append, List.any_cons, hother, List.any_nil, Bool.or_self,
          Bool.or_false, showsCycle]
      · rfl

/-! ### Bringing cycle markers in line -/

/-- The markers of a project that is no part of a cycle, and of one that is. -/
private def validate (optionsOf : String → Options) (participants : List String) (s : MarkerStore)
    (project : String) : MarkerStore :=
  if project ∈ participants then s.showCycle project (optionsOf project)
  else s.flush project true false

private theorem showsCycle_flush (h : s.Tidy) (project q : String) :
    (s.flush project true false).showsCycle q = if project = q then false else s.showsCycle q := by
  rw [flush, showsCycle_setMarkers, List.any_filter]
  congr 1
  rw [List.any_eq_false]
  intro marker hmem
  have hformat := h project marker hmem
  cases hcycle : marker.isCycle <;> simp_all [isFlushed]

private theorem showsCycle_setCycleSeverity (s : MarkerStore) (project : String) (severity : Severity)
    (q : String) : (s.setCycleSeverity project severity).showsCycle q = s.showsCycle q := by
  rw [setCycleSeverity, showsCycle_setMarkers, List.any_map]
  split
  · next hq =>
    subst hq
    refine congrArg (List.any _) (funext fun marker ↦ ?_)
    rw [Function.comp]
    split <;> rfl
  · rfl

theorem tidy_setCycleSeverity (h : s.Tidy) (project : String) (severity : Severity) :
    (s.setCycleSeverity project severity).Tidy := by
  refine h.setMarkers fun marker hmem ↦ ?_
  obtain ⟨given, hgiven, rfl⟩ := List.mem_map.mp hmem
  split <;> exact h project given hgiven

/-- Where no cycle is shown, none is the same problem. -/
theorem create_cycle (h : s.showsCycle project = false) (options : Options) :
    s.create project (.cycle project) options =
      s.setMarkers project (s.markers project ++ [.ofStatus project (.cycle project) options]) := by
  rw [create, if_neg]
  rw [Bool.not_eq_true, List.any_eq_false]
  intro marker hmem hsame
  rw [Marker.isSameProblem, Bool.and_eq_true, Bool.and_eq_true, Bool.and_eq_true,
    decide_eq_true_eq] at hsame
  exact List.any_eq_false.mp h marker hmem hsame.1.1.1

private theorem showsCycle_showCycle (s : MarkerStore) (project : String) (options : Options)
    (q : String) : (s.showCycle project options).showsCycle q =
      if project = q then true else s.showsCycle q := by
  unfold showCycle
  dsimp only
  split
  · next hshown =>
    rw [showsCycle_setCycleSeverity]
    split
    · next hq =>
      subst hq
      exact (showsCycle_setCycleSeverity s project _ project).symm.trans hshown
    · rfl
  · next hshown =>
    rw [create_cycle (Bool.not_eq_true _ ▸ hshown), showsCycle_setMarkers]
    split
    · rw [List.any_append]
      exact Bool.or_true _
    · exact showsCycle_setCycleSeverity s project _ q

private theorem tidy_showCycle (h : s.Tidy) (project : String) (options : Options) :
    (s.showCycle project options).Tidy := by
  have hseverity := tidy_setCycleSeverity h project options.circular
  unfold showCycle
  dsimp only
  split
  · exact hseverity
  · next hshown =>
    rw [create_cycle (Bool.not_eq_true _ ▸ hshown)]
    refine hseverity.setMarkers fun marker hmem ↦ ?_
    rcases List.mem_append.mp hmem with hmem | hmem
    · exact hseverity project marker hmem
    · exact List.mem_singleton.mp hmem ▸ Marker.not_isFileFormat_of_isCycle

private theorem showsCycle_validate (h : s.Tidy) (optionsOf : String → Options)
    (participants : List String) (project q : String) :
    (validate optionsOf participants s project).showsCycle q =
      if project = q then decide (q ∈ participants) else s.showsCycle q := by
  unfold validate
  split
  · next hin =>
    rw [showsCycle_showCycle]
    split
    · next hq => exact (decide_eq_true (hq ▸ hin)).symm
    · rfl
  · next hout =>
    rw [showsCycle_flush h]
    split
    · next hq => exact (decide_eq_false (hq ▸ hout)).symm
    · rfl

private theorem tidy_validate (h : s.Tidy) (optionsOf : String → Options) (participants : List String)
    (project : String) : (validate optionsOf participants s project).Tidy := by
  unfold validate
  split
  · exact tidy_showCycle h project _
  · exact h.setMarkers fun marker hmem ↦ h project marker (List.mem_filter.mp hmem).1

/-- Bringing cycle markers in line shows cycles at the participants among the projects, and at no other
of them. -/
theorem showsCycle_validateCycles (h : s.Tidy) (projects participants : List String)
    (optionsOf : String → Options) :
    (s.validateCycles projects participants optionsOf).Tidy ∧
      ∀ q, (s.validateCycles projects participants optionsOf).showsCycle q =
        if q ∈ projects then decide (q ∈ participants) else s.showsCycle q := by
  change (projects.foldl (validate optionsOf participants) s).Tidy ∧
    ∀ q, (projects.foldl (validate optionsOf participants) s).showsCycle q = _
  induction projects generalizing s with
  | nil => exact ⟨h, fun q ↦ rfl⟩
  | cons project projects ih =>
    obtain ⟨htidy, hshows⟩ := ih (tidy_validate h optionsOf participants project)
    refine ⟨htidy, fun q ↦ ?_⟩
    rw [List.foldl_cons, hshows, showsCycle_validate h]
    by_cases hrest : q ∈ projects
    · rw [if_pos hrest, if_pos (List.mem_cons_of_mem _ hrest)]
    · by_cases hq : project = q
      · subst hq
        rw [if_neg hrest, if_pos rfl, if_pos List.mem_cons_self]
      · have hout : q ∉ project :: projects := by simp [Ne.symm hq, hrest]
        rw [if_neg hrest, if_neg hq, if_neg hout]

end MarkerStore

end Buildpath
