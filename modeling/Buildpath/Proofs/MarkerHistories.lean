import Buildpath.Proofs.Markers

/-!
# Histories of marker stores

Markers come and go in three ways: a problem is shown, markers are flushed, and cycle markers are brought
in line with a list of projects (`MarkerStore.Step`). Each way keeps two things (`MarkerStore.Sound`): no
problem is shown twice, and a cycle marker tells the cycle of the project that it is shown at. So in every
store that such steps lead to, bringing cycle markers in line leaves exactly one marker at each participant
and none at the other listed projects, and it leaves everything else alone (`MarkerStore.markers_in_line`).
-/

namespace Buildpath

namespace Marker

variable {a b : Marker}

theorem isSameProblem_iff : a.isSameProblem b ↔ a.isCycle = b.isCycle ∧
    a.isFileFormat = b.isFileFormat ∧ a.message = b.message ∧ a.arguments = b.arguments := by
  simp [isSameProblem, and_assoc]

/-- Cycle markers of one project are about one problem, however severe they are. -/
theorem isSameProblem_cycle (project : String) (options options' : Options) :
    (ofStatus project (.cycle project) options).isSameProblem
      (ofStatus project (.cycle project) options') :=
  isSameProblem_iff.mpr ⟨rfl, rfl, rfl, rfl⟩

end Marker

namespace MarkerStore

variable {s s' : MarkerStore} {project : String}

/-- The cycle markers of a project. -/
def cycleMarkers (s : MarkerStore) (project : String) : List Marker :=
  (s.markers project).filter Marker.isCycle

/-- The other markers of a project. -/
def otherMarkers (s : MarkerStore) (project : String) : List Marker :=
  (s.markers project).filter fun marker ↦ !marker.isCycle

/-- Whether a project holds no two markers about one problem. -/
def ShowsOnce (s : MarkerStore) (project : String) : Prop :=
  (s.markers project).Pairwise fun a b ↦ ¬ a.isSameProblem b

/-- The ways in which markers come and go. A cycle is shown at the project that it is the cycle of. -/
inductive Step : MarkerStore → MarkerStore → Prop
  | create (s : MarkerStore) (project : String) (status : Status) (options : Options)
      (own : ∀ name, status = .cycle name → name = project) :
      Step s (s.create project status options)
  | flush (s : MarkerStore) (project : String) (cycles formats : Bool) :
      Step s (s.flush project cycles formats)
  | validateCycles (s : MarkerStore) (projects participants : List String)
      (optionsOf : String → Options) :
      Step s (s.validateCycles projects participants optionsOf)

/-- The stores that steps lead to from one without markers. -/
inductive Reached : MarkerStore → Prop
  | empty : Reached {}
  | step {s s' : MarkerStore} : Reached s → Step s s' → Reached s'

/-- No problem is shown twice, and a cycle marker is that of the project that it is shown at. -/
structure Sound (s : MarkerStore) : Prop where
  once : ∀ project, s.ShowsOnce project
  cycle : ∀ project, ∀ marker ∈ s.markers project, marker.isCycle →
    ∃ options, marker = .ofStatus project (.cycle project) options

theorem Sound.setMarkers (h : s.Sound) {markers : List Marker}
    (honce : markers.Pairwise fun a b ↦ ¬ a.isSameProblem b)
    (hcycle : ∀ marker ∈ markers, marker.isCycle →
      ∃ options, marker = .ofStatus project (.cycle project) options) :
    (s.setMarkers project markers).Sound := by
  constructor
  · intro q
    rw [ShowsOnce, markers_setMarkers]
    split
    · exact honce
    · exact h.once q
  · intro q marker hmem
    rw [markers_setMarkers] at hmem
    split at hmem
    · next hq => exact hq ▸ hcycle marker hmem
    · exact h.cycle q marker hmem

/-! ### What a step keeps -/

theorem Sound.create (h : s.Sound) {status : Status} (own : ∀ name, status = .cycle name → name = project)
    (options : Options) : (s.create project status options).Sound := by
  unfold MarkerStore.create
  dsimp only
  split
  · exact h
  · next hnew =>
    rw [Bool.not_eq_true, List.any_eq_false] at hnew
    refine h.setMarkers (List.pairwise_append.mpr ⟨h.once project, List.pairwise_singleton _ _, ?_⟩) ?_
    · intro marker hmem other hother
      obtain rfl := List.mem_singleton.mp hother
      exact hnew marker hmem
    · intro marker hmem hcycle
      rcases List.mem_append.mp hmem with hmem | hmem
      · exact h.cycle project marker hmem hcycle
      · obtain rfl := List.mem_singleton.mp hmem
        by_cases hstatus : ∃ name, status = .cycle name
        · obtain ⟨name, rfl⟩ := hstatus
          obtain rfl := own name rfl
          exact ⟨options, rfl⟩
        · rw [Marker.isCycle_ofStatus fun name he ↦ hstatus ⟨name, he⟩] at hcycle
          cases hcycle

theorem Sound.flush (h : s.Sound) (project : String) (cycles formats : Bool) :
    (s.flush project cycles formats).Sound :=
  h.setMarkers ((h.once project).sublist List.filter_sublist)
    fun marker hmem ↦ h.cycle project marker (List.mem_filter.mp hmem).1

/-- A marker with another severity is about the same problem. -/
theorem Sound.setCycleSeverity (h : s.Sound) (project : String) (severity : Severity) :
    (s.setCycleSeverity project severity).Sound := by
  refine h.setMarkers (List.pairwise_map.mpr ((h.once project).imp ?_)) fun marker hmem hcycle ↦ ?_
  · intro a b hab hsame
    refine hab (Marker.isSameProblem_iff.mpr ?_)
    have := Marker.isSameProblem_iff.mp hsame
    split at this <;> split at this <;> exact this
  · obtain ⟨given, hgiven, rfl⟩ := List.mem_map.mp hmem
    split at hcycle
    · next hgivenCycle =>
      obtain ⟨options, rfl⟩ := h.cycle project given hgiven hgivenCycle
      exact ⟨{ options with circular := severity }, rfl⟩
    · next hgivenCycle => exact absurd hcycle hgivenCycle

theorem Sound.showCycle (h : s.Sound) (project : String) (options : Options) :
    (s.showCycle project options).Sound := by
  have hseverity := h.setCycleSeverity project options.circular
  unfold MarkerStore.showCycle
  dsimp only
  split
  · exact hseverity
  · exact hseverity.create (fun name he ↦ (Status.cycle.inj he).symm) options

theorem Sound.validateCycles (h : s.Sound) (projects participants : List String)
    (optionsOf : String → Options) : (s.validateCycles projects participants optionsOf).Sound := by
  unfold MarkerStore.validateCycles
  induction projects generalizing s with
  | nil => exact h
  | cons project projects ih =>
    rw [List.foldl_cons]
    refine ih ?_
    split
    · exact h.showCycle project _
    · exact h.flush project true false

theorem Sound.step (h : s.Sound) (hs : Step s s') : s'.Sound := by
  cases hs with
  | create project status options own => exact h.create own options
  | flush project cycles formats => exact h.flush project cycles formats
  | validateCycles projects participants optionsOf =>
    exact h.validateCycles projects participants optionsOf

/-- Every store that steps lead to is sound. -/
theorem Reached.sound (h : s.Reached) : s.Sound := by
  induction h with
  | empty => exact ⟨fun _ ↦ List.Pairwise.nil, fun _ _ hmem ↦ absurd hmem List.not_mem_nil⟩
  | step _ hs ih => exact ih.step hs

/-! ### Bringing cycle markers in line -/

/-- A sound store has at most one cycle marker for a project. -/
theorem Sound.cycleMarkers_cases (h : s.Sound) (project : String) : s.cycleMarkers project = [] ∨
    ∃ options, s.cycleMarkers project = [.ofStatus project (.cycle project) options] := by
  have honce : (s.cycleMarkers project).Pairwise fun a b ↦ ¬ a.isSameProblem b :=
    (h.once project).sublist List.filter_sublist
  have hcycle : ∀ marker ∈ s.cycleMarkers project,
      ∃ options, marker = .ofStatus project (.cycle project) options := fun marker hmem ↦
    h.cycle project marker (List.mem_filter.mp hmem).1 (List.mem_filter.mp hmem).2
  match hmarkers : s.cycleMarkers project with
  | [] => exact .inl rfl
  | [marker] =>
    obtain ⟨options, rfl⟩ := hcycle marker (by simp [hmarkers])
    exact .inr ⟨options, rfl⟩
  | first :: second :: rest =>
    obtain ⟨options, rfl⟩ := hcycle first (by simp [hmarkers])
    obtain ⟨options', rfl⟩ := hcycle second (by simp [hmarkers])
    rw [hmarkers] at honce
    exact absurd (Marker.isSameProblem_cycle project options options')
      (List.rel_of_pairwise_cons honce List.mem_cons_self)

private theorem showsCycle_eq (s : MarkerStore) (project : String) :
    s.showsCycle project = !(s.cycleMarkers project).isEmpty := by
  rw [showsCycle, cycleMarkers, Bool.eq_iff_iff]
  simp [List.filter_eq_nil_iff]

private theorem markers_flush (s : MarkerStore) (project : String) (cycles formats : Bool) (q : String) :
    (s.flush project cycles formats).markers q = if project = q
      then (s.markers project).filter fun marker ↦ !isFlushed cycles formats marker
      else s.markers q :=
  markers_setMarkers s project _ q

/-- Flushing cycle markers leaves the other markers. -/
private theorem markers_flush_cycles (h : s.Sound) (project : String) :
    (s.flush project true false).markers project = s.otherMarkers project := by
  rw [markers_flush, if_pos rfl, otherMarkers]
  refine List.filter_congr fun marker hmem ↦ ?_
  cases hcycle : marker.isCycle with
  | false => simp [isFlushed, hcycle]
  | true =>
    obtain ⟨options, rfl⟩ := h.cycle project marker hmem hcycle
    rfl

private theorem filter_setCycleSeverity (s : MarkerStore) (project : String) (severity : Severity) :
    (s.setCycleSeverity project severity).cycleMarkers project =
        (s.cycleMarkers project).map (fun marker ↦ { marker with severity }) ∧
      (s.setCycleSeverity project severity).otherMarkers project = s.otherMarkers project := by
  have hkeep : (Marker.isCycle ∘ fun marker : Marker ↦
      if marker.isCycle then { marker with severity } else marker) = Marker.isCycle := by
    funext marker
    rw [Function.comp]
    split <;> rfl
  rw [cycleMarkers, otherMarkers, setCycleSeverity, markers_setMarkers, if_pos rfl, List.filter_map,
    List.filter_map, hkeep]
  constructor
  · refine List.map_congr_left fun marker hmem ↦ ?_
    rw [if_pos (List.mem_filter.mp hmem).2]
  · have hother : ((fun marker ↦ !Marker.isCycle marker) ∘ fun marker : Marker ↦
        if marker.isCycle then { marker with severity } else marker) =
        fun marker ↦ !marker.isCycle := by
      funext marker
      exact congrArg not (congrFun hkeep marker)
    rw [hother]
    refine (List.map_congr_left fun marker hmem ↦ ?_).trans (List.map_id _)
    rw [if_neg (by simpa using (List.mem_filter.mp hmem).2)]
    rfl

/-- Showing the cycle at a project leaves one cycle marker, of the severity that the options give. -/
private theorem filter_showCycle (h : s.Sound) (project : String) (options : Options) :
    (s.showCycle project options).cycleMarkers project =
        [.ofStatus project (.cycle project) options] ∧
      (s.showCycle project options).otherMarkers project = s.otherMarkers project := by
  obtain ⟨hcycles, hothers⟩ := filter_setCycleSeverity s project options.circular
  have hshown := showsCycle_eq (s.setCycleSeverity project options.circular) project
  unfold MarkerStore.showCycle
  dsimp only
  rw [← showsCycle]
  rcases h.cycleMarkers_cases project with hnone | ⟨given, hone⟩
  · rw [hnone, List.map_nil] at hcycles
    rw [hcycles, List.isEmpty_nil, Bool.not_true] at hshown
    rw [hshown, if_neg Bool.false_ne_true, create_cycle hshown]
    unfold cycleMarkers at hcycles ⊢
    unfold otherMarkers at hothers ⊢
    rw [markers_setMarkers, if_pos rfl, List.filter_append, List.filter_append, hcycles, hothers]
    exact ⟨rfl, List.append_nil _⟩
  · rw [hone] at hcycles
    rw [hcycles] at hshown
    rw [hshown]
    exact ⟨hcycles, hothers⟩

private theorem markers_showCycle_ne (s : MarkerStore) {project q : String} (h : project ≠ q)
    (options : Options) : (s.showCycle project options).markers q = s.markers q := by
  unfold MarkerStore.showCycle MarkerStore.create setCycleSeverity
  dsimp only
  split
  · rw [markers_setMarkers, if_neg h]
  · split
    · rw [markers_setMarkers, if_neg h]
    · rw [markers_setMarkers, if_neg h, markers_setMarkers, if_neg h]

/-- The cycle markers of one project after they were brought in line. -/
private def inLine (optionsOf : String → Options) (participants : List String) (project : String) :
    List Marker :=
  if project ∈ participants then [.ofStatus project (.cycle project) (optionsOf project)] else []

/-- One project is brought in line, and the others keep their markers. -/
private theorem markers_align (h : s.Sound) (optionsOf : String → Options) (participants : List String)
    (aligned : String) :
    let s' := if aligned ∈ participants then s.showCycle aligned (optionsOf aligned)
      else s.flush aligned true false
    s'.cycleMarkers aligned = inLine optionsOf participants aligned ∧
      s'.otherMarkers aligned = s.otherMarkers aligned ∧
      ∀ project, aligned ≠ project → s'.markers project = s.markers project := by
  unfold inLine
  split
  · obtain ⟨hcycles, hothers⟩ := filter_showCycle h aligned (optionsOf aligned)
    exact ⟨hcycles, hothers, fun project hne ↦ markers_showCycle_ne s hne _⟩
  · have hflush := markers_flush_cycles h aligned
    refine ⟨?_, ?_, fun project hne ↦ (markers_flush s aligned true false project).trans (if_neg hne)⟩
    · rw [cycleMarkers, hflush, otherMarkers, List.filter_filter]
      simp
    · rw [otherMarkers, hflush, otherMarkers, List.filter_filter]
      simp

/-- What bringing cycle markers in line comes to at a project of a sound store. -/
private theorem markers_validateCycles (h : s.Sound) (projects participants : List String)
    (optionsOf : String → Options) (project : String) :
    let s' := s.validateCycles projects participants optionsOf
    (project ∈ projects → s'.cycleMarkers project = inLine optionsOf participants project) ∧
      (project ∉ projects → s'.markers project = s.markers project) ∧
      s'.otherMarkers project = s.otherMarkers project := by
  induction projects generalizing s with
  | nil => exact ⟨nofun, fun _ ↦ rfl, rfl⟩
  | cons aligned projects ih =>
    have hsound := h.validateCycles [aligned] participants optionsOf
    obtain ⟨hcycles, hothers, hrest⟩ := markers_align h optionsOf participants aligned
    obtain ⟨hlisted, hunlisted, hkept⟩ := ih hsound
    have hsame : (s.validateCycles [aligned] participants optionsOf).otherMarkers project =
        s.otherMarkers project := by
      by_cases hproject : aligned = project
      · exact hproject ▸ hothers
      · exact congrArg (List.filter _) (hrest project hproject)
    refine ⟨fun hmem ↦ ?_, fun hmem ↦ ?_, hkept.trans hsame⟩
    · by_cases hlater : project ∈ projects
      · exact hlisted hlater
      · obtain rfl := (List.mem_cons.mp hmem).resolve_right hlater
        exact (congrArg (List.filter _) (hunlisted hlater)).trans hcycles
    · rw [List.mem_cons, not_or] at hmem
      exact (hunlisted hmem.2).trans (hrest project (Ne.symm hmem.1))

/-- In every store that steps lead to from an empty one no problem is shown twice at a project. Bringing
cycle markers in line leaves at each listed project that takes part in a cycle one cycle marker, of the
severity that its options give, and none at the other listed projects. It leaves the other markers and
their order as they are, and all markers of the projects that are not listed. -/
theorem markers_in_line (h : s.Reached) :
    (∀ project, s.ShowsOnce project) ∧
    ∀ projects participants optionsOf,
      let s' := s.validateCycles projects participants optionsOf
      (∀ project ∈ projects, s'.cycleMarkers project =
        if project ∈ participants then [.ofStatus project (.cycle project) (optionsOf project)]
        else []) ∧
      (∀ project, s'.otherMarkers project = s.otherMarkers project) ∧
      ∀ project ∉ projects, s'.markers project = s.markers project := by
  refine ⟨h.sound.once, fun projects participants optionsOf ↦ ⟨fun project hmem ↦ ?_,
    fun project ↦ ?_, fun project hmem ↦ ?_⟩⟩
  all_goals
    obtain ⟨hlisted, hunlisted, hothers⟩ :=
      markers_validateCycles h.sound projects participants optionsOf project
  · exact hlisted hmem
  · exact hothers
  · exact hunlisted hmem

/-- A store in which two projects take part in a cycle and one of them has another problem, too. -/
def crossedAndUnbound : MarkerStore :=
  (MarkerStore.create {} "p" (.unboundContainer "p" (.parse "X")) {}).validateCycles ["p", "q"]
    ["q", "p"] fun _ ↦ {}

theorem reached_crossedAndUnbound : crossedAndUnbound.Reached :=
  .step (.step .empty (.create {} "p" (.unboundContainer "p" (.parse "X")) {} fun _ ↦ nofun))
    (.validateCycles _ _ _ _)

/-- When one of the two leaves the cycle, its marker goes; that of the other one gets the severity of the
options of the moment, and the other problem stays. -/
theorem crossedAndUnbound_in_line :
    crossedAndUnbound.Reached ∧ crossedAndUnbound.ShowsOnce "p" ∧
      let s := crossedAndUnbound.validateCycles ["p", "q"] ["p"] fun _ ↦ { circular := .warning }
      (s.cycleMarkers "p").map Marker.severity = [.warning] ∧ s.cycleMarkers "q" = [] ∧
        (s.otherMarkers "p").map Marker.code = ["unbound-container"] := by
  obtain ⟨honce, haligned⟩ := markers_in_line reached_crossedAndUnbound
  obtain ⟨hcycles, hothers, -⟩ := haligned ["p", "q"] ["p"] fun _ ↦ { circular := .warning }
  refine ⟨reached_crossedAndUnbound, honce "p", ?_, hcycles "q" (by decide), ?_⟩
  · rw [hcycles "p" (by decide)]
    rfl
  · rw [hothers "p"]
    decide

end MarkerStore

end Buildpath
