import Buildpath.Proofs.CycleOrder

/-!
# Cycles that a buildpath would close

Before a project gets a buildpath, a single walk from it tells whether a cycle could then be reached. The
project itself need not exist yet. The walk finds a cycle exactly if there is one (`hasCycle_iff`): it goes
as it would if the project existed, and such a walk comes to all that the project leads to.
-/

namespace Buildpath

open Relation

namespace ProjectGraph

variable {g : ProjectGraph Id} {preferred : PreferredBuildpaths} {start : String}
  {buildpath : List Entry} {w : CycleWalk}

/-- The same buildpaths, where one more project counts as existing. -/
def including (g : ProjectGraph Id) (start : String) : ProjectGraph Id :=
  { g with names := start :: g.names }

/-- Whether a walk from a project that is given a buildpath can follow a requirement: the required
project exists, or is the project that the walk started from. -/
def Follows (g : ProjectGraph Id) (start : String) (buildpath : List Entry)
    (project required : String) : Prop :=
  g.Requires [(start, buildpath)] project required ∧ (required = start ∨ required ∈ g.names)

/-! ### A walk goes on from its start as if that existed -/

/-- Whether walks of some depth go alike once the start was visited, whether it exists or not. -/
private def GoesAlike (g : ProjectGraph Id) (preferred : PreferredBuildpaths) (start : String)
    (depth : Nat) : Prop :=
  ∀ project w, start ∈ w.traversed →
    ((g.including start).walkFrom preferred depth project w).run =
        (g.walkFrom preferred depth project w).run ∧
      start ∈ (g.walkFrom preferred depth project w).run.traversed

/-- A requirement is visited alike, if the walks below go alike. -/
private theorem visit_including {depth : Nat} (hw : GoesAlike g preferred start depth)
    (h : start ∈ w.traversed) (required : String) :
    (g.including start).visit preferred depth w required = g.visit preferred depth w required ∧
      start ∈ (g.visit preferred depth w required).traversed := by
  cases hi : w.closingIndex? required with
  | some index =>
    rw [visit_of_some hi, visit_of_some hi]
    exact ⟨rfl, h⟩
  | none =>
    by_cases hk : required ∈ w.traversed ∨ required ∉ g.names
    · -- the start was visited, so it makes no difference that it counts as existing
      have hk' : required ∈ w.traversed ∨ required ∉ (g.including start).names := by
        by_cases hstart : required = start
        · exact .inl (hstart ▸ h)
        · exact hk.imp_right fun hn hm ↦ hn ((List.mem_cons.mp hm).resolve_left hstart)
      rw [visit_of_known hi hk, visit_of_known hi hk']
      exact ⟨rfl, h⟩
    · obtain ⟨ht, hn⟩ := not_or.mp hk
      rw [Decidable.not_not] at hn
      rw [visit_of_fresh hi ht hn, visit_of_fresh hi ht (List.mem_cons_of_mem _ hn)]
      exact hw required w h

/-- All requirements of a project are visited alike, if the walks below go alike. -/
private theorem foldl_visit_including {depth : Nat} (hw : GoesAlike g preferred start depth)
    (requirements : List String) (h : start ∈ w.traversed) :
    requirements.foldl ((g.including start).visit preferred depth) w =
        requirements.foldl (g.visit preferred depth) w ∧
      start ∈ (requirements.foldl (g.visit preferred depth) w).traversed := by
  induction requirements generalizing w with
  | nil => exact ⟨rfl, h⟩
  | cons first rest ih =>
    obtain ⟨heq, hfirst⟩ := visit_including hw h first
    rw [List.foldl_cons, List.foldl_cons, heq]
    exact ih hfirst

/-- Once its start was visited, a walk goes on as if the start existed. -/
private theorem walkFrom_including (depth : Nat) : GoesAlike g preferred start depth := by
  induction depth with
  | zero => exact fun _ _ h ↦ ⟨rfl, h⟩
  | succ depth ih =>
    intro project w h
    obtain ⟨heq, hrest⟩ := foldl_visit_including ih (g.requirements preferred project)
      (CycleWalk.mem_traversed_enter.mpr (.inl h))
    rw [walkFrom_succ, walkFrom_succ]
    exact ⟨congrArg CycleWalk.leave heq, hrest⟩

/-- A walk goes as if its start existed. -/
theorem walkFrom_start (depth : Nat) (w : CycleWalk) :
    ((g.including start).walkFrom preferred depth start w).run =
      (g.walkFrom preferred depth start w).run := by
  cases depth with
  | zero => rfl
  | succ depth =>
    rw [walkFrom_succ, walkFrom_succ]
    exact congrArg CycleWalk.leave (foldl_visit_including (walkFrom_including depth) _
      (CycleWalk.mem_traversed_enter.mpr (.inr rfl))).1

/-! ### What the walk can reach -/

/-- What can be reached from the start exists, or is the start. -/
private theorem mem_names_of_reached {project : String}
    (h : ReflTransGen (g.Follows start buildpath) start project) :
    project ∈ (g.including start).names := by
  cases h with
  | refl => exact List.mem_cons_self
  | tail _ hstep => exact List.mem_cons.mpr hstep.2

/-- A requirement that a walk follows is one between projects that exist, if the start counts as one. -/
private theorem Follows.existing {project required : String} (h : g.Follows start buildpath project required)
    (hn : project ∈ (g.including start).names) :
    (g.including start).RequiresExisting [(start, buildpath)] project required :=
  ⟨h.1, hn, List.mem_cons.mpr h.2⟩

private theorem follows_of_existing {project required : String}
    (h : (g.including start).RequiresExisting [(start, buildpath)] project required) :
    g.Follows start buildpath project required :=
  ⟨h.1, List.mem_cons.mp h.2.2⟩

/-- What a walk comes to can be reached from its start. -/
private theorem reached_from_start {project : String}
    (h : Reached (g.including start) [(start, buildpath)] [start] project) :
    ReflTransGen (g.Follows start buildpath) start project := by
  induction h with
  | listed hm => rw [List.mem_singleton.mp hm]
  | required _ hr hn ih => exact ih.tail ⟨hr, List.mem_cons.mp hn⟩

/-- A cycle of projects that can be reached is one of projects that exist. -/
private theorem onCycle_of_reached {turn : String}
    (hreach : ReflTransGen (g.Follows start buildpath) start turn)
    (hcycle : TransGen (g.Follows start buildpath) turn turn) :
    (g.including start).OnCycle [(start, buildpath)] turn := by
  suffices h : ∀ v, TransGen (g.Follows start buildpath) turn v →
      TransGen ((g.including start).RequiresExisting [(start, buildpath)]) turn v from h turn hcycle
  intro v hv
  induction hv with
  | single hstep => exact .single (hstep.existing (mem_names_of_reached hreach))
  | tail hv hstep ih =>
    exact ih.tail (hstep.existing (mem_names_of_reached (hreach.trans hv.to_reflTransGen)))

/-- What holds of the walk from a project that is given a buildpath: it searched all that can be reached
from there, and nothing else. -/
private structure Tried (g : ProjectGraph Id) (start : String) (buildpath : List Entry) (w : CycleWalk) :
    Prop where
  searched : Searched (g.including start) [(start, buildpath)] w
  confirmed : Confirmed (g.including start) [(start, buildpath)] w
  chain : w.chain = []
  traversed : ∀ project, project ∈ w.traversed ↔ ReflTransGen (g.Follows start buildpath) start project

/-- A walk from a project searches all that can be reached from there. -/
private theorem tried_walk (g : ProjectGraph Id) (start : String) (buildpath : List Entry) :
    Tried g start buildpath (g.walk [(start, buildpath)] start {}).run := by
  have hwalk : (g.walk [(start, buildpath)] start {}).run =
      ((g.including start).walkFrom [(start, buildpath)] (g.names.length + 1) start {}).run :=
    (walkFrom_start _ _).symm
  have hdepth : (g.including start).remaining (({} : CycleWalk).enter start) < g.names.length + 1 := by
    have hlt : (g.including start).remaining (({} : CycleWalk).enter start) <
      (g.including start).remaining {} := remaining_enter_lt List.mem_cons_self List.not_mem_nil
    exact Nat.lt_of_lt_of_le hlt (remaining_le_length _)
  have hnothing : Confirmed (g.including start) [(start, buildpath)] {} :=
    ⟨by simp, List.isChain_nil, fun h ↦ absurd rfl h⟩
  obtain ⟨hsearched, hadvance, hstart⟩ := walkFrom_searched (g.names.length + 1) start {}
    (searched_nil : Searched (g.including start) [(start, buildpath)] {}) List.not_mem_nil hdepth
  obtain ⟨hconfirmed, -⟩ := walkFrom_confirmed (g.names.length + 1) start {} hnothing List.mem_cons_self
    (by simp)
  have hreached : ∀ project ∈ (g.walk [(start, buildpath)] start {}).run.traversed,
      Reached (g.including start) [(start, buildpath)] [start] project := hwalk ▸
    reached_of_walkFrom (g.names.length + 1) start {} (.listed (List.mem_singleton_self _)) (by simp)
  rw [← hwalk] at hsearched hadvance hstart hconfirmed
  refine ⟨hsearched, hconfirmed, hadvance.chain, fun project ↦ ⟨fun h ↦
    reached_from_start (hreached project h), fun h ↦ ?_⟩⟩
  -- the requirements of all that was visited were met
  induction h with
  | refl => exact hstart
  | tail hpath hstep ih =>
    exact hsearched.closed _ ih (hadvance.chain ▸ List.not_mem_nil) _
      (hstep.existing (mem_names_of_reached hpath))

/-- In every graph of projects, whatever buildpath a project is given, the walk from it reports a cycle
exactly if one can be reached: some project that the given buildpath leads to, over projects that exist,
leads back to itself over such projects. The project counts among them, whether it exists or not. Missing
projects, and those whose buildpaths cannot be read, lead nowhere. -/
theorem hasCycle_iff (g : ProjectGraph Id) (start : String) (buildpath : List Entry) :
    (g.hasCycle start buildpath).run = true ↔
      ∃ turn, ReflTransGen (g.Follows start buildpath) start turn ∧
        TransGen (g.Follows start buildpath) turn turn := by
  have htried := tried_walk g start buildpath
  have hfound : (g.hasCycle start buildpath).run = true ↔
      (g.walk [(start, buildpath)] start {}).run.participants ≠ [] := by
    change (!(g.walk [(start, buildpath)] start {}).run.participants.isEmpty) = true ↔ _
    rw [Bool.not_eq_true', List.isEmpty_eq_false_iff]
  rw [hfound]
  generalize (g.walk [(start, buildpath)] start {}).run = w at htried
  constructor
  · intro hsome
    obtain ⟨turn, hm, hcycle⟩ := htried.confirmed.turns hsome
    exact ⟨turn, (htried.traversed turn).mp (htried.searched.traversed_of_participant turn hm),
      hcycle.lift id fun _ _ ↦ follows_of_existing⟩
  · rintro ⟨turn, hreach, hcycle⟩
    exact List.ne_nil_of_mem (htried.searched.participant_of_cycle turn ((htried.traversed turn).mpr hreach)
      (htried.chain ▸ List.not_mem_nil) (onCycle_of_reached hreach hcycle))

/-- A project that exists and requires a second one, which does not require anything yet. -/
def openChain : ProjectGraph Id where
  names := ["a", "b"]
  entries? project := some (if project = "a" then [.project ⟨none, true, ["b"]⟩] else [])

/-- The second project of the chain would close it by requiring the first one. A project that does not
exist yet would close it by requiring itself, but not by requiring the chain. -/
example : (openChain.hasCycle "b" []).run = false ∧
    (openChain.hasCycle "b" [.project ⟨none, true, ["a"]⟩]).run = true ∧
    (openChain.hasCycle "new" [.project ⟨none, true, ["a"]⟩]).run = false ∧
    (openChain.hasCycle "new" [.project ⟨none, true, ["new"]⟩]).run = true := by
  decide

end ProjectGraph

end Buildpath
