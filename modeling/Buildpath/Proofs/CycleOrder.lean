import Buildpath.Proofs.Cycle

/-!
# The order of a cycle search

A search over the same projects in another order visits the same projects and finds the same ones on
cycles. The orders can only differ in projects that lead into a cycle without lying on one: such a
project is found if the cycle was found before its own walk meets it.
-/

namespace Buildpath

open Relation

namespace ProjectGraph

variable {g : ProjectGraph Id} {preferred : PreferredBuildpaths} {projects : List String}

/-! ### Projects that are visited -/

/-- The projects that a search over a list comes to: those listed, and the projects that exist among
those that they require. -/
inductive Reached (g : ProjectGraph Id) (preferred : PreferredBuildpaths) (projects : List String) :
    String → Prop
  | listed {project : String} (h : project ∈ projects) : Reached g preferred projects project
  | required {project required : String} (h : Reached g preferred projects project)
    (hr : g.Requires preferred project required) (hn : required ∈ g.names) :
    Reached g preferred projects required

theorem Reached.of_perm {projects' : List String} (hp : projects.Perm projects') {project : String}
    (h : Reached g preferred projects project) : Reached g preferred projects' project := by
  induction h with
  | listed hm => exact .listed (hp.mem_iff.mp hm)
  | required _ hr hn ih => exact .required ih hr hn

/-- A walk from a project that is come to visits only such projects. -/
theorem reached_of_walkFrom (depth : Nat) : ∀ project w, Reached g preferred projects project →
    (∀ u ∈ w.traversed, Reached g preferred projects u) →
    ∀ u ∈ (g.walkFrom preferred depth project w).run.traversed, Reached g preferred projects u := by
  induction depth with
  | zero => exact fun _ _ _ hw ↦ hw
  | succ depth ih =>
    intro project w hp hw
    rw [walkFrom_succ, CycleWalk.traversed_leave]
    apply List.foldlRecOn (motive := fun w : CycleWalk ↦
      ∀ u ∈ w.traversed, Reached g preferred projects u)
    · intro u hu
      rcases CycleWalk.mem_traversed_enter.mp hu with hu | rfl
      · exact hw u hu
      · exact hp
    · intro w hw required hm
      cases hi : w.closingIndex? required with
      | some index =>
        rw [visit_of_some hi]
        exact hw
      | none =>
        by_cases hk : required ∈ w.traversed ∨ required ∉ g.names
        · rw [visit_of_known hi hk]
          exact hw
        · obtain ⟨ht, hn⟩ := not_or.mp hk
          rw [visit_of_fresh hi ht (Decidable.not_not.mp hn)]
          have hr := mem_requirements.mp hm
          exact ih required w (.required hp hr (Decidable.not_not.mp hn)) hw

/-- A search visits exactly the projects that it comes to. -/
theorem mem_traversed_searchAll {project : String} :
    project ∈ (g.searchAll preferred projects {}).traversed ↔ Reached g preferred projects project := by
  constructor
  · have hsearch : ∀ (rest : List String) (w : CycleWalk), (∀ p ∈ rest, p ∈ projects) →
        (∀ u ∈ w.traversed, Reached g preferred projects u) →
        ∀ u ∈ (g.searchAll preferred rest w).traversed, Reached g preferred projects u := by
      intro rest w hrest hw
      apply List.foldlRecOn (motive := fun w : CycleWalk ↦
        ∀ u ∈ w.traversed, Reached g preferred projects u)
      · exact hw
      · intro w hw first hm
        split
        · exact hw
        · exact reached_of_walkFrom _ first w (.listed (hrest first hm)) hw
    exact hsearch projects {} (fun _ h ↦ h) (fun u hu ↦ absurd hu List.not_mem_nil) project
  · intro h
    obtain ⟨-, ha, hm⟩ := searchAll_searched projects (searched_nil : Searched g preferred _)
    induction h with
    | listed h => exact hm _ h
    | required _ hr hn ih => exact (ha.handled _ ih List.not_mem_nil _ hr).traversed hn

/-- A project on a cycle is reported exactly if the search comes to it. -/
theorem mem_cycleParticipants_of_onCycle {project : String} (hc : g.OnCycle preferred project) :
    project ∈ (g.cycleParticipants preferred projects).run ↔ Reached g preferred projects project := by
  obtain ⟨hs, ha, -⟩ := searchAll_searched projects (searched_nil : Searched g preferred _)
  rw [cycleParticipants_eq, ← mem_traversed_searchAll]
  constructor
  · exact hs.traversed_of_participant project
  · intro ht
    apply hs.participant_of_cycle project ht _ hc
    rw [ha.chain]
    exact List.not_mem_nil

/-- What is reported leads into a cycle. -/
theorem leadsIntoCycle_of_mem {project : String}
    (hm : project ∈ (g.cycleParticipants preferred projects).run) :
    g.LeadsIntoCycle preferred project := by
  rw [cycleParticipants_eq] at hm
  have hempty : Grounded g preferred {} := ⟨List.isChain_nil, by simp⟩
  exact (searchAll_grounded projects hempty rfl).leads project hm

/-! ### Searches over projects that exist -/

/-- What holds between the steps of a search over projects that exist: each project on the chain
requires the next and exists, and as soon as a project is reported, so is one on a cycle. -/
structure Confirmed (g : ProjectGraph Id) (preferred : PreferredBuildpaths) (w : CycleWalk) :
    Prop where
  exist : ∀ u ∈ w.chain, u ∈ g.names
  chained : w.chain.IsChain (g.RequiresExisting preferred)
  turns : w.participants ≠ [] → ∃ turn ∈ w.participants, g.OnCycle preferred turn

/-- Closing the chain at a requirement reports a project on a cycle. -/
private theorem confirmed_closing {w : CycleWalk} (h : Confirmed g preferred w)
    {last required : String} {index : Nat} (hl : w.chain.getLast? = some last)
    (hr : g.Requires preferred last required) (hi : w.closingIndex? required = some index) :
    Confirmed g preferred
      { w with participants := CycleWalk.addNames w.participants (w.chain.drop index) } := by
  refine ⟨h.exist, h.chained, fun _ ↦ ?_⟩
  rcases CycleWalk.closingIndex?_eq_some hi with ⟨hp, -⟩ | ⟨before, after, hc, -, rfl⟩
  · obtain ⟨turn, hm, ht⟩ := h.turns (List.ne_nil_of_mem hp)
    exact ⟨turn, CycleWalk.mem_addNames.mpr (.inl hm), ht⟩
  · have hturn : g.RequiresExisting preferred last required := by
      refine ⟨hr, h.exist last (List.mem_of_getLast? hl), h.exist required ?_⟩
      simp [hc]
    refine ⟨required, CycleWalk.mem_addNames.mpr (.inr ?_), ?_⟩
    · simp [hc]
    · exact chain_reaches (hc ▸ h.chained) (hc ▸ hl) hturn

/-- Entering a project that exists, and that the end of the chain requires. -/
private theorem Confirmed.enter {w : CycleWalk} {project : String} (h : Confirmed g preferred w)
    (hn : project ∈ g.names) (hlast : ∀ last ∈ w.chain.getLast?, g.Requires preferred last project) :
    Confirmed g preferred (w.enter project) := by
  refine ⟨fun u hu ↦ ?_, ?_, h.turns⟩
  · rw [CycleWalk.chain_enter, List.mem_append, List.mem_singleton] at hu
    rcases hu with hu | rfl
    · exact h.exist u hu
    · exact hn
  · rw [CycleWalk.chain_enter, List.isChain_append]
    refine ⟨h.chained, List.isChain_singleton _, fun last hl first hf ↦ ?_⟩
    obtain rfl : project = first := by simpa using hf
    exact ⟨hlast last hl, h.exist last (List.mem_of_getLast? hl), hn⟩

/-- A walk from a project that exists, and that the end of the chain requires, keeps the invariant and
restores the chain. -/
theorem walkFrom_confirmed (depth : Nat) : ∀ project w, Confirmed g preferred w →
    project ∈ g.names → (∀ last ∈ w.chain.getLast?, g.Requires preferred last project) →
    Confirmed g preferred (g.walkFrom preferred depth project w).run ∧
      (g.walkFrom preferred depth project w).run.chain = w.chain := by
  induction depth with
  | zero => exact fun _ _ h _ _ ↦ ⟨h, rfl⟩
  | succ depth ih =>
    intro project w h hn hlast
    rw [walkFrom_succ]
    have hvisited : Confirmed g preferred ((g.requirements preferred project).foldl
        (g.visit preferred depth) (w.enter project)) ∧ ((g.requirements preferred project).foldl
          (g.visit preferred depth) (w.enter project)).chain = w.chain ++ [project] := by
      apply List.foldlRecOn (motive := fun v : CycleWalk ↦
        Confirmed g preferred v ∧ v.chain = w.chain ++ [project])
      · exact ⟨h.enter hn hlast, rfl⟩
      · rintro v ⟨hv, hc⟩ required hm
        have hl : v.chain.getLast? = some project := by simp [hc]
        have hr := mem_requirements.mp hm
        cases hi : v.closingIndex? required with
        | some index =>
          rw [visit_of_some hi]
          exact ⟨confirmed_closing hv hl hr hi, hc⟩
        | none =>
          by_cases hk : required ∈ v.traversed ∨ required ∉ g.names
          · rw [visit_of_known hi hk]
            exact ⟨hv, hc⟩
          · obtain ⟨ht, hn⟩ := not_or.mp hk
            rw [visit_of_fresh hi ht (Decidable.not_not.mp hn)]
            obtain ⟨hv', hc'⟩ := ih required v hv (Decidable.not_not.mp hn) fun last hlast ↦ by
              rw [hl] at hlast
              exact Option.some.inj hlast ▸ hr
            exact ⟨hv', hc'.trans hc⟩
    obtain ⟨hv, hc⟩ := hvisited
    have hleft := CycleWalk.chain_leave ((g.requirements preferred project).foldl
      (g.visit preferred depth) (w.enter project))
    rw [hc, List.dropLast_concat] at hleft
    refine ⟨⟨?_, ?_, hv.turns⟩, hleft⟩
    · rw [hleft]
      exact h.exist
    · rw [hleft]
      exact h.chained

/-- If the listed projects exist, a search that reports anything reports a project on a cycle. -/
theorem exists_onCycle_of_participants (hn : ∀ project ∈ projects, project ∈ g.names)
    (h : (g.cycleParticipants preferred projects).run ≠ []) :
    ∃ turn ∈ (g.cycleParticipants preferred projects).run, g.OnCycle preferred turn := by
  rw [cycleParticipants_eq] at h ⊢
  have hsearch : Confirmed g preferred (g.searchAll preferred projects {}) ∧
      (g.searchAll preferred projects {}).chain = [] := by
    apply List.foldlRecOn (motive := fun w : CycleWalk ↦ Confirmed g preferred w ∧ w.chain = [])
    · exact ⟨⟨by simp, List.isChain_nil, fun h ↦ absurd rfl h⟩, rfl⟩
    · rintro w ⟨hw, hc⟩ first hm
      split
      · exact ⟨hw, hc⟩
      · obtain ⟨hw', hc'⟩ := walkFrom_confirmed (g.names.length + 1) first w hw (hn first hm)
          (by simp [hc])
        exact ⟨hw', hc'.trans hc⟩
  exact hsearch.1.turns h

/-- The order of a search has no influence on which projects on cycles it reports, nor, if the listed
projects exist, on whether it reports any. What it reports in one order only leads into a cycle without
lying on one. -/
theorem cycleParticipants_perm (g : ProjectGraph Id) (preferred : PreferredBuildpaths)
    {projects projects' : List String} (h : projects.Perm projects') :
    (∀ project, g.OnCycle preferred project →
      (project ∈ (g.cycleParticipants preferred projects).run ↔
        project ∈ (g.cycleParticipants preferred projects').run)) ∧
    (∀ project ∈ (g.cycleParticipants preferred projects).run,
      project ∉ (g.cycleParticipants preferred projects').run →
        g.LeadsIntoCycle preferred project ∧ ¬ g.OnCycle preferred project) ∧
    ((∀ project ∈ projects, project ∈ g.names) →
      ((g.cycleParticipants preferred projects).run = [] ↔
        (g.cycleParticipants preferred projects').run = [])) := by
  have same : ∀ {l l' : List String}, l.Perm l' → ∀ project, g.OnCycle preferred project →
      project ∈ (g.cycleParticipants preferred l).run →
        project ∈ (g.cycleParticipants preferred l').run := by
    intro l l' h project hc hm
    rw [mem_cycleParticipants_of_onCycle hc] at hm ⊢
    exact hm.of_perm h
  have none_of : ∀ {l l' : List String}, l.Perm l' → (∀ project ∈ l', project ∈ g.names) →
      (g.cycleParticipants preferred l).run = [] → (g.cycleParticipants preferred l').run = [] := by
    intro l l' h hn hnone
    by_contra hsome
    obtain ⟨turn, hm, hc⟩ := exists_onCycle_of_participants hn hsome
    have hm' := same h.symm turn hc hm
    rw [hnone] at hm'
    exact List.not_mem_nil hm'
  refine ⟨fun project hc ↦ ⟨same h project hc, same h.symm project hc⟩, ?_, ?_⟩
  · intro project hm hn
    refine ⟨leadsIntoCycle_of_mem hm, fun hc ↦ ?_⟩
    exact hn (same h project hc hm)
  · intro hn
    exact ⟨none_of h fun p hp ↦ hn p (h.mem_iff.mpr hp), none_of h.symm hn⟩

/-- A project that requires one of a pair is reported only if the pair was searched before it. -/
theorem cycleParticipants_pair_orders :
    ["a", "b", "c"].Perm ["c", "a", "b"] ∧
      (pairGraph.cycleParticipants [] ["a", "b", "c"]).run = ["a", "b", "c"] ∧
      (pairGraph.cycleParticipants [] ["c", "a", "b"]).run = ["a", "b"] := by
  decide

/-- What the two orders disagree on is no part of the pair. -/
theorem cycleParticipants_perm_pair :
    ["a", "b", "c"].Perm ["c", "a", "b"] ∧
      "c" ∈ (pairGraph.cycleParticipants [] ["a", "b", "c"]).run ∧
      "c" ∉ (pairGraph.cycleParticipants [] ["c", "a", "b"]).run ∧
      (∀ project ∈ ["a", "b", "c"], project ∈ pairGraph.names) ∧
      pairGraph.LeadsIntoCycle [] "c" ∧ ¬ pairGraph.OnCycle [] "c" := by
  have hp : ["a", "b", "c"].Perm ["c", "a", "b"] := by decide
  have hm : "c" ∈ (pairGraph.cycleParticipants [] ["a", "b", "c"]).run := by decide
  have hn : "c" ∉ (pairGraph.cycleParticipants [] ["c", "a", "b"]).run := by decide
  exact ⟨hp, hm, hn, by decide, (cycleParticipants_perm pairGraph [] hp).2.1 "c" hm hn⟩

end ProjectGraph

end Buildpath
