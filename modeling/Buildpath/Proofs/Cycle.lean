import Buildpath.Cycle
import Mathlib.Data.List.Chain
import Mathlib.Logic.Relation

/-!
# Completeness and soundness of the cycle search

One depth-first pass, with sets of visited and of participating projects that all walks share, still
finds every listed project that lies on a cycle, and nothing that does not lead into one.
-/

namespace Buildpath

open Relation

namespace CycleWalk

/-- Adding names keeps those there and has the new ones. -/
@[simp]
theorem mem_addNames {name : String} {names new : List String} :
    name ∈ addNames names new ↔ name ∈ names ∨ name ∈ new := by
  induction new generalizing names with
  | nil => simp [addNames]
  | cons first rest ih =>
    change name ∈ addNames (if first ∈ names then names else names ++ [first]) rest ↔ _
    rw [ih]
    by_cases hf : first ∈ names
    · rw [if_pos hf, List.mem_cons]
      constructor
      · rintro (h | h)
        · exact .inl h
        · exact .inr (.inr h)
      · rintro (h | rfl | h)
        · exact .inl h
        · exact .inl hf
        · exact .inr h
    · rw [if_neg hf, List.mem_append, List.mem_singleton, List.mem_cons, or_assoc]

@[simp]
theorem chain_enter (w : CycleWalk) (project : String) :
    (w.enter project).chain = w.chain ++ [project] := rfl

@[simp]
theorem mem_traversed_enter {w : CycleWalk} {project name : String} :
    name ∈ (w.enter project).traversed ↔ name ∈ w.traversed ∨ name = project := by
  simp [enter]

@[simp]
theorem chain_leave (w : CycleWalk) : w.leave.chain = w.chain.dropLast := rfl

@[simp]
theorem traversed_leave (w : CycleWalk) : w.leave.traversed = w.traversed := rfl

/-- A required project closes no chain exactly if it neither participates nor is on the chain. -/
theorem closingIndex?_eq_none {w : CycleWalk} {required : String} :
    w.closingIndex? required = none ↔ required ∉ w.participants ∧ required ∉ w.chain := by
  unfold closingIndex?
  by_cases h : required ∈ w.participants
  · simp [h]
  · rw [if_neg h, List.findIdx?_eq_none_iff]
    simp only [decide_eq_false_iff_not, h, not_false_eq_true, true_and]
    exact ⟨fun ha hm ↦ ha _ hm rfl, fun hn x hx he ↦ hn (he ▸ hx)⟩

/-- A participant closes the whole chain, another project on the chain the part from there on. -/
theorem closingIndex?_eq_some {w : CycleWalk} {required : String} {index : Nat}
    (h : w.closingIndex? required = some index) :
    (required ∈ w.participants ∧ index = 0) ∨
      ∃ before after, w.chain = before ++ required :: after ∧ required ∉ before ∧
        index = before.length := by
  unfold closingIndex? at h
  split at h
  · next hp => exact .inl ⟨hp, (Option.some.inj h).symm⟩
  · obtain ⟨hi, heq, hbefore⟩ := List.findIdx?_eq_some_iff_getElem.mp h
    refine .inr ⟨w.chain.take index, w.chain.drop (index + 1), ?_, ?_, ?_⟩
    · rw [← of_decide_eq_true heq, ← List.drop_eq_getElem_cons hi, List.take_append_drop]
    · intro hm
      obtain ⟨j, hj, he⟩ := List.mem_take_iff_getElem.mp hm
      exact hbefore j (by omega) (by simpa using he)
    · rw [List.length_take]
      omega

end CycleWalk

namespace ProjectGraph

/-- A project requires another: its buildpath, the preferred one if there is one, can be read and
has a project entry whose first segment names the other. -/
def Requires (g : ProjectGraph Id) (preferred : PreferredBuildpaths) (project required : String) :
    Prop :=
  ∃ entries, (g.entriesWith preferred project).run = some entries ∧
    ∃ e ∈ entries, e.kind = .project ∧ e.path.firstSegment? = some required

/-- A requirement between projects that exist. -/
def RequiresExisting (g : ProjectGraph Id) (preferred : PreferredBuildpaths)
    (project required : String) : Prop :=
  g.Requires preferred project required ∧ project ∈ g.names ∧ required ∈ g.names

/-- A project on a directed cycle of projects that all exist. -/
def OnCycle (g : ProjectGraph Id) (preferred : PreferredBuildpaths) (project : String) : Prop :=
  TransGen (g.RequiresExisting preferred) project project

/-- A project from which requirements lead to a project that leads back to itself. -/
def LeadsIntoCycle (g : ProjectGraph Id) (preferred : PreferredBuildpaths) (project : String) :
    Prop :=
  ∃ turn, ReflTransGen (g.Requires preferred) project turn ∧
    TransGen (g.Requires preferred) turn turn

/-- The projects that the entries of a project name, in the order of the entries. -/
def requirements (g : ProjectGraph Id) (preferred : PreferredBuildpaths) (project : String) :
    List String :=
  ((g.entriesWith preferred project).run.getD []).filterMap Entry.projectName?

/-- What a walk does with one requirement of the project entered last. -/
def visit (g : ProjectGraph Id) (preferred : PreferredBuildpaths) (depth : Nat) (w : CycleWalk)
    (required : String) : CycleWalk :=
  match w.closingIndex? required with
  | some index =>
    { w with participants := CycleWalk.addNames w.participants (w.chain.drop index) }
  | none =>
    if required ∈ w.traversed || required ∉ g.names then w
    else (g.walkFrom preferred depth required w).run

variable {g : ProjectGraph Id} {preferred : PreferredBuildpaths}

theorem mem_requirements {project required : String} :
    required ∈ g.requirements preferred project ↔ g.Requires preferred project required := by
  unfold requirements Requires
  rw [List.mem_filterMap]
  cases (g.entriesWith preferred project).run with
  | none => simp
  | some entries => simp [Entry.projectName?]

/-- One walk enters its project, visits what it requires in order, and leaves it. -/
theorem walkFrom_succ (depth : Nat) (project : String) (w : CycleWalk) :
    (g.walkFrom preferred (depth + 1) project w).run =
      ((g.requirements preferred project).foldl (g.visit preferred depth)
        (w.enter project)).leave := by
  rw [walkFrom]
  change (Id.run (List.foldlM _ (w.enter project)
    (g.requirements preferred project))).leave = _
  rw [List.idRun_foldlM]
  rfl

/-- A requirement that closes the chain marks the chain from its closing index on. -/
theorem visit_of_some {depth : Nat} {w : CycleWalk} {required : String} {index : Nat}
    (h : w.closingIndex? required = some index) :
    g.visit preferred depth w required =
      { w with participants := CycleWalk.addNames w.participants (w.chain.drop index) } := by
  unfold visit
  rw [h]

/-- A requirement that was visited, or does not exist, is passed over. -/
theorem visit_of_known {depth : Nat} {w : CycleWalk} {required : String}
    (h : w.closingIndex? required = none)
    (hk : required ∈ w.traversed ∨ required ∉ g.names) :
    g.visit preferred depth w required = w := by
  unfold visit
  rw [h]
  dsimp only
  rw [if_pos (by simpa using hk)]

/-- A fresh requirement is walked from. -/
theorem visit_of_fresh {depth : Nat} {w : CycleWalk} {required : String}
    (h : w.closingIndex? required = none) (ht : required ∉ w.traversed)
    (hn : required ∈ g.names) :
    g.visit preferred depth w required = (g.walkFrom preferred depth required w).run := by
  unfold visit
  rw [h]
  dsimp only
  rw [if_neg (by simp [ht, hn])]

/-! ### What one pass keeps -/

/-- What holds between the steps of a pass. A finished project, visited and no longer on the chain,
participates as soon as it leads onto the chain or lies on a cycle. -/
structure Searched (g : ProjectGraph Id) (preferred : PreferredBuildpaths) (w : CycleWalk) :
    Prop where
  traversed_of_chain : ∀ u ∈ w.chain, u ∈ w.traversed
  traversed_of_participant : ∀ u ∈ w.participants, u ∈ w.traversed
  closed : ∀ u ∈ w.traversed, u ∉ w.chain → ∀ v, g.RequiresExisting preferred u v → v ∈ w.traversed
  participant_of_chain : ∀ u ∈ w.traversed, u ∉ w.chain → ∀ c ∈ w.chain,
    TransGen (g.RequiresExisting preferred) u c → u ∈ w.participants
  participant_of_cycle : ∀ u ∈ w.traversed, u ∉ w.chain → g.OnCycle preferred u →
    u ∈ w.participants

/-- What a later state of a pass, `w'`, shows of a requirement met since an earlier one, `w`: it was
visited if it exists, and a participant or a project on the chain closed the chain. -/
structure Handled (g : ProjectGraph Id) (w w' : CycleWalk) (required : String) : Prop where
  traversed : required ∈ g.names → required ∈ w'.traversed
  whole : required ∈ w.participants → ∀ c ∈ w.chain, c ∈ w'.participants
  closing : ∀ before after, w.chain = before ++ required :: after →
    ∀ c ∈ required :: after, c ∈ w'.participants

/-- A later state with the same chain, in which every requirement of the projects visited since was
handled. -/
structure Advance (g : ProjectGraph Id) (preferred : PreferredBuildpaths) (w w' : CycleWalk) :
    Prop where
  chain : w'.chain = w.chain
  participants : ∀ u ∈ w.participants, u ∈ w'.participants
  traversed : ∀ u ∈ w.traversed, u ∈ w'.traversed
  handled : ∀ u ∈ w'.traversed, u ∉ w.traversed → ∀ v, g.Requires preferred u v → Handled g w w' v

theorem Handled.mono_left {w₁ w₂ w' : CycleWalk} {required : String} (h : Handled g w₂ w' required)
    (ha : Advance g preferred w₁ w₂) : Handled g w₁ w' required where
  traversed := h.traversed
  whole hp := ha.chain ▸ h.whole (ha.participants required hp)
  closing := ha.chain ▸ h.closing

theorem Handled.mono_right {w w₁ w₂ : CycleWalk} {required : String} (h : Handled g w w₁ required)
    (ha : Advance g preferred w₁ w₂) : Handled g w w₂ required where
  traversed hn := ha.traversed _ (h.traversed hn)
  whole hp c hc := ha.participants c (h.whole hp c hc)
  closing before after he c hc := ha.participants c (h.closing before after he c hc)

theorem Advance.refl (w : CycleWalk) : Advance g preferred w w where
  chain := rfl
  participants _ hu := hu
  traversed _ hu := hu
  handled _ hu hn := absurd hu hn

theorem Advance.trans {w₁ w₂ w₃ : CycleWalk} (h₁ : Advance g preferred w₁ w₂)
    (h₂ : Advance g preferred w₂ w₃) : Advance g preferred w₁ w₃ where
  chain := h₂.chain.trans h₁.chain
  participants u hu := h₂.participants u (h₁.participants u hu)
  traversed u hu := h₂.traversed u (h₁.traversed u hu)
  handled u hu hn v hv := by
    by_cases hm : u ∈ w₂.traversed
    · exact (h₁.handled u hm hn v hv).mono_right h₂
    · exact (h₂.handled u hu hm v hv).mono_left h₁

/-- From a finished project, requirements reach a project that was not visited only through the
chain. -/
private theorem meets_chain {w : CycleWalk} (h : Searched g preferred w) {u target : String}
    (hu : u ∈ w.traversed) (hc : u ∉ w.chain) (ht : target ∉ w.traversed)
    (hp : TransGen (g.RequiresExisting preferred) u target) :
    ∃ c ∈ w.chain, TransGen (g.RequiresExisting preferred) u c := by
  induction hp using TransGen.head_induction_on with
  | single hr => exact absurd (h.closed _ hu hc _ hr) ht
  | @head a b hr _ ih =>
    by_cases hb : b ∈ w.chain
    · exact ⟨b, hb, .single hr⟩
    · obtain ⟨c, hm, hbc⟩ := ih (h.closed _ hu hc _ hr) hb
      exact ⟨c, hm, .head hr hbc⟩

/-- Entering a project that was not visited keeps the invariant. -/
theorem Searched.enter {w : CycleWalk} (h : Searched g preferred w) {project : String}
    (hn : project ∉ w.traversed) : Searched g preferred (w.enter project) := by
  have old : ∀ u ∈ (w.enter project).traversed, u ∉ (w.enter project).chain →
      u ∈ w.traversed ∧ u ∉ w.chain := by
    intro u hu hc
    rw [CycleWalk.chain_enter, List.mem_append, List.mem_singleton, not_or] at hc
    exact ⟨(CycleWalk.mem_traversed_enter.mp hu).resolve_right hc.2, hc.1⟩
  refine ⟨?_, ?_, ?_, ?_, ?_⟩
  · intro u hu
    rw [CycleWalk.chain_enter, List.mem_append, List.mem_singleton] at hu
    exact CycleWalk.mem_traversed_enter.mpr (hu.imp_left (h.traversed_of_chain u))
  · intro u hu
    exact CycleWalk.mem_traversed_enter.mpr (.inl (h.traversed_of_participant u hu))
  · intro u hu hc v hv
    obtain ⟨hu, hc⟩ := old u hu hc
    exact CycleWalk.mem_traversed_enter.mpr (.inl (h.closed u hu hc v hv))
  · intro u hu hc c hm hp
    obtain ⟨ht, hf⟩ := old u hu hc
    rw [CycleWalk.chain_enter, List.mem_append, List.mem_singleton] at hm
    rcases hm with hm | rfl
    · exact h.participant_of_chain u ht hf c hm hp
    · obtain ⟨c, hm, hp⟩ := meets_chain h ht hf hn hp
      exact h.participant_of_chain u ht hf c hm hp
  · intro u hu hc hp
    obtain ⟨hu, hc⟩ := old u hu hc
    exact h.participant_of_cycle u hu hc hp

/-- Closing the chain at a requirement keeps the invariant and handles the requirement. -/
private theorem visit_closing {depth : Nat} {w : CycleWalk} (h : Searched g preferred w)
    {required : String} {index : Nat} (hi : w.closingIndex? required = some index) :
    Searched g preferred (g.visit preferred depth w required) ∧
      Advance g preferred w (g.visit preferred depth w required) ∧
      Handled g w (g.visit preferred depth w required) required := by
  rw [visit_of_some hi]
  have grown : ∀ u ∈ w.participants,
      u ∈ CycleWalk.addNames w.participants (w.chain.drop index) :=
    fun u hu ↦ CycleWalk.mem_addNames.mpr (.inl hu)
  have hclosing := CycleWalk.closingIndex?_eq_some hi
  refine ⟨⟨h.traversed_of_chain, ?_, h.closed, ?_, ?_⟩, ⟨rfl, grown, fun _ hu ↦ hu, ?_⟩, ?_, ?_, ?_⟩
  · intro u hu
    rcases CycleWalk.mem_addNames.mp hu with hu | hu
    · exact h.traversed_of_participant u hu
    · exact h.traversed_of_chain u (List.mem_of_mem_drop hu)
  · exact fun u hu hc c hm hp ↦ grown u (h.participant_of_chain u hu hc c hm hp)
  · exact fun u hu hc hp ↦ grown u (h.participant_of_cycle u hu hc hp)
  · exact fun u hu hn ↦ absurd hu hn
  · intro _
    rcases hclosing with ⟨hp, -⟩ | ⟨before, after, hc, -, -⟩
    · exact h.traversed_of_participant required hp
    · exact h.traversed_of_chain required (by rw [hc]; simp)
  · intro hp c hc
    have h0 : index = 0 := by
      rw [CycleWalk.closingIndex?, if_pos hp] at hi
      exact (Option.some.inj hi).symm
    exact CycleWalk.mem_addNames.mpr (.inr (by rwa [h0, List.drop_zero]))
  · intro before after hc c hm
    apply CycleWalk.mem_addNames.mpr ∘ .inr
    rcases hclosing with ⟨-, rfl⟩ | ⟨first, rest, hf, hn, rfl⟩
    · rw [List.drop_zero, hc]
      exact List.mem_append_right _ hm
    · -- the requirement occurs first after `first`, so no later than after `before`
      have hle : first.length ≤ before.length := by
        refine Nat.le_of_not_lt fun hlt ↦ hn ?_
        have ht : w.chain.take first.length = first := by rw [hf, List.take_left']; rfl
        rw [← ht, hc, List.mem_take_iff_getElem]
        exact ⟨before.length, by simp; omega, by simp⟩
      rw [hc, List.drop_append_of_le_length hle]
      exact List.mem_append_right _ hm

/-- A requirement on the chain, or of a participant, puts the end of the chain among the
participants. -/
theorem Handled.end_participates {w w' : CycleWalk} {required last : String} {before : List String}
    (h : Handled g w w' required) (hl : w.chain = before ++ [last])
    (hr : required ∈ w.chain ∨ required ∈ w.participants) : last ∈ w'.participants := by
  rcases hr with hr | hr
  · obtain ⟨first, rest, he⟩ := List.append_of_mem hr
    apply h.closing first rest he
    have hlast := congrArg List.getLast? (hl.symm.trans he)
    rw [List.getLast?_concat, List.getLast?_append, List.getLast?_cons, Option.some_or] at hlast
    exact List.mem_of_getLast? (hlast.trans List.getLast?_cons.symm).symm
  · exact h.whole hr last (by rw [hl]; simp)

/-- A project visited during an advance that leads onto the chain has put the end of the chain among
the participants: its path leaves the projects visited meanwhile through a project on the chain, or
through a finished one that participates already. -/
private theorem end_participates {w w' : CycleWalk} (h : Searched g preferred w)
    (ha : Advance g preferred w w') {before : List String} {last : String}
    (hl : w.chain = before ++ [last]) {u c : String} (hu : u ∈ w'.traversed)
    (hn : u ∉ w.traversed) (hc : c ∈ w.chain)
    (hp : TransGen (g.RequiresExisting preferred) u c) : last ∈ w'.participants := by
  induction hp using TransGen.head_induction_on with
  | @single a hr => exact (ha.handled a hu hn c hr.1).end_participates hl (.inl hc)
  | @head a b hr hbc ih =>
    have hh := ha.handled a hu hn b hr.1
    by_cases hb : b ∈ w.traversed
    · by_cases hm : b ∈ w.chain
      · exact hh.end_participates hl (.inl hm)
      · exact hh.end_participates hl (.inr (h.participant_of_chain b hb hm c hc hbc))
    · exact ih (hh.traversed hr.2.2) hb

/-- Once a requirement that exists and leads onto the chain was handled, the end of the chain
participates. -/
private theorem handled_end_participates {w w' : CycleWalk} (h : Searched g preferred w)
    (ha : Advance g preferred w w') {before : List String} {last required c : String}
    (hl : w.chain = before ++ [last]) (hh : Handled g w w' required) (hn : required ∈ g.names)
    (hc : c ∈ w.chain) (hp : ReflTransGen (g.RequiresExisting preferred) required c) :
    last ∈ w'.participants := by
  by_cases hm : required ∈ w.chain
  · exact hh.end_participates hl (.inl hm)
  · have ht : TransGen (g.RequiresExisting preferred) required c := by
      rcases reflTransGen_iff_eq_or_transGen.mp hp with he | ht
      · exact absurd (he ▸ hc) hm
      · exact ht
    by_cases hu : required ∈ w.traversed
    · exact hh.end_participates hl (.inr (h.participant_of_chain required hu hm c hc ht))
    · exact end_participates h ha hl (hh.traversed hn) hu hc ht

/-! ### The depth of a walk -/

/-- How many of the projects that exist were not visited. -/
def remaining (g : ProjectGraph Id) (w : CycleWalk) : Nat :=
  g.names.countP (· ∉ w.traversed)

/-- The more was visited, the less remains. -/
theorem remaining_le_of_subset {w w' : CycleWalk} (h : w.traversed ⊆ w'.traversed) :
    g.remaining w' ≤ g.remaining w := by
  apply List.countP_mono_left
  intro u _ hu
  simp only [decide_eq_true_eq] at hu ⊢
  exact fun ht ↦ hu (h ht)

theorem remaining_le_of_advance {w w' : CycleWalk} (h : Advance g preferred w w') :
    g.remaining w' ≤ g.remaining w :=
  remaining_le_of_subset h.traversed

theorem remaining_enter_lt {w : CycleWalk} {project : String} (hn : project ∈ g.names)
    (ht : project ∉ w.traversed) : g.remaining (w.enter project) < g.remaining w := by
  have he : g.names.filter (· ∉ (w.enter project).traversed) =
      (g.names.filter (· ∉ w.traversed)).filter (· ≠ project) := by
    rw [List.filter_filter]
    congr 1
    funext u
    simp [and_comm]
  rw [remaining, remaining, List.countP_eq_length_filter, List.countP_eq_length_filter, he,
    List.length_filter_lt_length_iff_exists]
  exact ⟨project, by simp [hn, ht], by simp⟩

theorem remaining_le_length (w : CycleWalk) : g.remaining w ≤ g.names.length :=
  List.countP_le_length

/-! ### Completeness -/

/-- What a walk of some depth owes to its caller. -/
def WalkSearches (g : ProjectGraph Id) (preferred : PreferredBuildpaths) (depth : Nat) :
    Prop :=
  ∀ project w, Searched g preferred w → project ∉ w.traversed →
    g.remaining (w.enter project) < depth →
    Searched g preferred (g.walkFrom preferred depth project w).run ∧
      Advance g preferred w (g.walkFrom preferred depth project w).run ∧
      project ∈ (g.walkFrom preferred depth project w).run.traversed

/-- One requirement keeps the invariant and is handled, if the walks below do what they owe. -/
private theorem visit_searched {depth : Nat} (hw : WalkSearches g preferred depth) {w : CycleWalk}
    (h : Searched g preferred w) (hd : g.remaining w ≤ depth) (required : String) :
    Searched g preferred (g.visit preferred depth w required) ∧
      Advance g preferred w (g.visit preferred depth w required) ∧
      Handled g w (g.visit preferred depth w required) required := by
  cases hi : w.closingIndex? required with
  | some index => exact visit_closing h hi
  | none =>
    obtain ⟨hp, hc⟩ := CycleWalk.closingIndex?_eq_none.mp hi
    have open_chain : ∀ before after, w.chain = before ++ required :: after → False := by
      intro before after he
      exact hc (by rw [he]; simp)
    by_cases hk : required ∈ w.traversed ∨ required ∉ g.names
    · rw [visit_of_known hi hk]
      refine ⟨h, .refl w, ?_, fun hm ↦ absurd hm hp, fun b a he ↦ (open_chain b a he).elim⟩
      exact fun hn ↦ hk.resolve_right (not_not_intro hn)
    · obtain ⟨ht, hn⟩ := not_or.mp hk
      replace hn := Decidable.not_not.mp hn
      rw [visit_of_fresh hi ht hn]
      obtain ⟨hs, ha, hm⟩ := hw required w h ht (by have := remaining_enter_lt hn ht; omega)
      exact ⟨hs, ha, fun _ ↦ hm, fun hm ↦ absurd hm hp, fun b a he ↦ (open_chain b a he).elim⟩

/-- All requirements of the project entered last are handled, and if one of them leads onto the
chain, that project participates. -/
private theorem foldl_visit_searched {depth : Nat} (hw : WalkSearches g preferred depth)
    {before : List String} {last : String} (requirements : List String) {w : CycleWalk}
    (h : Searched g preferred w) (hd : g.remaining w ≤ depth) (hl : w.chain = before ++ [last]) :
    Searched g preferred (requirements.foldl (g.visit preferred depth) w) ∧
      Advance g preferred w (requirements.foldl (g.visit preferred depth) w) ∧
      ∀ required ∈ requirements,
        Handled g w (requirements.foldl (g.visit preferred depth) w) required ∧
        (required ∈ g.names → ∀ c ∈ w.chain,
          ReflTransGen (g.RequiresExisting preferred) required c →
          last ∈ (requirements.foldl (g.visit preferred depth) w).participants) := by
  induction requirements generalizing w with
  | nil => exact ⟨h, .refl w, fun _ hr ↦ absurd hr (List.not_mem_nil)⟩
  | cons first rest ih =>
    obtain ⟨hs₁, ha₁, hh₁⟩ := visit_searched hw h hd first
    have hd₁ := Nat.le_trans (remaining_le_of_advance ha₁) hd
    obtain ⟨hs, ha, hr⟩ := ih hs₁ hd₁ (ha₁.chain.trans hl)
    rw [List.foldl_cons]
    refine ⟨hs, ha₁.trans ha, ?_⟩
    intro required hm
    rcases List.mem_cons.mp hm with rfl | hm
    · refine ⟨hh₁.mono_right ha, fun hn c hc hp ↦ ha.participants last ?_⟩
      exact handled_end_participates h ha₁ hl hh₁ hn hc hp
    · refine ⟨(hr required hm).1.mono_left ha₁, fun hn c hc hp ↦ ?_⟩
      exact (hr required hm).2 hn c (ha₁.chain ▸ hc) hp

/-- Leaving a project keeps the invariant once its requirements are handled. -/
private theorem searched_leave {w : CycleWalk} (h : Searched g preferred w) {before : List String}
    {project : String} (hl : w.chain = before ++ [project])
    (ht : ∀ v, g.RequiresExisting preferred project v → v ∈ w.traversed)
    (hp : ∀ v, g.RequiresExisting preferred project v → ∀ c ∈ w.chain,
      ReflTransGen (g.RequiresExisting preferred) v c → project ∈ w.participants) :
    Searched g preferred w.leave := by
  have hb : w.leave.chain = before := by rw [CycleWalk.chain_leave, hl, List.dropLast_concat]
  have chain_of : ∀ c ∈ before, c ∈ w.chain := by
    intro c hc
    rw [hl]
    exact List.mem_append_left _ hc
  -- the only project that finishes is the one left
  have fresh : ∀ u, u ∉ before → u ∉ w.chain ∨ u = project := by
    intro u hu
    by_cases he : u = project
    · exact .inr he
    · exact .inl (by simp [hl, hu, he])
  have onto : ∀ c ∈ w.chain, TransGen (g.RequiresExisting preferred) project c →
      project ∈ w.participants := by
    intro c hc hpc
    obtain ⟨v, hr, hv⟩ := TransGen.head'_iff.mp hpc
    exact hp v hr c hc hv
  refine ⟨?_, h.traversed_of_participant, ?_, ?_, ?_⟩
  · intro u hu
    exact h.traversed_of_chain u (chain_of u (hb ▸ hu))
  · intro u hu hc v hv
    rcases fresh u (hb ▸ hc) with hf | rfl
    · exact h.closed u hu hf v hv
    · exact ht v hv
  · intro u hu hc c hm hpc
    rcases fresh u (hb ▸ hc) with hf | rfl
    · exact h.participant_of_chain u hu hf c (chain_of c (hb ▸ hm)) hpc
    · exact onto c (chain_of c (hb ▸ hm)) hpc
  · intro u hu hc hpc
    rcases fresh u (hb ▸ hc) with hf | rfl
    · exact h.participant_of_cycle u hu hf hpc
    · exact onto u (by rw [hl]; simp) hpc

/-- What happened since a project was entered is an advance over the state before, once the
requirements of the project are handled and it is left. -/
private theorem advance_leave {w w' : CycleWalk} {project : String}
    (ha : Advance g preferred (w.enter project) w')
    (hh : ∀ v, g.Requires preferred project v → Handled g (w.enter project) w' v) :
    Advance g preferred w w'.leave := by
  have weaken : ∀ v, Handled g (w.enter project) w' v → Handled g w w'.leave v := by
    intro v hv
    refine ⟨hv.traversed, ?_, ?_⟩
    · intro hp c hc
      exact hv.whole hp c (List.mem_append_left _ hc)
    · intro before after he c hc
      have he' : (w.enter project).chain = before ++ v :: (after ++ [project]) := by
        rw [CycleWalk.chain_enter, he, List.append_assoc, List.cons_append]
      exact hv.closing before _ he' c (List.mem_append_left [project] hc)
  refine ⟨?_, ha.participants, ?_, ?_⟩
  · rw [CycleWalk.chain_leave, ha.chain, CycleWalk.chain_enter, List.dropLast_concat]
  · intro u hu
    exact ha.traversed u (CycleWalk.mem_traversed_enter.mpr (.inl hu))
  · intro u hu hn v hv
    by_cases he : u = project
    · subst he
      exact weaken v (hh v hv)
    · apply weaken v
      exact ha.handled u hu (by simp [CycleWalk.mem_traversed_enter, hn, he]) v hv

/-- A walk deep enough for the projects that were not visited keeps the invariant. -/
theorem walkFrom_searched (depth : Nat) : WalkSearches g preferred depth := by
  induction depth with
  | zero => exact fun _ _ _ _ hd ↦ absurd hd (Nat.not_lt_zero _)
  | succ depth ih =>
    intro project w h hn hd
    rw [walkFrom_succ]
    obtain ⟨hs, ha, hr⟩ := foldl_visit_searched ih (g.requirements preferred project)
      (h.enter hn) (Nat.le_of_lt_succ hd) (CycleWalk.chain_enter w project)
    refine ⟨searched_leave hs (ha.chain.trans (CycleWalk.chain_enter w project)) ?_ ?_,
      advance_leave ha ?_, ?_⟩
    · intro v hv
      exact (hr v (mem_requirements.mpr hv.1)).1.traversed hv.2.2
    · intro v hv c hc hp
      exact (hr v (mem_requirements.mpr hv.1)).2 hv.2.2 c (ha.chain ▸ hc) hp
    · intro v hv
      exact (hr v (mem_requirements.mpr hv)).1
    · exact ha.traversed project (CycleWalk.mem_traversed_enter.mpr (.inr rfl))

/-- The pass over a list of projects, from any state between two walks. -/
def searchAll (g : ProjectGraph Id) (preferred : PreferredBuildpaths)
    (projects : List String) (w : CycleWalk) : CycleWalk :=
  projects.foldl (fun w project ↦
    if project ∈ w.traversed then w else (g.walk preferred project w).run) w

theorem cycleParticipants_eq (projects : List String) :
    (g.cycleParticipants preferred projects).run =
      (g.searchAll preferred projects {}).participants := by
  unfold cycleParticipants searchAll
  change CycleWalk.participants (Id.run (List.foldlM _ _ projects)) = _
  rw [List.idRun_foldlM]
  rfl

theorem searchAll_searched (projects : List String) {w : CycleWalk}
    (h : Searched g preferred w) :
    Searched g preferred (g.searchAll preferred projects w) ∧
      Advance g preferred w (g.searchAll preferred projects w) ∧
      ∀ project ∈ projects, project ∈ (g.searchAll preferred projects w).traversed := by
  induction projects generalizing w with
  | nil => exact ⟨h, .refl w, fun _ hm ↦ absurd hm List.not_mem_nil⟩
  | cons first rest ih =>
    have step : Searched g preferred (g.searchAll preferred [first] w) ∧
        Advance g preferred w (g.searchAll preferred [first] w) ∧
        first ∈ (g.searchAll preferred [first] w).traversed := by
      change Searched g preferred (if _ then _ else _) ∧ Advance g preferred w (if _ then _ else _) ∧
        first ∈ CycleWalk.traversed (if _ then _ else _)
      split
      · next ht => exact ⟨h, .refl w, ht⟩
      · next ht =>
        apply walkFrom_searched _ first w h ht
        exact Nat.lt_succ_of_le (remaining_le_length _)
    obtain ⟨hs₁, ha₁, hm₁⟩ := step
    obtain ⟨hs, ha, hm⟩ := ih hs₁
    refine ⟨hs, ha₁.trans ha, ?_⟩
    intro project hp
    rcases List.mem_cons.mp hp with rfl | hp
    · exact ha.traversed _ hm₁
    · exact hm project hp

theorem searched_nil : Searched g preferred {} := by
  refine ⟨?_, ?_, ?_, ?_, ?_⟩ <;> intro u hu <;> exact absurd hu List.not_mem_nil

/-! ### Soundness -/

/-- What holds between the steps of a pass, seen from what it reports: each project on the chain
requires the next, and participants lead into cycles. -/
structure Grounded (g : ProjectGraph Id) (preferred : PreferredBuildpaths) (w : CycleWalk) :
    Prop where
  chained : w.chain.IsChain (g.Requires preferred)
  leads : ∀ p ∈ w.participants, g.LeadsIntoCycle preferred p

/-- Every project of a chain reaches what its last project leads to. -/
theorem chain_reaches {r : String → String → Prop} {before after : List String}
    {middle last required : String} (hc : (before ++ middle :: after).IsChain r)
    (hl : (before ++ middle :: after).getLast? = some last) (hr : r last required) :
    TransGen r middle required := by
  induction after generalizing before middle with
  | nil =>
    rw [List.getLast?_concat] at hl
    exact .single (Option.some.inj hl ▸ hr)
  | cons next rest ih =>
    have hn : r middle next := by
      have hs := (List.isChain_append.mp hc).2.1
      exact (List.isChain_cons_cons.mp hs).1
    have hm : (before ++ [middle]) ++ next :: rest = before ++ middle :: next :: rest := by simp
    exact .head hn (ih (hm ▸ hc) (hm ▸ hl))

/-- One requirement keeps what is reported grounded, if the walks below do. -/
private theorem visit_grounded {depth : Nat}
    (hw : ∀ project w, Grounded g preferred w →
      (∀ last ∈ w.chain.getLast?, g.Requires preferred last project) →
      Grounded g preferred (g.walkFrom preferred depth project w).run ∧
        (g.walkFrom preferred depth project w).run.chain = w.chain)
    {w : CycleWalk} (h : Grounded g preferred w) {last required : String}
    (hl : w.chain.getLast? = some last) (hr : g.Requires preferred last required) :
    Grounded g preferred (g.visit preferred depth w required) ∧
      (g.visit preferred depth w required).chain = w.chain := by
  cases hi : w.closingIndex? required with
  | some index =>
    rw [visit_of_some hi]
    refine ⟨⟨h.chained, ?_⟩, rfl⟩
    intro p hp
    rcases CycleWalk.mem_addNames.mp hp with hp | hp
    · exact h.leads p hp
    rcases CycleWalk.closingIndex?_eq_some hi with ⟨hm, rfl⟩ | ⟨before, after, hc, -, rfl⟩
    · obtain ⟨turn, hq, ht⟩ := h.leads required hm
      obtain ⟨first, rest, he⟩ := List.append_of_mem hp
      have hc : w.chain = first ++ p :: rest := he
      refine ⟨turn, ?_, ht⟩
      exact (chain_reaches (hc ▸ h.chained) (hc ▸ hl) hr).to_reflTransGen.trans hq
    · rw [hc, List.drop_left] at hp
      -- the chain from the requirement on, and the requirement of its end, form the cycle
      have hturn := chain_reaches (hc ▸ h.chained) (hc ▸ hl) hr
      obtain ⟨first, rest, he⟩ := List.append_of_mem hp
      have hc' : w.chain = (before ++ first) ++ p :: rest := by rw [hc, he, List.append_assoc]
      exact ⟨required, (chain_reaches (hc' ▸ h.chained) (hc' ▸ hl) hr).to_reflTransGen, hturn⟩
  | none =>
    by_cases hk : required ∈ w.traversed ∨ required ∉ g.names
    · rw [visit_of_known hi hk]
      exact ⟨h, rfl⟩
    · obtain ⟨ht, hn⟩ := not_or.mp hk
      rw [visit_of_fresh hi ht (Decidable.not_not.mp hn)]
      apply hw required w h
      intro last' hl'
      rw [hl] at hl'
      exact Option.some.inj hl' ▸ hr

private theorem foldl_visit_grounded {depth : Nat}
    (hw : ∀ project w, Grounded g preferred w →
      (∀ last ∈ w.chain.getLast?, g.Requires preferred last project) →
      Grounded g preferred (g.walkFrom preferred depth project w).run ∧
        (g.walkFrom preferred depth project w).run.chain = w.chain)
    (requirements : List String) {w : CycleWalk} (h : Grounded g preferred w) {last : String}
    (hl : w.chain.getLast? = some last)
    (hr : ∀ required ∈ requirements, g.Requires preferred last required) :
    Grounded g preferred (requirements.foldl (g.visit preferred depth) w) ∧
      (requirements.foldl (g.visit preferred depth) w).chain = w.chain := by
  induction requirements generalizing w with
  | nil => exact ⟨h, rfl⟩
  | cons first rest ih =>
    obtain ⟨hg, hc⟩ := visit_grounded hw h hl (hr first List.mem_cons_self)
    obtain ⟨hg', hc'⟩ := ih hg (by rw [hc, hl]) fun required hm ↦ hr required (.tail _ hm)
    exact ⟨hg', hc'.trans hc⟩

/-- A walk from a project that the end of the chain requires keeps what is reported grounded, and
restores the chain. -/
theorem walkFrom_grounded (depth : Nat) :
    ∀ project w, Grounded g preferred w →
      (∀ last ∈ w.chain.getLast?, g.Requires preferred last project) →
      Grounded g preferred (g.walkFrom preferred depth project w).run ∧
        (g.walkFrom preferred depth project w).run.chain = w.chain := by
  induction depth with
  | zero => exact fun _ _ h _ ↦ ⟨h, rfl⟩
  | succ depth ih =>
    intro project w h hr
    rw [walkFrom_succ]
    have he : Grounded g preferred (w.enter project) := by
      refine ⟨?_, h.leads⟩
      rw [CycleWalk.chain_enter, List.isChain_append]
      refine ⟨h.chained, List.isChain_singleton _, ?_⟩
      intro last hl first hf
      rw [List.head?_cons, Option.mem_def, Option.some.injEq] at hf
      exact hf ▸ hr last hl
    obtain ⟨hg, hc⟩ := foldl_visit_grounded ih (g.requirements preferred project) he
      (by rw [CycleWalk.chain_enter, List.getLast?_concat])
      fun required hm ↦ mem_requirements.mp hm
    have hl : ((g.requirements preferred project).foldl (g.visit preferred depth)
        (w.enter project)).leave.chain = w.chain := by
      rw [CycleWalk.chain_leave, hc, CycleWalk.chain_enter, List.dropLast_concat]
    exact ⟨⟨hl ▸ h.chained, hg.leads⟩, hl⟩

theorem searchAll_grounded (projects : List String) {w : CycleWalk}
    (h : Grounded g preferred w) (hc : w.chain = []) :
    Grounded g preferred (g.searchAll preferred projects w) := by
  induction projects generalizing w with
  | nil => exact h
  | cons first rest ih =>
    have hnil : ∀ last ∈ w.chain.getLast?, g.Requires preferred last first := by simp [hc]
    obtain ⟨hg, hc'⟩ := walkFrom_grounded (g.names.length + 1) first w h hnil
    change Grounded g preferred (g.searchAll preferred rest (if _ then _ else _))
    split
    · exact ih h hc
    · exact ih hg (hc'.trans hc)

/-- The search over a list of projects, in any order, finds every project of the list on a cycle of
projects that exist. It finds only projects that lead into a cycle, so none where there is none. -/
theorem cycleParticipants_complete_sound (g : ProjectGraph Id) (preferred : PreferredBuildpaths)
    (projects : List String) :
    (∀ project ∈ projects, g.OnCycle preferred project →
      project ∈ (g.cycleParticipants preferred projects).run) ∧
    (∀ project ∈ (g.cycleParticipants preferred projects).run,
      g.LeadsIntoCycle preferred project) ∧
    ((∀ project, ¬TransGen (g.Requires preferred) project project) →
      (g.cycleParticipants preferred projects).run = []) := by
  have sound : ∀ project ∈ (g.cycleParticipants preferred projects).run,
      g.LeadsIntoCycle preferred project := by
    rw [cycleParticipants_eq]
    have hg : Grounded g preferred {} := ⟨List.isChain_nil, fun _ hp ↦ absurd hp List.not_mem_nil⟩
    exact (searchAll_grounded projects hg rfl).leads
  refine ⟨?_, sound, ?_⟩
  · intro project hp hc
    rw [cycleParticipants_eq]
    obtain ⟨hs, ha, hm⟩ := searchAll_searched projects
      (searched_nil : Searched g preferred _)
    apply hs.participant_of_cycle project (hm project hp) _ hc
    rw [ha.chain]
    exact List.not_mem_nil
  · intro hnone
    rw [List.eq_nil_iff_forall_not_mem]
    intro project hp
    obtain ⟨turn, -, ht⟩ := sound project hp
    exact hnone turn ht

/-- Two projects that require each other, and one that requires the first of them. -/
def pairGraph : ProjectGraph Id where
  names := ["a", "b", "c"]
  entries? project :=
    let required := if project = "a" then "b" else "a"
    some [.project ⟨none, true, [required]⟩]

/-- A search that starts outside the cycle still finds the pair. -/
theorem cycleParticipants_pair :
    "a" ∈ ["c", "a"] ∧ pairGraph.OnCycle [] "a" ∧
      "a" ∈ (pairGraph.cycleParticipants [] ["c", "a"]).run := by
  have edge : ∀ u v, (pairGraph.entries? u).run = some [.project ⟨none, true, [v]⟩] →
      pairGraph.Requires [] u v := by
    intro u v he
    exact ⟨_, he, _, List.mem_singleton_self _, rfl, rfl⟩
  have hc : pairGraph.OnCycle [] "a" := by
    refine .head (b := "b") ⟨edge "a" "b" ?_, ?_, ?_⟩ (.single ⟨edge "b" "a" ?_, ?_, ?_⟩)
    all_goals decide
  exact ⟨by decide, hc,
    (cycleParticipants_complete_sound pairGraph [] ["c", "a"]).1 "a" (by decide) hc⟩

end ProjectGraph

end Buildpath
