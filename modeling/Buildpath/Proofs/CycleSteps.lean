import Buildpath.Proofs.Cycle
import Mathlib.Data.List.Nodup

/-!
# The steps of a walk

A walk along project entries as steps (`ProjectGraph.next?`), over a graph whose buildpaths may change as they are
read. Each step only adds to what was found, and it adds projects that are on the chain (`CycleWalk.Grows`). Every
walk comes to its end this way, whatever state it starts in, with the chain that it started with, and no buildpath is
read twice (`ProjectGraph.walk_ends`).
-/

namespace Buildpath

open Relation

/-- What a step of a walk may do: it adds participants from the chain, and projects that were visited. -/
structure CycleWalk.Grows (w w' : CycleWalk) : Prop where
  participants : w.participants ⊆ w'.participants
  traversed : w.traversed ⊆ w'.traversed
  onChain : ∀ project ∈ w'.participants, project ∉ w.participants → project ∈ w.chain

/-- A moment of a walk: its state, what is still to be visited of the requirements of each project on the way down,
the last one first, and the state that buildpaths are read in. -/
structure Moment (σ : Type) where
  walk : CycleWalk
  pending : List (List String)
  source : σ

namespace ProjectGraph

variable {σ : Type} {g : ProjectGraph (StateM σ)} {preferred : PreferredBuildpaths} {a b : Moment σ}
  {project required : String} {w : CycleWalk} {depth : Nat}

/-- The requirements among the entries of a project, none if they cannot be read. -/
def requirementsOf (entries : Option (List Entry)) : List String :=
  (entries.getD []).filterMap Entry.projectName?

/-- The moment after a project was entered and its buildpath was read. -/
def entered (g : ProjectGraph (StateM σ)) (preferred : PreferredBuildpaths) (project : String) (a : Moment σ) :
    Moment σ where
  walk := a.walk.enter project
  pending := requirementsOf ((g.entriesWith preferred project).run a.source).1 :: a.pending
  source := ((g.entriesWith preferred project).run a.source).2

/-- The next moment of a walk; it ends once all projects were left. -/
def next? (g : ProjectGraph (StateM σ)) (preferred : PreferredBuildpaths) (a : Moment σ) : Option (Moment σ) :=
  match a.pending with
  | [] => none
  | [] :: above => some { a with walk := a.walk.leave, pending := above }
  | (required :: rest) :: above =>
    match a.walk.closingIndex? required with
    | some index =>
      some { a with
        walk := { a.walk with
          participants := CycleWalk.addNames a.walk.participants (a.walk.chain.drop index) }
        pending := rest :: above }
    | none =>
      if required ∈ a.walk.traversed || required ∉ g.names then some { a with pending := rest :: above }
      else some (g.entered preferred required { a with pending := rest :: above })

/-- What a step does: it leaves a project, closes the chain, passes a requirement over or enters it. -/
theorem next?_cases (h : g.next? preferred a = some b) :
    (∃ above, a.pending = [] :: above ∧ b = { a with walk := a.walk.leave, pending := above }) ∨
    ∃ required rest above, a.pending = (required :: rest) :: above ∧
      ((∃ index, a.walk.closingIndex? required = some index ∧ b = { a with
        walk := { a.walk with
          participants := CycleWalk.addNames a.walk.participants (a.walk.chain.drop index) }
        pending := rest :: above }) ∨
      (required ∈ a.walk.traversed ∨ required ∉ g.names) ∧ b = { a with pending := rest :: above } ∨
      (required ∉ a.walk.traversed ∧ required ∈ g.names) ∧
        b = g.entered preferred required { a with pending := rest :: above }) := by
  unfold next? at h
  split at h
  · cases h
  · next above hpending => exact .inl ⟨above, hpending, (Option.some.inj h).symm⟩
  · next required rest above hpending =>
    refine .inr ⟨required, rest, above, hpending, ?_⟩
    split at h
    · next index hindex => exact .inl ⟨index, hindex, (Option.some.inj h).symm⟩
    · split at h
      · next hknown => exact .inr (.inl ⟨by simpa using hknown, (Option.some.inj h).symm⟩)
      · next hfresh => exact .inr (.inr ⟨by simpa using hfresh, (Option.some.inj h).symm⟩)

theorem grows_of_next? (h : g.next? preferred a = some b) : a.walk.Grows b.walk := by
  have hrefl : a.walk.Grows a.walk := ⟨List.Subset.refl _, List.Subset.refl _, fun _ hin hout ↦ absurd hin hout⟩
  obtain ⟨above, -, rfl⟩ | ⟨required, rest, above, -, ⟨index, -, rfl⟩ | ⟨-, rfl⟩ | ⟨-, rfl⟩⟩ := next?_cases h
  · exact ⟨hrefl.participants, hrefl.traversed, hrefl.onChain⟩
  · refine ⟨fun q hq ↦ CycleWalk.mem_addNames.mpr (.inl hq), hrefl.traversed, fun q hin hout ↦ ?_⟩
    exact List.mem_of_mem_drop ((CycleWalk.mem_addNames.mp hin).resolve_left hout)
  · exact hrefl
  · exact ⟨hrefl.participants, fun q hq ↦ CycleWalk.mem_traversed_enter.mpr (.inl hq), hrefl.onChain⟩

/-- Whether a walk comes from one moment to another one. -/
def Proceeds (g : ProjectGraph (StateM σ)) (preferred : PreferredBuildpaths) : Moment σ → Moment σ → Prop :=
  ReflTransGen fun a b ↦ g.next? preferred a = some b

theorem grown_of_proceeds (h : g.Proceeds preferred a b) :
    a.walk.participants ⊆ b.walk.participants ∧ a.walk.traversed ⊆ b.walk.traversed := by
  induction h with
  | refl => exact ⟨List.Subset.refl _, List.Subset.refl _⟩
  | tail _ hnext ih =>
    have hgrows := grows_of_next? hnext
    exact ⟨List.Subset.trans ih.1 hgrows.participants, List.Subset.trans ih.2 hgrows.traversed⟩

/-! ### Steps and recursion -/

/-- What a walk does with one requirement of the project entered last. -/
def visitM {m : Type → Type} [Monad m] (g : ProjectGraph m) (preferred : PreferredBuildpaths) (depth : Nat)
    (w : CycleWalk) (required : String) : m CycleWalk :=
  match w.closingIndex? required with
  | some index => pure { w with participants := CycleWalk.addNames w.participants (w.chain.drop index) }
  | none =>
    if required ∈ w.traversed || required ∉ g.names then pure w
    else g.walkFrom preferred depth required w

/-- A walk reads what its project requires, enters the project, visits the requirements in order and leaves it. -/
theorem walkFrom_bind {m : Type → Type} [Monad m] (g : ProjectGraph m) (preferred : PreferredBuildpaths)
    (depth : Nat) (project : String) (w : CycleWalk) :
    g.walkFrom preferred (depth + 1) project w = (do
      let entries ← g.entriesWith preferred project
      let w ← (requirementsOf entries).foldlM (g.visitM preferred depth) (w.enter project)
      pure w.leave) := by
  rfl

/-- The projects of a graph without their buildpaths. -/
def bare (g : ProjectGraph (StateM σ)) : ProjectGraph Id := ⟨g.names, fun _ ↦ none⟩

/-- What the steps of a walk of some depth come to. -/
def StepsWalk (g : ProjectGraph (StateM σ)) (preferred : PreferredBuildpaths) (depth : Nat) : Prop :=
  ∀ project w pending s, g.bare.remaining (w.enter project) < depth →
    g.Proceeds preferred (g.entered preferred project ⟨w, pending, s⟩)
      ⟨((g.walkFrom preferred depth project w).run s).1, pending, ((g.walkFrom preferred depth project w).run s).2⟩

/-- The steps over one requirement come to what the walk does with it. -/
theorem proceeds_visit (hwalk : g.StepsWalk preferred depth) (hdepth : g.bare.remaining w ≤ depth)
    (required : String) (rest : List String) (above : List (List String)) (s : σ) :
    g.Proceeds preferred ⟨w, (required :: rest) :: above, s⟩
      ⟨((g.visitM preferred depth w required).run s).1, rest :: above,
        ((g.visitM preferred depth w required).run s).2⟩ := by
  cases hindex : w.closingIndex? required with
  | some index =>
    refine .single ?_
    simp only [next?, visitM, hindex]
    rfl
  | none =>
    by_cases hknown : required ∈ w.traversed ∨ required ∉ g.names
    · have hpass : (required ∈ w.traversed || required ∉ g.names) = true := by simpa using hknown
      refine .single ?_
      simp only [next?, visitM, hindex, hpass, if_true]
      rfl
    · -- the project that is entered was not visited, so fewer remain than the depth allows
      have hfresh : (required ∈ w.traversed || required ∉ g.names) = false := by simpa using hknown
      obtain ⟨ht, hn⟩ := not_or.mp hknown
      have hlt := remaining_enter_lt (g := g.bare) (Decidable.not_not.mp hn) ht
      refine .head (b := g.entered preferred required ⟨w, rest :: above, s⟩) ?_ ?_
      · simp only [next?, hindex, hfresh, Bool.false_eq_true, if_false]
      · simp only [visitM, hindex, hfresh, Bool.false_eq_true, if_false]
        exact hwalk required w (rest :: above) s (by omega)

/-- The steps over all requirements of a project come to what the walk does with them. -/
theorem proceeds_visits (hwalk : g.StepsWalk preferred depth) (requirements : List String)
    (above : List (List String)) (s : σ) (hdepth : g.bare.remaining w ≤ depth) :
    g.Proceeds preferred ⟨w, requirements :: above, s⟩
      ⟨((requirements.foldlM (g.visitM preferred depth) w).run s).1, [] :: above,
        ((requirements.foldlM (g.visitM preferred depth) w).run s).2⟩ := by
  induction requirements generalizing w s with
  | nil => exact .refl
  | cons required rest ih =>
    have hvisit := proceeds_visit hwalk hdepth required rest above s
    have hle : g.bare.remaining ((g.visitM preferred depth w required).run s).1 ≤ depth :=
      Nat.le_trans (remaining_le_of_subset (grown_of_proceeds hvisit).2) hdepth
    exact hvisit.trans (ih _ hle)

/-- The steps from the moment after a project was entered come to what the walk does. -/
theorem stepsWalk (g : ProjectGraph (StateM σ)) (preferred : PreferredBuildpaths) (depth : Nat) :
    g.StepsWalk preferred depth := by
  induction depth with
  | zero => exact fun _ _ _ _ h ↦ absurd h (Nat.not_lt_zero _)
  | succ depth ih =>
    intro project w pending s hdepth
    refine (proceeds_visits ih _ pending _ (Nat.le_of_lt_succ hdepth)).tail ?_
    rw [walkFrom_bind]
    rfl

/-! ### Buildpaths that are read -/

/-- The graph that also lists the projects whose buildpaths are read. -/
def logged (g : ProjectGraph (StateM σ)) : ProjectGraph (StateM (σ × List String)) where
  names := g.names
  entries? project := fun s ↦
    (((g.entries? project).run s.1).1, ((g.entries? project).run s.1).2, s.2 ++ [project])

/-- Whether steps do the same as others, apart from the list of what they read. -/
def SameBut {α : Type} (x : StateM (σ × List String) α) (y : StateM σ α) : Prop :=
  ∀ s, y.run s.1 = ((x.run s).1, (x.run s).2.1)

theorem SameBut.pure {α : Type} (a : α) :
    SameBut (Pure.pure a : StateM (σ × List String) α) (Pure.pure a) := fun _ ↦ rfl

theorem SameBut.bind {α β : Type} {x : StateM (σ × List String) α} {y : StateM σ α}
    {f : α → StateM (σ × List String) β} {f' : α → StateM σ β} (hx : SameBut x y)
    (hf : ∀ a, SameBut (f a) (f' a)) : SameBut (x >>= f) (y >>= f') := by
  intro s
  rw [StateT.run_bind, StateT.run_bind, hx s]
  exact hf _ _

theorem SameBut.foldlM {α β : Type} {f : β → α → StateM (σ × List String) β} {f' : β → α → StateM σ β}
    (hf : ∀ b a, SameBut (f b a) (f' b a)) (as : List α) (b : β) : SameBut (as.foldlM f b) (as.foldlM f' b) := by
  induction as generalizing b with
  | nil => exact .pure b
  | cons a as ih => exact (hf b a).bind ih

/-- Listing what is read changes nothing else. -/
theorem sameBut_walkFrom (g : ProjectGraph (StateM σ)) (preferred : PreferredBuildpaths) (depth : Nat) :
    ∀ project w, SameBut (g.logged.walkFrom preferred depth project w) (g.walkFrom preferred depth project w) := by
  induction depth with
  | zero => exact fun _ w ↦ .pure w
  | succ depth ih =>
    intro project w
    have hentries : SameBut (g.logged.entriesWith preferred project) (g.entriesWith preferred project) := by
      unfold entriesWith
      split
      · exact .pure _
      · exact fun _ ↦ rfl
    rw [walkFrom_bind, walkFrom_bind]
    refine hentries.bind fun entries ↦ .bind (.foldlM (fun w required ↦ ?_) _ _) fun _ ↦ .pure _
    unfold visitM
    split
    · exact .pure _
    · have hnames : g.logged.names = g.names := rfl
      rw [hnames]
      split
      · exact .pure w
      · exact ih required w

/-- What holds at every moment of a walk: the projects entered stand behind the chain at the start, and those whose
buildpaths were read were visited, each of them once. -/
structure Orderly (chain : List String) (a : Moment (σ × List String)) : Prop where
  chain : ∃ way, a.walk.chain = chain ++ way ∧ way.length = a.pending.length
  once : a.source.2.Nodup
  visited : a.source.2 ⊆ a.walk.traversed

variable {chain : List String} {c d : Moment (σ × List String)}

theorem orderly_entered (h : Orderly chain c) (hnew : project ∉ c.source.2) :
    Orderly chain (g.logged.entered preferred project c) := by
  obtain ⟨⟨way, hway, hlength⟩, honce, hvisited⟩ := h
  have hreads : (g.logged.entered preferred project c).source.2 = c.source.2 ∨
      (g.logged.entered preferred project c).source.2 = c.source.2 ++ [project] := by
    unfold entered entriesWith
    dsimp only
    split
    · exact .inl rfl
    · exact .inr rfl
  have htraversed : c.source.2 ⊆ (c.walk.enter project).traversed := fun q hq ↦
    CycleWalk.mem_traversed_enter.mpr (.inl (hvisited hq))
  refine ⟨⟨way ++ [project], ?_, ?_⟩, ?_, ?_⟩
  · rw [← List.append_assoc, ← hway]
    rfl
  · rw [List.length_append, hlength]
    rfl
  · rcases hreads with hreads | hreads
    · rwa [hreads]
    · rw [hreads, ← List.concat_eq_append]
      exact honce.concat hnew
  · rcases hreads with hreads | hreads
    · rw [hreads]
      exact htraversed
    · rw [hreads]
      refine List.append_subset.mpr ⟨htraversed, fun q hq ↦ ?_⟩
      exact CycleWalk.mem_traversed_enter.mpr (.inr (List.mem_singleton.mp hq))

theorem orderly_next? (h : Orderly chain c) (hnext : g.logged.next? preferred c = some d) : Orderly chain d := by
  obtain ⟨above, hpending, rfl⟩ | ⟨required, rest, above, hpending, hstep⟩ := next?_cases hnext
  · obtain ⟨⟨way, hway, hlength⟩, honce, hvisited⟩ := h
    rw [hpending, List.length_cons] at hlength
    have hne : way ≠ [] := List.ne_nil_of_length_eq_add_one hlength
    refine ⟨⟨way.dropLast, ?_, ?_⟩, honce, hvisited⟩
    · rw [CycleWalk.chain_leave, hway, List.dropLast_append_of_ne_nil hne]
    · rw [List.length_dropLast, hlength, Nat.add_sub_cancel]
  · have hpassed : Orderly chain { c with pending := rest :: above } := by
      obtain ⟨way, hway, hlength⟩ := h.chain
      refine ⟨⟨way, hway, ?_⟩, h.once, h.visited⟩
      rw [hlength, hpending, List.length_cons, List.length_cons]
    obtain ⟨index, -, rfl⟩ | ⟨-, rfl⟩ | ⟨⟨hnew, -⟩, rfl⟩ := hstep
    · exact ⟨hpassed.chain, hpassed.once, hpassed.visited⟩
    · exact hpassed
    · exact orderly_entered hpassed fun hread ↦ hnew (h.visited hread)

theorem orderly_of_proceeds (h : Orderly chain c) (hsteps : g.logged.Proceeds preferred c d) : Orderly chain d := by
  induction hsteps with
  | refl => exact h
  | tail _ hnext ih => exact orderly_next? ih hnext

/-- A walk ends, whatever graph it is over, whatever buildpaths stand in for others and whatever its state was. Its
steps only add to what was found and visited, and what they add to the participants is on the chain then. At the end
the chain is as it was, and no buildpath was read twice. A greater depth makes no difference. -/
theorem walk_ends (g : ProjectGraph (StateM σ)) (preferred : PreferredBuildpaths) (project : String)
    (w : CycleWalk) (s : σ) (more : Nat) :
    ∃ last : Moment (σ × List String),
      ReflTransGen (fun a b ↦ g.logged.next? preferred a = some b ∧ a.walk.Grows b.walk)
        (g.logged.entered preferred project ⟨w, [], s, []⟩) last ∧
      g.logged.next? preferred last = none ∧
      (g.logged.walkFrom preferred (g.names.length + 1 + more) project w).run (s, []) = (last.walk, last.source) ∧
      (g.walkFrom preferred (g.names.length + 1 + more) project w).run s = (last.walk, last.source.1) ∧
      last.walk.chain = w.chain ∧ w.participants ⊆ last.walk.participants ∧ w.traversed ⊆ last.walk.traversed ∧
      last.source.2.Nodup := by
  have hdepth : g.logged.bare.remaining (w.enter project) < g.names.length + 1 + more := by
    have hle : g.logged.bare.remaining (w.enter project) ≤ g.names.length := remaining_le_length _
    omega
  have hsteps := g.logged.stepsWalk preferred _ project w [] (s, []) hdepth
  have hsame := sameBut_walkFrom g preferred (g.names.length + 1 + more) project w (s, [])
  generalize (g.logged.walkFrom preferred _ project w).run (s, []) = result at hsteps hsame ⊢
  have hstart : Orderly w.chain (⟨w, [], s, []⟩ : Moment (σ × List String)) :=
    ⟨⟨[], (List.append_nil _).symm, rfl⟩, List.nodup_nil, List.nil_subset _⟩
  obtain ⟨⟨way, hway, hlength⟩, honce, -⟩ := orderly_of_proceeds (orderly_entered hstart List.not_mem_nil) hsteps
  obtain ⟨hparticipants, htraversed⟩ := grown_of_proceeds hsteps
  refine ⟨⟨result.1, [], result.2⟩, ReflTransGen.mono (fun a b h ↦ ⟨h, grows_of_next? h⟩) _ _ hsteps, rfl, rfl,
    hsame, ?_, hparticipants, fun q hq ↦ htraversed (CycleWalk.mem_traversed_enter.mpr (.inl hq)), honce⟩
  rw [List.length_eq_zero_iff.mp hlength, List.append_nil] at hway
  exact hway

end ProjectGraph

end Buildpath
