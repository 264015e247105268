import Buildpath.Proofs.Model.Completing
import Buildpath.Proofs.Model.Fragments
import Buildpath.Proofs.Model.OwnEntries

/-!
# Contributions that occur once

An expansion does not collect an entry whose identity was met, and all that it collects counts as met but
the entries that should lead to a project and lead to none. So an expanded buildpath lists each contribution
once, apart from references to projects that are missing or no script projects (`expanded_lists_once`). This
holds of every model: initializers may run while the required projects are resolved.
-/

namespace Buildpath

variable {m m' : Model} {project : String} {x : Expansion} {e : Entry} {referring : Option Entry}

/-- The state that a walk goes on in. -/
def Turn.state {σ : Type} : Turn σ → σ
  | .pass s => s
  | .enter _ s => s

namespace Model

theorem SameTerms.requiredProject? (h : m.SameTerms m') : m'.requiredProject? = m.requiredProject? := by
  funext e
  rw [Model.requiredProject?, Model.requiredProject?, h.kind?]
  simp only [Workspace.isScript_of_files h.files]

theorem not_countsAsMet : ¬ m.CountsAsMet e ↔ e.kind = .project ∧ m.requiredProject? e = none := by
  rw [CountsAsMet, Classical.not_imp, Option.not_isSome_iff_eq_none]

end Model

namespace Expansion

/-- Whether what was collected under an identity before something else is an entry that does not count as
met, and all that counts was met. -/
structure Once (m : Model) (x : Expansion) : Prop where
  met : ∀ e ∈ x.entries, m.CountsAsMet e → e.rootId ∈ x.rootIds
  apart : x.entries.Pairwise fun e e' ↦ e.rootId = e'.rootId → ¬ m.CountsAsMet e

theorem Once.ofProject (m : Model) (project : String) : Once m (ofProject project) :=
  ⟨fun _ he ↦ absurd he List.not_mem_nil, .nil⟩

/-- Collecting an entry whose identity was not met. -/
theorem Once.collect (h : Once m x) (hnew : e.rootId ∉ x.rootIds) : Once m (x.collect m e referring) where
  met := by
    intro f hf hmet
    rw [entries_collect, List.mem_append, List.mem_singleton] at hf
    rw [mem_rootIds_collect]
    rcases hf with hf | rfl
    · exact .inl (h.met f hf hmet)
    · exact .inr ⟨by simpa using hmet, by simp⟩
  apart := by
    rw [entries_collect, List.pairwise_append]
    refine ⟨h.apart, List.pairwise_singleton _ _, fun f hf f' hf' hsame hmet ↦ hnew ?_⟩
    rw [List.mem_singleton.mp hf', Entry.rootId_combine] at hsame
    exact hsame ▸ h.met f hf hmet

/-- A turn collects an entry only if its identity was not met. -/
theorem Once.turn (h : Once m x) (referring : Option Entry) (e : Entry) :
    Once m (turn m referring x e).state := by
  rw [turn_eq]
  by_cases hskip : e.isHidden referring || e.rootId ∈ x.rootIds
  · rw [if_pos hskip]
    exact h
  · rw [if_neg hskip]
    simp only [Bool.or_eq_true, decide_eq_true_eq, not_or] at hskip
    cases m.requiredProject? e with
    | none => exact h.collect hskip.2
    | some required => exact h.collect hskip.2

end Expansion

namespace ModelM

/-- What each turn of a walk keeps is kept by the walk, whatever reading the buildpaths does to the
model. -/
theorem walk_keeps {σ : Type} {turn : String → Option Entry → σ → Entry → Turn σ} {I : σ → Prop}
    {entries? : String → ModelM (Option (List Entry))}
    (hturn : ∀ {q r s} e, I s → I (turn q r s e).state)
    (depth : Nat) (q : String) (r : Option Entry) (es : List Entry) {s : σ} (hs : I s) (m : Model) :
    I ((walk turn entries? depth q r es s).run m).1 := by
  induction depth generalizing q r es s m with
  | zero => exact hs
  | succ depth ih =>
    unfold walk
    induction es generalizing s m with
    | nil => exact hs
    | cons e es ihes =>
      rw [List.foldlM_cons, StateT.run_bind]
      refine ihes ?_ _
      have hnext : I (turn q r s e).state := hturn e hs
      cases hresult : turn q r s e <;> rw [hresult] at hnext
      case pass s' => exact hnext
      case enter required s' =>
        obtain ⟨⟨found, m'⟩, hread⟩ : ∃ read, (entries? required).run m = read := ⟨_, rfl⟩
        dsimp only
        rw [StateT.run_bind, hread]
        cases found with
        | none => exact hnext
        | some found => exact ih _ _ _ hnext _

/-- In every model, whatever initializers do, the buildpath of a project that exists can be expanded, and
each contribution is listed once: what is listed under an identity before something else is a project
entry that leads to no project, since its path is not that of a project, or its project is no script
project. -/
theorem expanded_lists_once (hexists : m.workspace.projectExists project) :
    ∃ es, ((expanded project).runOn m).1 = .ok es ∧ es.Pairwise fun e e' ↦
      e.rootId = e'.rootId → e.kind = .project ∧ m.requiredProject? e = none := by
  obtain ⟨i, m₁, hrun⟩ := resolution_succeeds hexists
  have hterms : m.SameTerms m₁ := by
    have hmoves := sameTerms_resolution project m
    rwa [show ((resolution project).run.run m).2 = m₁ from congrArg Prod.snd hrun] at hmoves
  have honce : Expansion.Once m₁ ((walk (fun _ ↦ Expansion.turn m₁) resolvedEntries? m₁.depth project none
      i.result.entries (.ofProject project)).run m₁).1 :=
    walk_keeps (fun e hx ↦ hx.turn _ e) _ _ _ _ (.ofProject m₁ project) m₁
  refine ⟨_, ?_, honce.apart.imp fun {e e'} hapart hsame ↦ ?_⟩
  · rw [expanded, Action.bind_runOn, hrun]
    rfl
  · rw [← hterms.requiredProject?]
    exact Model.not_countsAsMet.mp (hapart hsame)

/-- A project that requires a missing project, as well as a second project, which exports a reference to
the missing one. -/
def dangling : Model :=
  .ofBuildpaths [("p", [.project (.parse "/ghost"), .project (.parse "/q")]),
    ("q", [{ Entry.project (.parse "/ghost") with exported := true }])]

/-- The reference to the missing project stands in the expanded buildpath twice. -/
theorem expanded_dangling : ((expanded "p").runOn dangling).1 =
      .ok [.project (.parse "/ghost"), .project (.parse "/q"), .project (.parse "/ghost")] ∧
    ∃ es, ((expanded "p").runOn dangling).1 = .ok es ∧ es.Pairwise fun e e' ↦
      e.rootId = e'.rootId → e.kind = .project ∧ dangling.requiredProject? e = none :=
  ⟨by decide +kernel, expanded_lists_once (by decide +kernel)⟩

/-- Not every contribution is listed once: the reference to a missing project is not. -/
theorem missing_project_is_repeated :
    ¬ ∀ (m : Model) (project : String) (es : List Entry), ((expanded project).runOn m).1 = .ok es →
      es.Pairwise fun e e' ↦ e.rootId ≠ e'.rootId := fun hall ↦
  absurd (hall dangling "p" _ (by decide +kernel : _ = Except.ok
    [Entry.project (.parse "/ghost"), .project (.parse "/q"), .project (.parse "/ghost")]))
    (by decide +kernel)

end ModelM

end Buildpath
