import Buildpath.Proofs.Model.Resolving
import Buildpath.Proofs.Model.Tame

/-!
# Results that are completed

While a project is being resolved its cell stays as it is, whatever initializers ask for, unless one of
them replaces the raw buildpath of the project (`Model.KeepsHeld`). So the project has the result
afterwards that the resolution came to (`issued?_of_resolution_tame`).
-/

namespace Buildpath

variable {project : String} {m m' : Model}

namespace Model

/-- Steps that leave the cell of a project alone if the project is being resolved or has a result that
counts. -/
structure KeepsHeld (project : String) (m m' : Model) : Prop where
  workspace : m'.workspace = m.workspace
  resolving : m'.resolving = m.resolving
  cell : m.Holds project → (m'.cell project).raw = (m.cell project).raw ∧
    (m'.cell project).generation = (m.cell project).generation ∧
    (m'.cell project).state = (m.cell project).state

theorem KeepsHeld.holds (h : m.KeepsHeld project m') (hm : m.Holds project) : m'.Holds project := by
  obtain ⟨hraw, -, hstate⟩ := h.cell hm
  refine ⟨hraw ▸ hm.1, ?_⟩
  rw [h.resolving, Cell.issued?, hstate]
  exact hm.2

/-- Steps that leave cells alone. -/
private theorem KeepsHeld.of_cells (hcells : m'.cells = m.cells) (hworkspace : m'.workspace = m.workspace)
    (hresolving : m'.resolving = m.resolving) : m.KeepsHeld project m' := by
  have hcell : m'.cell project = m.cell project := by rw [Model.cell, hcells, Model.cell]
  exact ⟨hworkspace, hresolving, fun _ ↦ by rw [hcell]; exact ⟨rfl, rfl, rfl⟩⟩

/-- Changing a cell but not what counts of it. -/
private theorem KeepsHeld.setCell {other : String} {c : Cell}
    (h : other = project → m.Holds project → c.raw = (m.cell project).raw ∧
      c.generation = (m.cell project).generation ∧ c.state = (m.cell project).state) :
    m.KeepsHeld project (m.setCell other c) := by
  refine ⟨rfl, rfl, fun hm ↦ ?_⟩
  rw [cell_setCell]
  split
  · next heq => exact h heq hm
  · exact ⟨rfl, rfl, rfl⟩

instance : TameFrame (fun other _ ↦ other ≠ project) (KeepsHeld project) where
  refl _ := .of_cells rfl rfl rfl
  trans h h' := by
    refine ⟨h'.workspace.trans h.workspace, h'.resolving.trans h.resolving, fun hm ↦ ?_⟩
    obtain ⟨hraw, hgeneration, hstate⟩ := h.cell hm
    obtain ⟨hraw', hgeneration', hstate'⟩ := h'.cell (h.holds hm)
    exact ⟨hraw'.trans hraw, hgeneration'.trans hgeneration, hstate'.trans hstate⟩
  volatile _ _ _ _ _ := .of_cells rfl rfl rfl
  touched m other := .setCell fun heq _ ↦ heq ▸ ⟨rfl, rfl, rfl⟩
  clearRoots m := ⟨rfl, rfl, fun _ ↦ by rw [cell_clearRoots]; exact ⟨rfl, rfl, rfl⟩⟩
  noted _ _ := .of_cells rfl rfl rfl
  registry _ _ := .of_cells rfl rfl rfl
  issued _ := .of_cells rfl rfl rfl
  fragments m other _ := .setCell fun heq _ ↦ heq ▸ ⟨rfl, rfl, rfl⟩
  loads m other hnone := .setCell fun heq hm ↦ absurd (heq ▸ hnone) hm.1
  begins m other generation hidle _ hstale := .setCell fun heq hm ↦ by
    subst heq
    rcases hm.2 with hin | ⟨i, hi, hok⟩
    · exact absurd hin hidle
    · exact absurd hok (hstale i hi)
  completes {m m' other raw r} hidle _ hnone _ h := by
    refine ⟨h.workspace, ?_, fun hm ↦ ?_⟩
    · exact (congrArg (List.erase · other) h.resolving).trans (List.erase_cons_head ..)
    · rw [cell_completed]
      split
      · next heq =>
        subst heq
        rcases hm.2 with hin | ⟨i, hi, -⟩
        · exact absurd hin hidle
        · rw [hnone] at hi
          cases hi
      · exact h.cell ⟨hm.1, hm.2.imp_left (List.mem_cons_of_mem _)⟩
  replaces _ _ _ hne := .setCell fun heq _ ↦ absurd heq hne

end Model

namespace ModelM

/-- A project that exists has a resolution. -/
theorem resolution_succeeds (hexists : m.workspace.projectExists project) :
    ∃ i m', (resolution project).runOn m = (.ok i, m') := by
  obtain ⟨cells, hrun, -⟩ := resolutionBy_runOn findContainer hexists
  rw [resolution, hrun]
  cases ((m.loaded project).begin (project ∈ m.resolving)).1 with
  | cached i => exact ⟨_, _, rfl⟩
  | reentrant => exact ⟨_, _, rfl⟩
  | start generation raw last => exact ⟨_, _, rfl⟩

/-- A project that is resolved has the result afterwards, and the raw buildpath that it had, if no initializer
replaces it. -/
theorem issued?_of_resolution_tame {i : Issued} (htame : m.Tame fun other _ ↦ other ≠ project)
    (hidle : project ∉ m.resolving) (h : (resolution project).runOn m = (.ok i, m')) :
    (m'.cell project).issued? = some i ∧ (m'.cell project).raw = some (m.raw project) ∧
      m'.workspace = m.workspace := by
  obtain ⟨⟨⟩, _, hproject, -⟩ := Action.bind_eq_ok.mp h
  obtain ⟨-, hexists⟩ := requireProject_eq_ok hproject
  have hworkspace : m'.workspace = m.workspace := by
    have hmoves := moves_resolution_tame (R := Model.KeepsHeld project) project m htame
    obtain rfl : ((resolution project).run.run m).2 = m' := congrArg Prod.snd h
    exact hmoves.1.workspace
  obtain ⟨cells, hrun, hcell⟩ := resolutionBy_runOn findContainer hexists
  have hcell := (hcell project).trans (if_pos rfl)
  rw [resolution, hrun] at h
  rcases (m.loaded project).begin_cases (project ∈ m.resolving) with
    ⟨j, hj, -, hb⟩ | ⟨hin, -⟩ | ⟨-, -, generation, hb⟩
  · rw [hb] at h hcell
    cases h
    rw [hcell]
    exact ⟨hj, m.raw_loaded project, rfl⟩
  · exact absurd (of_decide_eq_true hin) hidle
  · rw [hb] at h hcell
    dsimp only at h
    let m₀ : Model := { m with cells, resolving := project :: m.resolving }
    let m₁ := ((resolveRaw findContainer project (((m.loaded project).raw.getD (m.raw project)).entries)
      (m.loaded project).last).run m₀).2
    have hm' : m'.cell project = (m₁.cell project).complete (m.loaded project).generation i := by
      cases h
      exact (Model.cell_setCell _ _ _ _).trans (if_pos rfl)
    have hbegun : m₀.cell project = { m.loaded project with state := .resolving generation } := hcell
    have hholds : m₀.Holds project := by
      refine ⟨?_, .inl List.mem_cons_self⟩
      rw [hbegun]
      exact m.raw_loaded project ▸ Option.some_ne_none _
    have hkeeps : m₀.KeepsHeld project m₁ :=
      (moves_resolveRaw moves_findContainer_tame project _ _ m₀ htame).1
    obtain ⟨hraw, hgeneration, -⟩ := hkeeps.cell hholds
    rw [hbegun] at hraw hgeneration
    rw [hm', Cell.complete, if_pos hgeneration]
    exact ⟨rfl, hraw.trans (m.raw_loaded project), hworkspace⟩

end ModelM

end Buildpath
