import Buildpath.Proofs.Model.Histories

/-!
# Calm steps

Where no initializer replaces a raw buildpath, queries are calm (`Model.Calm`): no result that counts is
replaced, and what a project sees through others is not kept longer than its own result. Changes are not,
but they do not keep anew what a project sees (`Model.StaysCleared`).
-/

namespace Buildpath

variable {project : String} {m m' m'' : Model}

namespace Model

/-- Whether each valid result is the one that its cell kept last, was issued before, and is that of a raw
buildpath that is known. -/
def Latest (m : Model) : Prop :=
  ∀ project i, (m.cell project).issued? = some i →
    (m.cell project).raw ≠ none ∧ (m.cell project).last = some i ∧ i.number < m.issued

theorem Latest.of_cells (h : m.Latest) (hcells : ∀ project, m'.cell project = m.cell project)
    (hissued : m.issued ≤ m'.issued) : m'.Latest := by
  intro project i hi
  rw [hcells] at hi ⊢
  obtain ⟨hraw, hlast, hlt⟩ := h project i hi
  exact ⟨hraw, hlast, Nat.lt_of_lt_of_le hlt hissued⟩

/-- Changing a cell without a new result. -/
theorem Latest.setCell (h : m.Latest) {c : Cell} (hissued : ∀ i, c.issued? = some i →
    (m.cell project).issued? = some i ∧ (c.raw = none → (m.cell project).raw = none) ∧
      c.last = (m.cell project).last) : (m.setCell project c).Latest := by
  intro other i hi
  rw [cell_setCell] at hi ⊢
  split at hi
  · next heq =>
    subst heq
    obtain ⟨hi, hraw, hlast⟩ := hissued i hi
    obtain ⟨hknown, hlatest, hlt⟩ := h project i hi
    rw [if_pos rfl]
    exact ⟨hknown ∘ hraw, hlast.trans hlatest, hlt⟩
  · next hne =>
    rw [if_neg hne]
    exact h other i hi

theorem Latest.clearRoots (h : m.Latest) : m.clearRoots.Latest := by
  intro other i hi
  rw [cell_clearRoots] at hi ⊢
  exact h other i hi

/-- What a cell is when a resolution is completed: it has the new result, or it was invalidated and stays as
it is. -/
private theorem complete_cases (c : Cell) (generation : Nat) (i : Issued) :
    (c.complete generation i).issued? = some i ∧ (c.complete generation i).raw = c.raw ∧
        (c.complete generation i).last = some i ∧ (c.complete generation i).roots = none ∨
      c.complete generation i = c := by
  by_cases hcurrent : c.generation = generation
  · rw [Cell.complete, if_pos hcurrent]
    exact .inl ⟨rfl, rfl, rfl, rfl⟩
  · exact .inr (Cell.complete_of_ne hcurrent i)

theorem Latest.completed {generation : Nat} {r : Resolved} (h : m.Latest)
    (hraw : (m.cell project).raw ≠ none) : (m.completed project generation r).Latest := by
  have hold : ∀ q i, (m.cell q).issued? = some i →
      (m.cell q).raw ≠ none ∧ (m.cell q).last = some i ∧ i.number < m.issued + 1 := fun q i hi ↦
    (h q i hi).imp_right (.imp_right Nat.lt_succ_of_lt)
  intro other i hi
  rw [cell_completed] at hi ⊢
  split at hi
  · next heq =>
    subst heq
    rw [if_pos rfl]
    rcases complete_cases (m.cell project) generation ⟨m.issued, r⟩ with ⟨hissued, hsame, hlast, -⟩ | hsame
    · rw [hissued] at hi
      cases hi
      exact ⟨hsame ▸ hraw, hlast, Nat.lt_succ_self _⟩
    · rw [hsame] at hi ⊢
      exact hold project i hi
  · next hne =>
    rw [if_neg hne]
    exact hold other i hi

/-- Steps that keep the results that count, and store no visible roots of a project. -/
structure Calm (project : String) (m m' : Model) : Prop where
  workspace : m'.workspace = m.workspace
  settings : m'.settings = m.settings
  factories : m'.factories = m.factories
  nesting : m'.nesting = m.nesting
  resolving : m'.resolving = m.resolving
  issued : m.issued ≤ m'.issued
  latest : m.Latest → m'.Latest
  holds : ∀ other, m.Holds other → (m'.cell other).raw = (m.cell other).raw ∧
    (m'.cell other).generation = (m.cell other).generation ∧
    (m'.cell other).state = (m.cell other).state ∧ (m'.cell other).last = (m.cell other).last
  roots : (m'.cell project).roots = none ∨ (m'.cell project).roots = (m.cell project).roots ∧
    (m'.cell project).last = (m.cell project).last
  numbers : ∀ i, (m'.cell project).issued? = some i →
    (m.cell project).issued? = some i ∨ m.issued ≤ i.number

theorem Calm.holds_after (h : m.Calm project m') {other : String} (ho : m.Holds other) :
    m'.Holds other := by
  obtain ⟨hraw, -, hstate, -⟩ := h.holds other ho
  refine ⟨hraw ▸ ho.1, ?_⟩
  rw [h.resolving, Cell.issued?, hstate]
  exact ho.2

instance : Chained (Calm project) where
  refl m := ⟨rfl, rfl, rfl, rfl, rfl, Nat.le_refl _, id, fun _ _ ↦ ⟨rfl, rfl, rfl, rfl⟩, .inr ⟨rfl, rfl⟩,
    fun _ ↦ .inl⟩
  trans h h' := by
    refine ⟨h'.workspace.trans h.workspace, h'.settings.trans h.settings, h'.factories.trans h.factories,
      h'.nesting.trans h.nesting, h'.resolving.trans h.resolving, Nat.le_trans h.issued h'.issued,
      fun hm ↦ h'.latest (h.latest hm), fun other ho ↦ ?_, ?_, fun i hi ↦ ?_⟩
    · obtain ⟨hraw, hgeneration, hstate, hlast⟩ := h.holds other ho
      obtain ⟨hraw', hgeneration', hstate', hlast'⟩ := h'.holds other (h.holds_after ho)
      exact ⟨hraw'.trans hraw, hgeneration'.trans hgeneration, hstate'.trans hstate, hlast'.trans hlast⟩
    · rcases h'.roots with hnone | ⟨hroots', hlast'⟩
      · exact .inl hnone
      · rw [hroots', hlast']
        exact h.roots
    · rcases h'.numbers i hi with hi | hle
      · exact h.numbers i hi
      · exact .inr (Nat.le_trans h.issued hle)

/-- Steps that leave cells alone. -/
private theorem Calm.of_cells (hcells : m'.cells = m.cells) (hworkspace : m'.workspace = m.workspace)
    (hsettings : m'.settings = m.settings) (hfactories : m'.factories = m.factories)
    (hnesting : m'.nesting = m.nesting) (hresolving : m'.resolving = m.resolving)
    (hissued : m.issued ≤ m'.issued) : m.Calm project m' := by
  have hcell : ∀ other, m'.cell other = m.cell other := fun other ↦ by rw [cell, hcells, cell]
  exact ⟨hworkspace, hsettings, hfactories, hnesting, hresolving, hissued, (·.of_cells hcell hissued),
    fun other _ ↦ by simp only [hcell, and_self], .inr (by simp only [hcell, and_self]),
    fun i hi ↦ .inl (hcell project ▸ hi)⟩

/-- Changing a cell without a new result, and nothing of it that counts. -/
private theorem Calm.setCell {other : String} {c : Cell}
    (hissued : ∀ i, c.issued? = some i → (m.cell other).issued? = some i ∧
      c.raw = (m.cell other).raw ∧ c.last = (m.cell other).last)
    (hholds : m.Holds other → c.raw = (m.cell other).raw ∧ c.generation = (m.cell other).generation ∧
      c.state = (m.cell other).state ∧ c.last = (m.cell other).last)
    (hroots : other = project → c.roots = none ∨
      c.roots = (m.cell other).roots ∧ c.last = (m.cell other).last) :
    m.Calm project (m.setCell other c) := by
  have hcell := fun q ↦ m.cell_setCell other q c
  refine ⟨rfl, rfl, rfl, rfl, rfl, Nat.le_refl _, fun hm ↦ hm.setCell fun i hi ↦ ?_, fun q hq ↦ ?_, ?_,
    fun i hi ↦ ?_⟩
  · obtain ⟨hsame, hraw, hlast⟩ := hissued i hi
    exact ⟨hsame, fun hnone ↦ hraw.symm.trans hnone, hlast⟩
  · rw [hcell]
    split
    · next heq => exact heq ▸ hholds (heq.symm ▸ hq)
    · exact ⟨rfl, rfl, rfl, rfl⟩
  · rw [hcell]
    split
    · next heq => exact heq ▸ hroots heq
    · exact .inr ⟨rfl, rfl⟩
  · rw [hcell] at hi
    split at hi
    · next heq => exact .inl (heq ▸ (hissued i hi).1)
    · exact .inl hi

/-- A project that is not being resolved and has no result that counts does not hold its cell. -/
private theorem not_holds {other : String} (hidle : other ∉ m.resolving)
    (hstale : ∀ i, (m.cell other).issued? = some i → ¬ i.result.isOk) : ¬ m.Holds other := by
  rintro ⟨-, hin | ⟨i, hi, hok⟩⟩
  · exact hidle hin
  · exact hstale i hi hok

private theorem calm_completed {other : String} {generation : Nat} {r : Resolved}
    (hidle : other ∉ m.resolving) (hraw : (m.cell other).raw ≠ none)
    (hnone : (m.cell other).issued? = none)
    (h : ({ m with resolving := other :: m.resolving } : Model).Calm project m') :
    m.Calm project (m'.completed other generation r) := by
  have hcell := fun q ↦ m'.cell_completed other q generation r
  have hcomplete := complete_cases (m'.cell other) generation ⟨m'.issued, r⟩
  have hraw' : (m'.cell other).raw ≠ none :=
    (h.holds other ⟨hraw, .inl List.mem_cons_self⟩).1 ▸ hraw
  refine ⟨h.workspace, h.settings, h.factories, h.nesting, ?_, Nat.le_succ_of_le h.issued,
    fun hm ↦ (h.latest hm).completed hraw', fun q hq ↦ ?_, ?_, fun i hi ↦ ?_⟩
  · exact (congrArg (List.erase · other) h.resolving).trans (List.erase_cons_head ..)
  · have hne : other ≠ q := fun heq ↦ not_holds hidle (by rw [hnone]; nofun) (heq ▸ hq)
    rw [hcell, if_neg hne]
    exact h.holds q ⟨hq.1, hq.2.imp_left (List.mem_cons_of_mem _)⟩
  · rw [hcell]
    split
    · next heq =>
      subst heq
      rcases hcomplete with ⟨-, -, -, hroots⟩ | hsame
      · exact .inl hroots
      · rw [hsame]
        exact h.roots
    · exact h.roots
  · rw [hcell] at hi
    split at hi
    · next heq =>
      subst heq
      rcases hcomplete with ⟨hissued, -, -, -⟩ | hsame
      · rw [hissued] at hi
        cases hi
        exact .inr h.issued
      · exact h.numbers i (hsame ▸ hi)
    · exact h.numbers i hi

instance : TameFrame (fun _ _ ↦ False) (Calm project) where
  volatile m _ _ _ _ := .of_cells rfl rfl rfl rfl rfl rfl (Nat.le_refl _)
  touched m other := .setCell (fun _ hi ↦ ⟨hi, rfl, rfl⟩) (fun _ ↦ ⟨rfl, rfl, rfl, rfl⟩)
    fun _ ↦ .inr ⟨rfl, rfl⟩
  clearRoots m := by
    have hcell := m.cell_clearRoots
    refine ⟨rfl, rfl, rfl, rfl, rfl, Nat.le_refl _, Latest.clearRoots, fun other _ ↦ ?_, .inl ?_,
      fun i hi ↦ .inl ?_⟩
    · rw [hcell]
      exact ⟨rfl, rfl, rfl, rfl⟩
    · rw [hcell]
      rfl
    · rw [hcell] at hi
      exact hi
  noted m _ := .of_cells rfl rfl rfl rfl rfl rfl (Nat.le_refl _)
  registry m _ := .of_cells rfl rfl rfl rfl rfl rfl (Nat.le_refl _)
  issued m := .of_cells rfl rfl rfl rfl rfl rfl (Nat.le_succ _)
  fragments m other _ := .setCell (fun _ hi ↦ ⟨hi, rfl, rfl⟩) (fun _ ↦ ⟨rfl, rfl, rfl, rfl⟩)
    fun _ ↦ .inr ⟨rfl, rfl⟩
  loads m other hnone := by
    have hloaded := loaded_of_none hnone
    exact .setCell (fun i hi ↦ absurd (hloaded.1.symm.trans hi) nofun) (fun ho ↦ absurd hnone ho.1)
      fun _ ↦ .inl hloaded.2
  begins m other generation hidle _ hstale :=
    .setCell nofun (fun ho ↦ absurd ho (not_holds hidle hstale)) fun _ ↦ .inr ⟨rfl, rfl⟩
  completes hidle hraw hnone _ h := calm_completed hidle (hraw ▸ Option.some_ne_none _) hnone h
  replaces _ _ _ h := h.elim

/-- Storing what another project sees, or dropping what is kept. -/
theorem Calm.of_roots {other : String} {roots : Option VisibleRoots} (h : other = project → roots = none)
    (m : Model) : m.Calm project (m.setCell other { m.cell other with roots }) :=
  .setCell (fun _ hi ↦ ⟨hi, rfl, rfl⟩) (fun _ ↦ ⟨rfl, rfl, rfl, rfl⟩) fun heq ↦ .inl (h heq)

/-! ### Changes -/

/-- Steps that keep no visible roots of a project where none are kept. -/
structure StaysCleared (project : String) (m m' : Model) : Prop where
  initializers : m'.initializers = m.initializers
  resolving : m'.resolving = m.resolving
  latest : m.Latest → m'.Latest
  raws : ∀ other, (m.cell other).raw ≠ none → (m'.cell other).raw ≠ none
  roots : (m.cell project).roots = none → (m'.cell project).roots = none

private theorem StaysCleared.of_cells (hcells : m'.cells = m.cells)
    (hinitializers : m'.initializers = m.initializers) (hresolving : m'.resolving = m.resolving)
    (hissued : m.issued ≤ m'.issued) : m.StaysCleared project m' := by
  have hcell : ∀ other, m'.cell other = m.cell other := fun other ↦ by rw [cell, hcells, cell]
  exact ⟨hinitializers, hresolving, (·.of_cells hcell hissued), fun other ho ↦ hcell other ▸ ho,
    fun hnone ↦ hcell project ▸ hnone⟩

private theorem StaysCleared.setCell {other : String} {c : Cell}
    (hissued : ∀ i, c.issued? = some i → (m.cell other).issued? = some i ∧ c.last = (m.cell other).last)
    (hraw : (m.cell other).raw ≠ none → c.raw ≠ none)
    (hroots : (m.cell other).roots = none → c.roots = none) :
    m.StaysCleared project (m.setCell other c) := by
  refine ⟨rfl, rfl, fun hm ↦ hm.setCell fun i hi ↦ ?_, fun q hq ↦ ?_, fun hnone ↦ ?_⟩
  · obtain ⟨hsame, hlast⟩ := hissued i hi
    exact ⟨hsame, fun hunknown ↦ absurd hunknown (hraw (hm other i hsame).1), hlast⟩
  · rw [cell_setCell]
    split
    · next heq => exact hraw (heq.symm ▸ hq)
    · exact hq
  · rw [cell_setCell]
    split
    · next heq => exact hroots (heq.symm ▸ hnone)
    · exact hnone

instance : Chained (StaysCleared project) where
  refl _ := ⟨rfl, rfl, id, fun _ ↦ id, id⟩
  trans h h' := ⟨h'.initializers.trans h.initializers, h'.resolving.trans h.resolving,
    h'.latest ∘ h.latest, fun other ↦ h'.raws other ∘ h.raws other, h'.roots ∘ h.roots⟩

private theorem staysCleared_completed {other : String} {generation : Nat} {r : Resolved}
    (hraw : (m.cell other).raw ≠ none)
    (h : ({ m with resolving := other :: m.resolving } : Model).StaysCleared project m') :
    m.StaysCleared project (m'.completed other generation r) := by
  have hcell := fun q ↦ m'.cell_completed other q generation r
  have hcomplete := complete_cases (m'.cell other) generation ⟨m'.issued, r⟩
  refine ⟨h.initializers, ?_, fun hm ↦ (h.latest hm).completed (h.raws other hraw), fun q hq ↦ ?_,
    fun hnone ↦ ?_⟩
  · exact (congrArg (List.erase · other) h.resolving).trans (List.erase_cons_head ..)
  · rw [hcell]
    split
    · next heq =>
      subst heq
      rcases hcomplete with ⟨-, hsame, -⟩ | hsame <;> rw [hsame] <;> exact h.raws other hq
    · exact h.raws q hq
  · rw [hcell]
    split
    · next heq =>
      subst heq
      rcases hcomplete with ⟨-, -, -, hroots⟩ | hsame
      · exact hroots
      · rw [hsame]
        exact h.roots hnone
    · exact h.roots hnone

instance : OperationFrame (fun _ _ ↦ True) (StaysCleared project) where
  volatile m _ _ _ _ := .of_cells rfl rfl rfl (Nat.le_refl _)
  touched m other := .setCell (fun _ hi ↦ ⟨hi, rfl⟩) id id
  clearRoots m := by
    have hcell := m.cell_clearRoots
    refine ⟨rfl, rfl, Latest.clearRoots, fun other ho ↦ ?_, fun _ ↦ ?_⟩
    · rw [hcell]
      exact ho
    · rw [hcell]
      rfl
  noted m _ := .of_cells rfl rfl rfl (Nat.le_refl _)
  registry m _ := .of_cells rfl rfl rfl (Nat.le_refl _)
  issued m := .of_cells rfl rfl rfl (Nat.le_succ _)
  fragments m other _ := .setCell (fun _ hi ↦ ⟨hi, rfl⟩) id id
  loads m other hnone := by
    have hloaded := loaded_of_none hnone
    exact .setCell (fun i hi ↦ absurd (hloaded.1.symm.trans hi) nofun)
      (fun hraw ↦ absurd hnone hraw) fun _ ↦ hloaded.2
  begins m other _ _ _ _ := .setCell nofun id id
  completes _ hraw _ _ h := staysCleared_completed (hraw ▸ Option.some_ne_none _) h
  replaces m other _ _ := .setCell nofun (fun _ ↦ Option.some_ne_none _) fun _ ↦ rfl
  announced m _ _ := .of_cells rfl rfl rfl (Nat.le_refl _)
  references m _ _ _ _ := .of_cells rfl rfl rfl (Nat.le_refl _)
  bindsVariables m _ := .of_cells rfl rfl rfl (Nat.le_refl _)
  invalidates m other := .setCell nofun id fun _ ↦ rfl

end Model

end Buildpath
