import Buildpath.Proofs.Model.Resolving

/-!
# Published results

What a cell holds at any time comes from the resolution completed last, of the raw buildpath that the
cell holds (`cell_publication`). A resolution that was overtaken by a change still answers the one who
asked for it, but leaves the cell alone.
-/

namespace Buildpath

namespace ModelM

variable {m : Model} {project : String}

/-- A resolution that starts resolves the raw buildpath of the moment; whoever asked for it gets the
result, and the cell keeps it if it is not of another generation by then. -/
theorem resolutionBy_of_start (find : Path → String → ModelM (Option Container))
    (hexists : m.workspace.projectExists project) {generation : Nat} {current : Option RawBuildpath}
    {last : Option Issued} {c : Cell} (hb : (m.loaded project).begin (project ∈ m.resolving) =
      (.start generation current last, c)) :
    ∃ m₀ m₁ result m', m₀.cell project = c ∧
      (resolveRaw find project (m.raw project).entries last).run m₀ = (result, m₁) ∧
      (resolutionBy find project).runOn m = (.ok ⟨m₁.issued, result⟩, m') ∧
      m'.cell project = (m₁.cell project).complete generation ⟨m₁.issued, result⟩ := by
  obtain ⟨cells, hrun, hcell⟩ := resolutionBy_runOn find hexists
  rw [hb] at hrun hcell
  have hcurrent : current = some (m.raw project) := by
    have hraw := CellStep.begins_eq (s := ⟨m.loaded project, .begin (project ∈ m.resolving)⟩)
      ⟨_, last, rfl, congrArg Prod.fst hb⟩
    exact hraw.2.trans (Model.raw_loaded m project)
  obtain ⟨m₁, result, hresolve⟩ : ∃ m₁ result, (resolveRaw find project (m.raw project).entries
      last).run { m with cells, resolving := project :: m.resolving } = (result, m₁) := ⟨_, _, rfl⟩
  have hanew : (resolveAnew find project generation (m.raw project).entries last).run
      { m with cells } = (⟨m₁.issued, result⟩,
        { ({ m₁ with issued := m₁.issued + 1 } : Model).setCell project
            ((m₁.cell project).complete generation ⟨m₁.issued, result⟩) with
          resolving := m₁.resolving.erase project }) := by
    have hsteps : (resolveAnew find project generation (m.raw project).entries last).run
        { m with cells } = ((do
          let issued ← issue ((resolveRaw find project (m.raw project).entries last).run
            { m with cells, resolving := project :: m.resolving }).1
          modifyCell project (·.complete generation issued)
          modify fun m ↦ { m with resolving := m.resolving.erase project }
          pure issued : ModelM Issued)).run ((resolveRaw find project (m.raw project).entries
            last).run { m with cells, resolving := project :: m.resolving }).2 := rfl
    rw [hsteps, hresolve]
    rfl
  dsimp only at hrun
  rw [hcurrent, Option.getD_some, Action.runOn_lift, hanew] at hrun
  refine ⟨_, m₁, result, _, ?_, hresolve, hrun, ?_⟩
  · exact (hcell project).trans (if_pos rfl)
  · exact (Model.cell_setCell _ _ _ _).trans (if_pos rfl)

end ModelM

/-- Along every run of calls on a cell, however the resolutions that began on it nest: the valid result
was completed for the raw buildpath that the cell still holds; fragments and visible roots were stored
for the result published last, and nothing was invalidated since; the raw buildpath is replaced by
setting another one only, and a resolution that began before something was invalidated is never
published, though whoever asked for it gets the result. -/
theorem cell_publication {steps : List CellStep} {c : Cell} (h : c.Run steps) :
    (∀ r, c.state = .resolved r → ∃ s later earlier, LastChange steps s later earlier ∧
      s.Publishes r ∧ (∃ s' ∈ earlier, s'.Begins s.before.generation c.raw) ∧
      ∀ s' ∈ earlier, ∀ raw, s'.Begins s.before.generation raw → raw = c.raw) ∧
    (∀ fragments, c.fragments = some fragments → Cell.KeptSince steps fun r s ↦
      ∃ result, s.call = .storeFragments result fragments ∧ result.number = r.number) ∧
    (∀ roots, c.roots = some roots → Cell.KeptSince steps fun r s ↦
      ∃ result, s.call = .storeRoots result roots ∧ result.number = r.number) ∧
    (∀ s ∈ steps, ∀ raw, s.before.raw = some raw →
      s.after.raw = some raw ∨ ∃ entries, s.call = .setRaw entries) ∧
    (∀ s ∈ steps, s.Invalidates → s.before.generation < s.after.generation) ∧
    (∀ later s earlier, steps = later ++ s :: earlier → s.Invalidates → ∀ s' ∈ earlier,
      ∀ generation raw, s'.Begins generation raw → ∀ result, c.complete generation result = c) ∧
    ∀ (find : Path → String → ModelM (Option Container)) (m : Model) (project : String)
      (generation : Nat) (current : Option RawBuildpath) (last : Option Issued) (begun : Cell),
      m.workspace.projectExists project →
      (m.loaded project).begin (project ∈ m.resolving) = (.start generation current last, begun) →
      ∃ m₀ m₁ result m', m₀.cell project = begun ∧
        (ModelM.resolveRaw find project (m.raw project).entries last).run m₀ = (result, m₁) ∧
        (ModelM.resolutionBy find project).runOn m = (.ok ⟨m₁.issued, result⟩, m') ∧
        m'.cell project = (m₁.cell project).complete generation ⟨m₁.issued, result⟩ := by
  refine ⟨fun r hr ↦ ?_, h.sound.fragments, h.sound.roots, fun s hs raw hraw ↦ ?_,
    fun s hs hi ↦ ?_, ?_, fun find m project generation current last begun hexists hb ↦
      ModelM.resolutionBy_of_start find hexists hb⟩
  · have hissued : c.issued? = some r := by rw [Cell.issued?, hr]; rfl
    obtain ⟨s, later, earlier, hlast, hpublishes, hgeneration, s', hs', raw, hb⟩ :=
      h.sound.issued r hissued
    have same : ∀ s' ∈ earlier, ∀ raw, s'.Begins s.before.generation raw → raw = c.raw := by
      intro s' hs' raw hb
      have hmem : s' ∈ steps :=
        hlast.split ▸ List.mem_append_right later (List.mem_cons_of_mem s hs')
      exact (h.sound.begun s' hmem _ raw hb).2 hgeneration
    rw [← hgeneration] at hb
    exact ⟨s, later, earlier, hlast, hpublishes, ⟨s', hs', same s' hs' raw hb ▸ hb⟩, same⟩
  · rcases CellStep.raw_after hraw with hsame | ⟨entries, hcall, -⟩
    · exact .inl hsame
    · exact .inr ⟨entries, hcall⟩
  · exact (CellStep.after_of_invalidates hi).1 ▸ Nat.lt_succ_self _
  · rintro later s earlier rfl hi s' hs' generation raw hb result
    exact Cell.complete_of_ne (Nat.ne_of_gt (h.lt_generation hi hs' hb)) result

/-- Of two resolutions, the one that began before the cell was reset is not published; the fragments
that were stored belong to the other one. -/
theorem cell_publication_overtaken : ∃ steps c, Cell.Run steps c ∧ c.state = .resolved ⟨1, {}⟩ ∧
    c.fragments = some [] ∧
    (Cell.KeptSince steps fun r s ↦
      ∃ result, s.call = .storeFragments result [] ∧ result.number = r.number) ∧
    c.complete 1 ⟨2, {}⟩ = c := by
  have began := ((Cell.Run.new.step (.setRaw []) trivial).step (.begin false) trivial).step .reset
    trivial |>.step (.begin false) trivial
  have overtaken := began.step (.complete 1 ⟨0, {}⟩)
    ⟨_, .tail _ (.tail _ (.head _)), _, false, none, rfl, rfl⟩
  have published := overtaken.step (.complete 2 ⟨1, {}⟩)
    ⟨_, .tail _ (.head _), _, false, none, rfl, rfl⟩
  have run := published.step (.storeFragments ⟨1, {}⟩ []) trivial
  obtain ⟨-, hfragments, -, -, -, hovertaken, -⟩ := cell_publication run
  refine ⟨_, _, run, rfl, rfl, hfragments [] rfl, ?_⟩
  -- the third call reset the cell, after the second one began
  exact hovertaken [_, _, _, _] _ [_, _] rfl trivial _ (.head _) 1 _ ⟨false, none, rfl, rfl⟩ _

end Buildpath
