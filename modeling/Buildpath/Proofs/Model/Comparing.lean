import Buildpath.Proofs.Model.Frames
import Buildpath.Proofs.Model.Steady
import Buildpath.Proofs.Shapes

/-!
# Comparing a project with how it was

The steps of comparing, and what they come to: bindings that are dropped (`drops_compareRaw`), and
notes that are added to what a change is about (`extends_compareOutcomes`).
-/

namespace Buildpath

variable {make : Path → String → Option Container} {m m' : Model} {es : List Entry}

/-! ### Bindings -/

namespace Model

/-- Whether a model differs by bindings of a project only that were dropped, of containers that one
buildpath mentions and the other does not mention in the same way. -/
def Drops (make : Path → String → Option Container) (project : String) (old new : List Entry)
    (m m' : Model) : Prop :=
  ∃ registry, m' = { m with registry } ∧ (∀ path,
    registry.container? make path project = m.registry.container? make path project ∨
      registry.container? make path project = make path project ∧
        ∃ e ∈ old, e.kind = .container ∧ e.path = path ∧ ¬ new.any (·.sameStructure e)) ∧
    ∀ path other, project ≠ other →
      registry.container? make path other = m.registry.container? make path other

instance {old new : List Entry} : Chained (Drops make project old new) where
  refl m := ⟨m.registry, rfl, fun _ ↦ .inl rfl, fun _ _ _ ↦ rfl⟩
  trans h h' := by
    obtain ⟨registry', rfl, hk', hothers'⟩ := h'
    obtain ⟨registry, rfl, hk, hothers⟩ := h
    refine ⟨registry', rfl, fun path ↦ ?_, fun path other hne ↦
      (hothers' path other hne).trans (hothers path other hne)⟩
    rcases hk' path with hk' | hdropped
    · rw [hk']
      exact hk path
    · exact .inr hdropped

end Model

namespace ModelM

/-- Comparing raw buildpaths drops bindings only. -/
theorem drops_compareRaw (old new : List Entry) (g : GeneratedDelta) :
    (compareRaw old new g).Moves (Model.Drops make g.project old new) := by
  unfold compareRaw
  split
  · exact .pure _
  · refine .bind (.forIn (fun e he _ ↦ ?_) _) fun _ ↦ .pure _
    split
    · next hdropped =>
      refine .bind (.modify fun m ↦ ⟨m.registry.reset e.path g.project, rfl, fun path ↦ ?_,
        fun path other hne ↦ ?_⟩) fun _ ↦ .pure _
      · obtain ⟨hkind, hnew⟩ := (Bool.and_eq_true _ _).mp hdropped
        rw [Registry.container?, Registry.reset, Registry.find?_set]
        by_cases hpath : e.path = path
        · refine .inr ⟨?_, e, he, of_decide_eq_true hkind, hpath, by simpa using hnew⟩
          rw [hpath, if_pos rfl]
          rfl
        · refine .inl ?_
          rw [if_neg (fun h ↦ hpath (Prod.mk.inj h).2)]
          rfl
      · rw [Registry.container?, Registry.reset, Registry.find?_set,
          if_neg (fun h ↦ hne (Prod.mk.inj h).1)]
        rfl
    · exact .pure _

end ModelM

/-! ### Notes -/

/-- Whether more was noted of a change. -/
structure GeneratedDelta.Extends (g g' : GeneratedDelta) : Prop where
  project : g'.project = g.project
  old : g'.old = g.old
  new : g'.new = g.new
  hasDelta : g.hasDelta → g'.hasDelta
  hasProjectChange : g.flags.hasProjectChange → g'.flags.hasProjectChange

namespace GeneratedDelta.Extends

variable {g g' g'' : GeneratedDelta}

theorem refl (g : GeneratedDelta) : g.Extends g := ⟨rfl, rfl, rfl, id, id⟩

theorem trans (h : g.Extends g') (h' : g'.Extends g'') : g.Extends g'' :=
  ⟨h'.project.trans h.project, h'.old.trans h.old, h'.new.trans h.new, h'.hasDelta ∘ h.hasDelta,
    h'.hasProjectChange ∘ h.hasProjectChange⟩

theorem noteKind (g : GeneratedDelta) (kind : EntryKind) : g.Extends (g.noteKind kind) := by
  cases kind <;> first | exact ⟨rfl, rfl, rfl, id, id⟩ | exact ⟨rfl, rfl, rfl, id, fun _ ↦ rfl⟩

theorem noteProjectChange (g : GeneratedDelta) : g.Extends g.noteProjectChange :=
  ⟨rfl, rfl, rfl, id, fun _ ↦ rfl⟩

theorem record (g : GeneratedDelta) (kind : DeltaKind) (flags : DeltaFlags) (fragments : List Fragment) :
    g.Extends (g.record kind flags fragments) :=
  ⟨rfl, rfl, rfl, id, id⟩

end GeneratedDelta.Extends

namespace ModelM

/-- The steps for an old entry, on the model as it is. -/
theorem compareOld_run (known : List Fragment) (new : List Entry) (g : GeneratedDelta)
    (index : Nat) (old : Entry) (m : Model) : (compareOld known new g index old).run m =
    StateT.run (match firstIndex? new old.rootId with
      | none =>
        if old.kind = .project then pure g.noteProjectChange
        else do
          (m.removedFragments g.project known old).forM closeFragment
          pure ((g.noteKind old.kind).record .removed { removed := true }
            (m.removedFragments g.project known old))
      | some newIndex =>
        if old.kind = .project then
          pure (if new[newIndex]?.all fun e ↦ e.exported = old.exported then g
            else g.noteProjectChange)
        else if newIndex = index then pure g
        else pure (g.record .changed { reordered := true } (m.ownFragments true g.project [old])) :
        ModelM GeneratedDelta) m := rfl

private theorem extends_compareOld (known : List Fragment) (new : List Entry) (g : GeneratedDelta)
    (index : Nat) (old : Entry) (m : Model) :
    g.Extends ((compareOld known new g index old).run m).1 := by
  rw [compareOld_run]
  cases firstIndex? new old.rootId with
  | none =>
    dsimp only
    split
    · exact .noteProjectChange g
    · exact .trans (.noteKind g old.kind) (.record _ _ _ _)
  | some newIndex =>
    dsimp only
    split
    · change g.Extends (if _ then g else g.noteProjectChange)
      split
      · exact .refl g
      · exact .noteProjectChange g
    · split
      · exact .refl g
      · exact .record _ _ _ _

private theorem extends_compareNew (m : Model) (old : List Entry) (g : GeneratedDelta) (new : Entry) :
    g.Extends (compareNew m old g new) := by
  unfold compareNew
  split
  · exact .refl g
  split
  · exact .noteProjectChange g
  · exact .trans (.noteKind g new.kind) (.record _ _ _ _)

private theorem run_foldlM_cons {α β : Type} (f : β → α → ModelM β) (a : α) (as : List α) (b : β)
    (m : Model) : ((a :: as).foldlM f b).run m =
      (as.foldlM f ((f b a).run m).1).run ((f b a).run m).2 := by
  rw [List.foldlM_cons]
  rfl

private theorem extends_foldlM_compareOld (known : List Fragment) (new : List Entry)
    (items : List (Entry × Nat)) (g : GeneratedDelta) (m : Model) : g.Extends
      ((items.foldlM (fun g (e, index) ↦ compareOld known new g index e) g).run m).1 := by
  induction items generalizing g m with
  | nil => exact .refl g
  | cons item items ih =>
    rw [run_foldlM_cons]
    exact .trans (extends_compareOld known new g item.2 item.1 m) (ih _ _)

private theorem extends_foldl_compareNew (m : Model) (old new : List Entry) (g : GeneratedDelta) :
    g.Extends (new.foldl (compareNew m old) g) := by
  induction new generalizing g with
  | nil => exact .refl g
  | cons e new ih => exact .trans (extends_compareNew m old g e) (ih _)

private theorem extends_compareResolved (known : List Fragment) (old new : List Entry)
    (g : GeneratedDelta) (m : Model) : g.Extends ((compareResolved known old new g).run m).1 :=
  .trans (extends_foldlM_compareOld known new _ g m) (extends_foldl_compareNew _ old new _)

/-- An old project entry without a match is noted as a change of projects. -/
private theorem matched_of_compareOld {known : List Fragment} {new : List Entry}
    {items : List (Entry × Nat)} {g : GeneratedDelta} {m : Model}
    (h : ¬ ((items.foldlM (fun g (e, index) ↦ compareOld known new g index e) g).run
      m).1.flags.hasProjectChange) :
    ∀ item ∈ items, item.1.kind = .project → ¬ item.1.Unmatched new := by
  induction items generalizing g m with
  | nil => exact fun _ hmem ↦ absurd hmem List.not_mem_nil
  | cons first items ih =>
    obtain ⟨e, index⟩ := first
    rw [run_foldlM_cons] at h
    dsimp only at h
    refine List.forall_mem_cons.mpr ⟨fun hkind hunmatched ↦ h ?_, ih h⟩
    have hnoted : ((compareOld known new g index e).run m).1.flags.hasProjectChange := by
      rw [compareOld_run, Option.isNone_iff_eq_none.mp (isNone_firstIndex?.mpr hunmatched)]
      dsimp only
      rw [if_pos hkind]
      rfl
    exact (extends_foldlM_compareOld known new items _ _).hasProjectChange hnoted

/-- A new project entry without a match is noted as a change of projects. -/
private theorem matched_of_compareNew {m : Model} {old new : List Entry} {g : GeneratedDelta}
    (h : ¬ (new.foldl (compareNew m old) g).flags.hasProjectChange) :
    ∀ e ∈ new, e.kind = .project → ¬ e.Unmatched old := by
  induction new generalizing g with
  | nil => exact fun _ hmem ↦ absurd hmem List.not_mem_nil
  | cons first new ih =>
    refine List.forall_mem_cons.mpr ⟨fun hkind hunmatched ↦ h ?_, ih h⟩
    have hnone : firstIndex? old first.rootId = none :=
      Option.isNone_iff_eq_none.mp (isNone_firstIndex?.mpr hunmatched)
    have hnoted : (compareNew m old g first).flags.hasProjectChange := by
      rw [compareNew, hnone, Option.isSome_none, if_neg Bool.false_ne_true, if_pos hkind]
      rfl
    exact (extends_foldl_compareNew m old new _).hasProjectChange hnoted

/-- Comparing entries without noting a change of projects finds the same links. -/
private theorem sameTexts_of_compareResolved {known : List Fragment} {old new : List Entry}
    {g : GeneratedDelta} {m : Model}
    (h : ¬ ((compareResolved known old new g).run m).1.flags.hasProjectChange) :
    SameTexts (links old) (links new) := by
  let compared := (old.zipIdx.foldlM (fun g (e, index) ↦ compareOld known new g index e) g).run m
  have hrun : ((compareResolved known old new g).run m).1 =
      new.foldl (compareNew compared.2 old) compared.1 := rfl
  rw [hrun] at h
  refine .of_matched (fun e he ↦ ?_) (matched_of_compareNew h)
  obtain ⟨index, hindex⟩ := List.mem_iff_getElem?.mp he
  have hcompared : ¬ compared.1.flags.hasProjectChange := fun hflag ↦
    h ((extends_foldl_compareNew compared.2 old new compared.1).hasProjectChange hflag)
  exact matched_of_compareOld hcompared (e, index) (List.mk_mem_zipIdx_iff_getElem?.mpr hindex)

/-- Results that differ are compared entry by entry. -/
theorem compareOutcomes_run {change : Change} {old new : Issued}
    (hold : change.resolved = some old)
    (h : ¬ sameStructure old.result.entries new.result.entries) (g : GeneratedDelta) (m : Model) :
    (compareOutcomes change new g).run m =
      (compareResolved (change.fragments.getD []) old.result.entries new.result.entries
        (g.addFlags { resolvedChanged := true })).run
          ((closeChildren change.project).run m).2.clearRoots := by
  rw [compareOutcomes_differ hold h]
  rfl

/-- Comparing results that differ finds a change. -/
theorem hasDelta_compareOutcomes {change : Change} {old new : Issued}
    (hold : change.resolved = some old)
    (h : ¬ sameStructure old.result.entries new.result.entries) (g : GeneratedDelta) (m : Model) :
    ((compareOutcomes change new g).run m).1.hasDelta := by
  rw [compareOutcomes_run hold h]
  exact (extends_compareResolved _ _ _ _ _).hasDelta rfl

/-- Comparing what a project was resolved to adds notes. -/
theorem extends_compareOutcomes (change : Change) (new : Issued) (g : GeneratedDelta) (m : Model) :
    g.Extends ((compareOutcomes change new g).run m).1 := by
  cases hold : change.resolved with
  | none =>
    rw [compareOutcomes_none hold]
    exact .refl g
  | some old =>
    by_cases h : sameStructure old.result.entries new.result.entries
    · rw [compareOutcomes_same hold h]
      exact .refl g
    · have hflags : g.Extends (g.addFlags { resolvedChanged := true }) :=
        ⟨rfl, rfl, rfl, fun _ ↦ rfl, id⟩
      rw [compareOutcomes_run hold h]
      exact .trans hflags (extends_compareResolved _ _ _ _ _)

/-- Comparing what a project was resolved to without noting a change of projects finds the same links. -/
theorem sameTexts_of_compareOutcomes {change : Change} {old new : Issued} {g : GeneratedDelta}
    {m : Model} (hold : change.resolved = some old)
    (h : ¬ ((compareOutcomes change new g).run m).1.flags.hasProjectChange) :
    SameTexts (links old.result.entries) (links new.result.entries) := by
  by_cases hsame : sameStructure old.result.entries new.result.entries
  · have hroots := rootIds_of_sameStructure hsame
    have hmatched : ∀ {es es' : List Entry}, es.map Entry.rootId = es'.map Entry.rootId →
        ∀ e ∈ es, ¬ e.Unmatched es' := by
      intro es es' hroots e he hunmatched
      obtain ⟨o, ho, hroot⟩ := List.mem_map.mp (hroots ▸ List.mem_map_of_mem he)
      exact hunmatched o ho hroot
    exact .of_matched (fun e he _ ↦ hmatched hroots e he) fun e he _ ↦ hmatched hroots.symm e he
  · rw [compareOutcomes_run hold hsame] at h
    exact sameTexts_of_compareResolved h

/-- Comparing raw buildpaths adds notes. -/
theorem extends_compareRaw (old new : List Entry) (g : GeneratedDelta) (m : Model) :
    g.Extends ((compareRaw old new g).run m).1 := by
  unfold compareRaw
  split
  · exact .refl g
  · exact ⟨rfl, rfl, rfl, fun _ ↦ rfl, id⟩

theorem extends_compareRaws (change : Change) (new : List Entry) (g : GeneratedDelta) (m : Model) :
    g.Extends ((compareRaws change new g).run m).1 := by
  unfold compareRaws
  cases change.raw with
  | none => exact .refl g
  | some old => exact extends_compareRaw old new g m

/-- Comparing raw buildpaths that differ finds a change. -/
theorem hasDelta_compareRaw {old new : List Entry} (h : ¬ sameStructure old new)
    (g : GeneratedDelta) (m : Model) : ((compareRaw old new g).run m).1.hasDelta := by
  unfold compareRaw
  rw [if_neg h]
  rfl

/-! ### Steps -/

/-- The steps of comparing a project that can be resolved with how it was. -/
theorem generateDelta_run {change : Change} {i : Issued}
    (hrun : (resolution change.project).runOn m = (.ok i, m')) :
    (generateDelta change).run m = (do
        let g ← compareRaws change (m'.cell change.project).rawEntries
          { project := change.project, delta := { project := change.project }
            old := change.resolved, new := some i }
        let g ← compareOutcomes change i g
        return (g, { project := change.project, raw := some (m'.cell change.project).rawEntries
                     resolved := some i }) : ModelM (GeneratedDelta × Change)).run
      (m'.setCell change.project (m'.cell change.project)) := by
  rw [generateDelta_eq]
  have hfirst : (resolution change.project).run.run m = (.ok i, m') := hrun
  rw [StateT.run_bind, hfirst]
  rfl

/-- The steps of applying a change to a project that can be resolved. -/
theorem applyChange_run {change : Change} {old : List Entry} {i : Issued}
    (hrun : (resolution change.project).runOn m = (.ok i, m')) (hold : change.raw = some old)
    (hentries : (m'.cell change.project).rawEntries = es) (setsUpFolders : Bool) :
    (applyChange change setsUpFolders).run m =
      (compareRaw old es { project := change.project, delta := { project := change.project }
                           old := change.resolved, new := some i } >>= fun g ↦
        compareOutcomes change i g >>= fun g ↦ followUp change g setsUpFolders >>= fun _ ↦
        pure g).run (m'.setCell change.project (m'.cell change.project)) := by
  rw [applyChange_eq, StateT.run_bind, generateDelta_run hrun, compareRaws, hold, hentries]
  rfl

/-- What comparing tells of a project that can be resolved: what it was and is resolved to, and that
something changed, unless these are the same. -/
theorem generateDelta_spec {change : Change} {old i : Issued}
    (hrun : (resolution change.project).runOn m = (.ok i, m')) (hold : change.resolved = some old) :
    ((generateDelta change).run m).1.1.old = some old ∧
      ((generateDelta change).run m).1.1.new = some i ∧
      (¬ ((generateDelta change).run m).1.1.hasDelta →
        sameStructure old.result.entries i.result.entries) := by
  let begun : GeneratedDelta :=
    { project := change.project, delta := { project := change.project }
      old := change.resolved, new := some i }
  let m₁ := m'.setCell change.project (m'.cell change.project)
  have hgenerated : ((generateDelta change).run m).1.1 = ((compareOutcomes change i
      ((compareRaws change (m'.cell change.project).rawEntries begun).run m₁).1).run
        ((compareRaws change (m'.cell change.project).rawEntries begun).run m₁).2).1 := by
    rw [generateDelta_run hrun]
    rfl
  rw [hgenerated]
  have hextends := extends_compareRaws change (m'.cell change.project).rawEntries begun m₁
  generalize (compareRaws change (m'.cell change.project).rawEntries begun).run m₁ = compared
    at hextends
  have houtcomes := extends_compareOutcomes change i compared.1 compared.2
  refine ⟨houtcomes.old.trans (hextends.old.trans hold), houtcomes.new.trans hextends.new, fun h ↦ ?_⟩
  exact Decidable.byContradiction fun hdiffers ↦
    h (hasDelta_compareOutcomes hold hdiffers compared.1 compared.2)

/-- What a change comes to is about its project. -/
theorem project_generateDelta (change : Change) (m : Model) :
    ((generateDelta change).run m).1.1.project = change.project := by
  rw [generateDelta_eq, StateT.run_bind]
  rcases (resolution change.project).run.run m with ⟨failure | i, m'⟩
  · rfl
  · exact (extends_compareOutcomes change i _ _).project.trans
      (extends_compareRaws change _ _ _).project

theorem project_applyChange (change : Change) (setsUpFolders : Bool) (m : Model) :
    ((applyChange change setsUpFolders).run m).1.project = change.project := by
  rw [applyChange_eq]
  exact project_generateDelta change m

end ModelM

end Buildpath
