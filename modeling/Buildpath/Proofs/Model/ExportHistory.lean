import Buildpath.Proofs.Exports
import Buildpath.Proofs.Model.Histories
import Buildpath.Proofs.Model.Resolving

/-!
# Exported entries over histories

What a project resolves to depends on its last result, and so on the raw buildpaths that it had before
(`Model.Yields`). An entry of a result is exported only if the raw entry that brought it in is exported, or
if it is a library that the raw entry brings along and that an exported raw entry brought in before
(`exported_resolution`): a library that another one brought along stays exported once it was.
-/

namespace Buildpath

variable {given : List Entry → Prop} {project : String} {location : Option Path} {m m' : Model}
  {raw : List Entry} {r : Resolved}

namespace Model

/-- The resolutions of a project at a place, the last one first: the raw buildpath that it was given, and
what it came to with the result before as the last one. -/
inductive Yields (given : List Entry → Prop) (project : String) (location : Option Path) :
    List (List Entry × Resolved) → Prop where
  | nil : Yields given project location []
  | cons {past : List (List Entry × Resolved)} {m : Model} {raw : List Entry} {r : Resolved}
    (earlier : Yields given project location past) (isGiven : given raw)
    (located : m.workspace.projectLocation? project = location)
    (isLast : (m.cell project).last.map Issued.result = past.head?.map Prod.snd)
    (outcome : m.Outcome project raw r) : Yields given project location ((raw, r) :: past)

/-- Whether an entry is a library that a raw buildpath does not list, and an exported raw entry brought in
what stood at its path in an earlier result. -/
structure WasExported (location : Option Path) (past : List (List Entry × Resolved)) (raw : List Entry)
    (e : Entry) : Prop where
  isLibrary : e.kind = .library
  isUnlisted : ∀ o ∈ raw, o.kind = .library → (o.resolveFrom location).path ≠ e.path
  earlier : ∃ before ∈ past, ∃ o ∈ before.1, before.2.rawOf.find? e.path = some o ∧ o.exported

/-- A raw buildpath is resolved with the entries of the last result at hand, if there is one. -/
theorem Outcome.exports {last : Option Resolved} (h : m.Outcome project raw r)
    (hlocation : m.workspace.projectLocation? project = location)
    (hlast : (m.cell project).last.map Issued.result = last) :
    r.Exports raw ((raw.filter (·.kind = .library)).map fun o ↦ (o.resolveFrom location).path)
      ((last.map Resolved.roots).getD .empty) := by
  obtain ⟨find, m₁, rfl⟩ := h
  subst hlocation hlast
  rw [Option.map_map]
  refine resolve_exports (b := ModelM.bindings find project)
    (c := m.resolutionContext project (m.cell project).last) (fun o _ s e' he' hexported ↦ ?_) m₁
  -- what a variable stands for is exported as the entry that mentions it
  have hentry : s.variableValues.entry? s.workspace o = some e' := he'
  unfold Variables.entry? at hentry
  split at hentry
  · cases hentry
    exact hexported
  · obtain ⟨path, -, hentry⟩ := Option.bind_eq_some_iff.mp hentry
    split at hentry
    · cases hentry
      exact hexported
    · cases hentry
      exact hexported

end Model

namespace Model

/-- Along all resolutions of a project, an entry is exported only if the raw entry that brought it in is, or
if it was exported before. -/
theorem Yields.exported {past : List (List Entry × Resolved)}
    (h : Yields given project location ((raw, r) :: past)) : r.Keyed ∧ ∀ e ∈ r.entries, ∃ o ∈ raw,
      r.rawOf.find? e.path = some o ∧ (e.exported → o.exported ∨ WasExported location past raw e) := by
  have hlisted : ∀ {raw : List Entry} {path : Path}, path ∉ (raw.filter (·.kind = .library)).map
      (fun o ↦ (o.resolveFrom location).path) →
        ∀ o ∈ raw, o.kind = .library → (o.resolveFrom location).path ≠ path := by
    intro raw path hpath o ho hkind heq
    exact hpath (List.mem_map.mpr ⟨o, List.mem_filter.mpr ⟨ho, by simpa using hkind⟩, heq⟩)
  induction past generalizing raw r with
  | nil =>
    cases h with
    | cons _ _ hlocation hlast houtcome =>
      obtain ⟨hkeyed, hmay⟩ := houtcome.exports hlocation hlast
      refine ⟨hkeyed, fun e he ↦ ?_⟩
      obtain ⟨o, ho, hraw, hexports⟩ := hmay e he
      refine ⟨o, ho, hraw, fun hexported ↦ ?_⟩
      rcases hexports hexported with hexported | ⟨-, -, old, hold, -⟩
      · exact .inl hexported
      · cases hold
  | cons last past ih =>
    cases h with
    | cons hearlier _ hlocation hlast houtcome =>
      obtain ⟨hkeyed, hmay⟩ := houtcome.exports hlocation hlast
      refine ⟨hkeyed, fun e he ↦ ?_⟩
      obtain ⟨o, ho, hraw, hexports⟩ := hmay e he
      refine ⟨o, ho, hraw, fun hexported ↦ ?_⟩
      rcases hexports hexported with hexported | ⟨hkind, hunlisted, old, hold, hexported⟩
      · exact .inl hexported
      · obtain ⟨hkeyed', hbefore⟩ := ih hearlier
        obtain ⟨hold, hpath⟩ := hkeyed'.mem_of_find? hold
        obtain ⟨o', ho', hraw', hexports'⟩ := hbefore old hold
        rw [hpath] at hraw'
        refine .inr ⟨hkind, hlisted hunlisted, ?_⟩
        -- the last result had it because of its raw entry, or because of one that is earlier still
        rcases hexports' hexported with hexported' | hwas
        · exact ⟨last, List.mem_cons_self, o', ho', hraw', hexported'⟩
        · obtain ⟨before, hmem, o'', ho'', hraw'', hexported''⟩ := hwas.earlier
          exact ⟨before, List.mem_cons_of_mem _ hmem, o'', ho'', hpath ▸ hraw'', hexported''⟩

end Model

/-! ### What is remembered of a project -/

/-- Whether a cell comes from another one without a new result; what counts of the results counted before,
for the same raw buildpath. -/
structure Cell.Follows (c c' : Cell) : Prop where
  last : c'.last = c.last
  issued : ∀ i, c'.issued? = some i → c.issued? = some i ∧ c'.raw = c.raw
  generation : c.generation ≤ c'.generation
  raw : c'.generation = c.generation → c'.raw = c.raw

theorem Cell.Follows.of_same {c c' : Cell} (hraw : c'.raw = c.raw)
    (hgeneration : c'.generation = c.generation) (hlast : c'.last = c.last) (hissued : ∀ i, c'.issued? = some i → c.issued? = some i) : c.Follows c' :=
  ⟨hlast, fun i hi ↦ ⟨hissued i hi, hraw⟩, Nat.le_of_eq hgeneration.symm, fun _ ↦ hraw⟩

theorem Cell.Follows.refl (c : Cell) : c.Follows c := .of_same rfl rfl rfl fun _ ↦ id

theorem Cell.follows_invalidate (c : Cell) (raw : Option RawBuildpath) (stamp : Option Nat) :
    c.Follows { c with raw, stamp }.invalidate :=
  ⟨rfl, nofun, Nat.le_succ _, fun h ↦ absurd h (Nat.succ_ne_self _)⟩

namespace Model

theorem follows_loaded (m : Model) (project : String) : (m.cell project).Follows (m.loaded project) := by
  unfold loaded Cell.storeRaw
  split
  · exact .refl _
  · exact Cell.follows_invalidate _ _ _

/-- Whether the results that are remembered of a project are what resolutions of the raw buildpaths given
to it come to, and the valid one is that of the raw buildpath that it has. -/
structure Recorded (given : List Entry → Prop) (project : String) (location : Option Path) (m : Model) :
    Prop where
  located : m.workspace.projectLocation? project = location
  last : ∀ i, (m.cell project).last = some i →
    ∃ raw past, Yields given project location ((raw, i.result) :: past)
  issued : ∀ i, (m.cell project).issued? = some i → ∃ raw past, (m.cell project).raw = some raw ∧
    Yields given project location ((raw.entries, i.result) :: past)

/-- Steps that only remember what resolutions come to, and leave the files alone. -/
structure KeepsRecord (given : List Entry → Prop) (project : String) (m m' : Model) : Prop where
  files : m'.workspace.files = m.workspace.files
  generation : (m.cell project).generation ≤ (m'.cell project).generation
  raw : (m'.cell project).generation = (m.cell project).generation →
    (m'.cell project).raw = (m.cell project).raw
  isGiven : given (m.raw project).entries → given (m'.raw project).entries
  recorded : ∀ location, given (m.raw project).entries → m.Recorded given project location →
    m'.Recorded given project location

theorem Recorded.of_cell (h : m.Recorded given project location)
    (hlocated : m'.workspace.projectLocation? project = m.workspace.projectLocation? project)
    (hcell : (m.cell project).Follows (m'.cell project)) : m'.Recorded given project location := by
  refine ⟨hlocated.trans h.located, fun i hi ↦ h.last i (hcell.last ▸ hi), fun i hi ↦ ?_⟩
  obtain ⟨hissued, hraw⟩ := hcell.issued i hi
  rw [hraw]
  exact h.issued i hissued

theorem KeepsRecord.of_cell (hfiles : m'.workspace.files = m.workspace.files)
    (hcell : (m.cell project).Follows (m'.cell project))
    (hgiven : given (m.raw project).entries → given (m'.raw project).entries) :
    m.KeepsRecord given project m' :=
  ⟨hfiles, hcell.generation, hcell.raw, hgiven,
    fun _ _ h ↦ h.of_cell (Workspace.projectLocation?_of_files hfiles project) hcell⟩

/-- Steps that do not replace the raw buildpath. -/
theorem KeepsRecord.of_raw (hfiles : m'.workspace.files = m.workspace.files)
    (hcell : (m.cell project).Follows (m'.cell project))
    (hraw : (m'.cell project).raw = (m.cell project).raw) : m.KeepsRecord given project m' :=
  .of_cell hfiles hcell fun h ↦ raw_of_files hfiles hraw ▸ h

/-- Changing the cell of some project. -/
theorem KeepsRecord.setCell {other : String} {c : Cell}
    (h : other = project → (m.cell project).Follows c ∧
      (given (m.raw project).entries → given (c.raw.getD (m.fileRaw project)).entries)) :
    m.KeepsRecord given project (m.setCell other c) := by
  have hcell := m.cell_setCell other project c
  split at hcell
  · next heq =>
    obtain ⟨hfollows, hgiven⟩ := h heq
    refine .of_cell rfl (by rw [hcell]; exact hfollows) fun hraw ↦ ?_
    rw [Model.raw, hcell]
    exact hgiven hraw
  · exact .of_raw rfl (by rw [hcell]; exact .refl _) (by rw [hcell])

instance : Chained (KeepsRecord given project) where
  refl m := .of_raw rfl (.refl _) rfl
  trans h h' := by
    refine ⟨h'.files.trans h.files, Nat.le_trans h.generation h'.generation, fun heq ↦ ?_,
      fun hgiven ↦ h'.isGiven (h.isGiven hgiven),
      fun location hgiven hm ↦ h'.recorded location (h.isGiven hgiven) (h.recorded location hgiven hm)⟩
    have hmiddle : _ = _ := Nat.le_antisymm (heq ▸ h'.generation) h.generation
    exact (h'.raw (heq.trans hmiddle.symm)).trans (h.raw hmiddle)

/-- What a resolution comes to is what was to be remembered. -/
theorem Recorded.yields (h : m.Recorded given project location) (hgiven : given raw)
    (houtcome : m.Outcome project raw r) : ∃ past, Yields given project location ((raw, r) :: past) := by
  cases hlast : (m.cell project).last with
  | none => exact ⟨[], .cons .nil hgiven h.located (by rw [hlast]; rfl) houtcome⟩
  | some last =>
    obtain ⟨before, past, hbefore⟩ := h.last last hlast
    exact ⟨_, .cons hbefore hgiven h.located (by rw [hlast]; rfl) houtcome⟩

/-- Completing a resolution. If the cell was not invalidated meanwhile, it has the raw buildpath that was
resolved. -/
private theorem keepsRecord_completed {other : String} {raw : RawBuildpath}
    (hraw : (m.cell other).raw = some raw) (houtcome : m.Outcome other raw.entries r)
    (h : m.KeepsRecord given project m') :
    m.KeepsRecord given project (m'.completed other (m.cell other).generation r) := by
  have hcell := m'.cell_completed other project (m.cell other).generation r
  split at hcell
  · next heq =>
    subst heq
    by_cases hcurrent : (m'.cell other).generation = (m.cell other).generation
    · rw [Cell.complete, if_pos hcurrent] at hcell
      have hraw' := (h.raw hcurrent).trans hraw
      have hsame : (m'.completed other (m.cell other).generation r).raw other = m'.raw other := by
        rw [Model.raw, hcell]
        rfl
      refine ⟨h.files, by rw [hcell]; exact h.generation, fun heq ↦ ?_, fun hgiven ↦ ?_,
        fun location hgiven hm ↦ ?_⟩
      · rw [hcell] at heq ⊢
        exact h.raw heq
      · exact hsame ▸ h.isGiven hgiven
      · have hentries : given raw.entries := by
          rw [Model.raw, hraw] at hgiven
          exact hgiven
        obtain ⟨past, hyields⟩ := hm.yields hentries houtcome
        refine ⟨(h.recorded location hgiven hm).located, fun i hi ↦ ?_, fun i hi ↦ ?_⟩
        · rw [hcell] at hi
          cases hi
          exact ⟨raw.entries, past, hyields⟩
        · rw [hcell] at hi ⊢
          cases hi
          exact ⟨raw, past, hraw', hyields⟩
    · rw [Cell.complete_of_ne hcurrent] at hcell
      exact Chained.trans h (.of_raw rfl (by rw [hcell]; exact .refl _) (by rw [hcell]))
  · exact Chained.trans h (.of_raw rfl (by rw [hcell]; exact .refl _) (by rw [hcell]))

instance : OperationFrame (fun other entries ↦ other = project → given entries)
    (KeepsRecord given project) where
  volatile m _ _ _ _ := .of_raw rfl (.refl _) rfl
  touched m other := .setCell fun heq ↦ by subst heq; exact ⟨.refl _, id⟩
  clearRoots m := by
    have hcell := m.cell_clearRoots project
    exact .of_raw rfl (by rw [hcell]; exact .of_same rfl rfl rfl fun _ ↦ id) (by rw [hcell]; rfl)
  noted m _ := .of_raw rfl (.refl _) rfl
  registry m _ := .of_raw rfl (.refl _) rfl
  issued m := .of_raw rfl (.refl _) rfl
  fragments m other _ := .setCell fun heq ↦ by subst heq; exact ⟨.of_same rfl rfl rfl fun _ ↦ id, id⟩
  loads m other _ := .setCell fun heq ↦ by
    subst heq
    exact ⟨m.follows_loaded other, fun hgiven ↦ by rw [raw_loaded]; exact hgiven⟩
  begins m other _ _ hraw _ := .setCell fun heq ↦ by
    subst heq
    exact ⟨.of_same rfl rfl rfl nofun, id⟩
  completes _ hraw _ houtcome h := keepsRecord_completed hraw houtcome
    ⟨h.files, h.generation, h.raw, h.isGiven,
      fun location hgiven hm ↦ h.recorded location hgiven ⟨hm.located, hm.last, hm.issued⟩⟩
  replaces m other entries hallowed := .setCell fun heq ↦ by
    subst heq
    exact ⟨Cell.follows_invalidate _ _ _, fun _ ↦ hallowed rfl⟩
  announced m _ _ := .of_raw rfl (.refl _) rfl
  references m w name names h := .of_raw (Workspace.files_setReferences h) (.refl _) rfl
  bindsVariables m _ := .of_raw rfl (.refl _) rfl
  invalidates m other := .setCell fun heq ↦ by
    subst heq
    exact ⟨Cell.follows_invalidate _ _ _, id⟩

end Model

/-! ### Histories -/

namespace ModelM

/-- A project that is resolved comes to what its raw buildpath yields, unless it is being resolved. -/
theorem resolution_yields {i : Issued} (hm : m.Recorded given project location)
    (hgiven : given (m.raw project).entries) (h : (resolution project).runOn m = (.ok i, m')) :
    i.result = .ofProgress ∨
      ∃ past, Model.Yields given project location (((m.raw project).entries, i.result) :: past) := by
  obtain ⟨⟨⟩, _, hproject, -⟩ := Action.bind_eq_ok.mp h
  obtain ⟨-, hexists⟩ := requireProject_eq_ok hproject
  obtain ⟨cells, hrun, -⟩ := resolutionBy_runOn findContainer hexists
  have hfollows : (m.cell project).Follows (m.loaded project) := m.follows_loaded project
  rw [resolution, hrun] at h
  rcases (m.loaded project).begin_cases (project ∈ m.resolving) with
    ⟨j, hj, -, hb⟩ | ⟨-, hb⟩ | ⟨-, -, generation, hb⟩
  · rw [hb] at h
    cases h
    obtain ⟨hissued, hraw⟩ := hfollows.issued i hj
    obtain ⟨raw, past, hraw', hyields⟩ := hm.issued i hissued
    rw [Model.raw, hraw']
    exact .inr ⟨past, hyields⟩
  · rw [hb] at h
    cases h
    exact .inl rfl
  · rw [hb] at h
    dsimp only at h
    rw [Model.raw_loaded, Option.getD_some, hfollows.last] at h
    cases h
    exact .inr (hm.yields hgiven
      ⟨findContainer, { m with cells, resolving := project :: m.resolving }, rfl⟩)

/-- Writing the file of a project changes nothing of what is remembered of its results. -/
theorem recorded_saveFile {other : String} {es : List Entry} (h : m.Recorded given project location)
    (hsave : (saveFile other es).runOn m = (.ok (), m')) :
    m'.Recorded given project location ∧ m'.initializers = m.initializers := by
  obtain ⟨isWritten, w, hsaved, rfl⟩ := saveFile_eq_ok hsave
  have hcell := ({ m with workspace := w } : Model).cell_setCell other project
    ((m.cell other).setStamp (w.stamp? (projectFilePath other)))
  refine ⟨h.of_cell ((Workspace.Saves.of_save hsaved).projects.2 _) ?_, rfl⟩
  rw [hcell]
  split
  · next heq => exact heq ▸ .of_same rfl rfl rfl fun _ ↦ id
  · exact .refl _

/-- Closing a project leaves nothing to be remembered of it. -/
theorem recorded_closeProject (h : m.Recorded given project location) (other : String) :
    ((closeProject other).run m).2.Recorded given project location := by
  have hcell := cell_closeProject m other project
  split at hcell
  · exact ⟨h.located, by rw [hcell]; nofun, by rw [hcell]; nofun⟩
  · exact h.of_cell rfl (by rw [hcell]; exact .of_same rfl rfl rfl fun _ ↦ id)

end ModelM

/-- Whether the raw buildpath that a project has, and the one that an operation gives it, have a property. -/
def Operation.Gives (given : List Entry → Prop) (project : String) (m : Model) (op : Operation) : Prop :=
  given (m.raw project).entries ∧ ∀ entries saves, op = .setRaw project entries saves → given entries

/-- What is remembered of a project is recorded all along, also when it is closed and forgotten. -/
theorem Operation.recorded {op : Operation}
    (htame : m.Tame fun other entries ↦ other = project → given entries)
    (hgives : op.Gives given project m) (h : m.Recorded given project location) :
    (op.apply m).Recorded given project location ∧
      (op.apply m).Tame fun other entries ↦ other = project → given entries := by
  let allows := fun other entries ↦ other = project → given entries
  have of_moves : ∀ {x : ModelM Unit}, x.Moves (Model.Tamely allows (Model.KeepsRecord given project)) →
      (x.run m).2.Recorded given project location ∧ (x.run m).2.Tame allows := fun hx ↦
    ⟨(hx m htame).1.recorded location hgives.1 h, (hx m htame).2⟩
  have hregistry : ∀ (m : Model) registry, Model.Tamely allows (Model.KeepsRecord given project) m
      { m with registry } := fun m registry ↦ .of_initializers (TameFrame.registry m registry) rfl
  have hheld : ∀ (m : Model) held, Model.Tamely allows (Model.KeepsRecord given project) m
      { m with held } := fun m _ ↦ Backdrop.volatile m _ _ _ _
  cases op with
  | setRaw other entries saves =>
    obtain ⟨begun, m₂, held, held', hbegun, hm', hcases⟩ := ModelM.setRaw_cases m other entries saves
    have hm' : (Operation.setRaw other entries saves).apply m = { m₂ with held := held' } := hm'
    have hallowed : allows other entries := fun heq ↦ hgives.2 entries saves (by rw [heq])
    have hreplaced := ModelM.moves_replaceRaw_tame (R := Model.KeepsRecord given project) hallowed saves
      begun (by rw [hbegun]; exact htame)
    have hm₁ := hreplaced.1.recorded location (by rw [hbegun]; exact hgives.1)
      (by rw [hbegun]; exact ⟨h.located, h.last, h.issued⟩)
    rw [hm']
    rcases hcases with rfl | rfl | ⟨-, hsave⟩
    · rw [hbegun]
      exact ⟨⟨h.located, h.last, h.issued⟩, htame⟩
    · exact ⟨⟨hm₁.located, hm₁.last, hm₁.issued⟩, hreplaced.2⟩
    · obtain ⟨hm₂, hinitializers⟩ := ModelM.recorded_saveFile hm₁ hsave
      exact ⟨⟨hm₂.located, hm₂.last, hm₂.issued⟩,
        Model.Tame.of_initializers hreplaced.2 hinitializers⟩
  | setContainer path containers =>
    exact of_moves (.discard (ModelM.moves_setContainer hheld ModelM.moves_resolution_tame
      ModelM.moves_rebinding_tame hregistry ModelM.moves_refresh_tame path containers))
  | setVariables values =>
    exact of_moves (.discard (ModelM.moves_setVariables hheld ModelM.moves_resolution_tame
      ModelM.moves_mentions_tame (fun set projects ↦ .bind (.modify fun m ↦
        .of_initializers (OperationFrame.bindsVariables m _) rfl) fun _ ↦
          ModelM.moves_refresh_tame projects) values))
  | close other => exact ⟨ModelM.recorded_closeProject h other, htame⟩
  | put path containers => exact of_moves (.modify fun m ↦ hregistry m _)
  | ask query =>
    refine of_moves (ModelM.moves_query query fun other _ ↦ ModelM.moves_visibleRoots_tame fun m roots ↦ ?_)
    exact .setCell fun heq ↦ by subst heq; exact ⟨.of_same rfl rfl rfl fun _ ↦ id, id⟩

/-- However buildpaths, bindings and variables are changed and asked for, a result comes from a chain of
resolutions of raw buildpaths that the project had. If an entry of it is exported, so is the raw entry that
brought it in, or the entry is a library that the raw buildpath does not list and that an exported raw entry
brought in before. -/
theorem exported_resolution {m₀ : Model} {i : Issued} {e : Entry}
    (htame : m₀.Tame fun other entries ↦ other = project → given entries)
    (hnew : m₀.cell project = {}) (hreaches : m₀.Reaches (Operation.Gives given project) m)
    (hgiven : given (m.raw project).entries) (h : (ModelM.resolution project).runOn m = (.ok i, m'))
    (he : e ∈ i.result.entries) (hexported : e.exported) :
    ∃ past, Model.Yields given project (m.workspace.projectLocation? project)
        (((m.raw project).entries, i.result) :: past) ∧
      ∃ o ∈ (m.raw project).entries, i.result.rawOf.find? e.path = some o ∧ (o.exported ∨
        Model.WasExported (m.workspace.projectLocation? project) past (m.raw project).entries e) := by
  have hrecorded : m.Recorded given project (m₀.workspace.projectLocation? project) ∧
      m.Tame fun other entries ↦ other = project → given entries := by
    clear hgiven h
    induction hreaches with
    | start => exact ⟨⟨rfl, by rw [hnew]; nofun, by rw [hnew]; nofun⟩, htame⟩
    | next _ hgives ih => exact Operation.recorded ih.2 hgives ih.1
  rcases ModelM.resolution_yields hrecorded.1 hgiven h with hprogress | ⟨past, hyields⟩
  · rw [hprogress] at he
    cases he
  · rw [hrecorded.1.located]
    obtain ⟨o, ho, hraw, hexports⟩ := hyields.exported.2 e he
    exact ⟨past, hyields, o, ho, hraw, hexports hexported⟩

namespace Model

/-- A project with a library that refers to another one. -/
def chainedFolders : Model :=
  { workspace := .memory (((Memory.addProject {} "p" (some defaultNature)).addFile
      (.parse "/p/a/META-INF/MANIFEST.MF") "Class-Path: b\n".toUTF8).addFolder (.parse "/p/b")) }

/-- The library of the project. -/
def chaining : Entry := { kind := .library, path := .parse "/p/a" }

/-- The library that it refers to, as it is exported. -/
def referenced : Entry := { kind := .library, path := .parse "/p/b", exported := true }

/-- The project once it has exported its library and then keeps it to itself. -/
def exportedBefore : Model :=
  (Operation.setRaw "p" [chaining] false).apply
    ((Operation.setRaw "p" [{ chaining with exported := true }] false).apply chainedFolders)

private theorem resolution_exportedBefore : ∃ i,
    (ModelM.resolution "p").runOn exportedBefore =
      (.ok i, ((ModelM.resolution "p").runOn exportedBefore).2) ∧
    i.result.entries = [referenced, chaining] ∧
      i.result.rawOf.find? referenced.path = some chaining := by
  obtain ⟨i, hrun⟩ := Action.runOn_eq_ok (ModelM.resolution "p") exportedBefore (by decide +kernel)
  have hparts : (((ModelM.resolution "p").runOn exportedBefore).1.toOption.map fun i ↦
      (i.result.entries, i.result.rawOf.find? referenced.path)) =
        some ([referenced, chaining], some chaining) := by decide +kernel
  rw [hrun] at hparts
  have hparts := Option.some.inj hparts
  exact ⟨i, hrun, congrArg Prod.fst hparts, congrArg Prod.snd hparts⟩

/-- The library is no longer exported, but the one that it refers to is, since it was when the raw entry of the
library was. -/
theorem exported_since_it_was : ∃ i m' past,
    (ModelM.resolution "p").runOn exportedBefore = (.ok i, m') ∧ referenced ∈ i.result.entries ∧
      referenced.exported ∧ Yields
        (· ∈ [[.source (.parse "/p")], [{ chaining with exported := true }], [chaining]]) "p"
        (exportedBefore.workspace.projectLocation? "p")
        (((exportedBefore.raw "p").entries, i.result) :: past) ∧
      ∃ o ∈ (exportedBefore.raw "p").entries, i.result.rawOf.find? referenced.path = some o ∧
        (o.exported ∨ WasExported (exportedBefore.workspace.projectLocation? "p") past
          (exportedBefore.raw "p").entries referenced) := by
  obtain ⟨i, hrun, hentries, -⟩ := resolution_exportedBefore
  have hmem : referenced ∈ i.result.entries := hentries ▸ List.mem_cons_self
  have hreaches : chainedFolders.Reaches (Operation.Gives
      (· ∈ [[.source (.parse "/p")], [{ chaining with exported := true }], [chaining]]) "p")
      exportedBefore :=
    .next (.next .start ⟨by decide +kernel, fun entries saves heq ↦ by cases heq; decide⟩)
      ⟨by decide +kernel, fun entries saves heq ↦ by cases heq; decide⟩
  obtain ⟨past, hyields, hraw⟩ :=
    exported_resolution (.of_empty rfl) rfl hreaches (by decide +kernel) hrun hmem rfl
  exact ⟨i, _, past, hrun, hmem, rfl, hyields, hraw⟩

/-- A library that another one brings along is still exported after the project does not export the other
one any more. -/
theorem chained_library_stays_exported : chainedFolders.Reaches (fun _ _ ↦ True) exportedBefore ∧
    ∃ i, ((ModelM.resolution "p").runOn exportedBefore).1 = .ok i ∧ referenced ∈ i.result.entries ∧
      referenced.exported ∧ i.result.rawOf.find? referenced.path = some chaining ∧ ¬ chaining.exported := by
  obtain ⟨i, hrun, hentries, hraw⟩ := resolution_exportedBefore
  exact ⟨.next (.next .start trivial) trivial, i, congrArg Prod.fst hrun, hentries ▸ List.mem_cons_self, rfl,
    hraw, nofun⟩

end Model

end Buildpath
