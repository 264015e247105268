import Buildpath.Proofs.Model.Expansion
import Buildpath.Proofs.Model.Fragments

/-!
# Fragments that a project sees

Where no initializer runs and no factory makes fragments, a project sees the fragments of the entries on
its expanded buildpath, and in addition those of the source folders that the projects it requires keep to
themselves (`visibleRoots_and_expanded`): a walk for fragments hides only libraries and project entries
that are not exported.
-/

namespace Buildpath

variable {m : Model} {project q id : String} {links : List Entry} {w : FragmentWalk} {e : Entry}
  {f : Fragment} {referring : Option Entry} {checks : Bool}

namespace Model

/-- Whether the root of an entry of a project is there. -/
def HasRoot (m : Model) (project : String) (e : Entry) : Prop := (m.fragment? true project e).isSome

/-- Whether a walk for fragments meets an entry of a project that a chain leads to: any entry of its own,
and of another project what it exports, and any source folder. -/
structure Meets (m : Model) (project : String) (links : List Entry) (q : String) (e : Entry) : Prop where
  leads : m.Leads project links q
  mem : e ∈ m.entriesOf q
  isMet : links = [] ∨ e.exported ∨ e.kind = .source

theorem Sees.meets (h : m.Sees project links q e) : m.Meets project links q e :=
  ⟨h.leads, h.mem, h.isVisible.imp_right .inl⟩

theorem Meets.sees_or (h : m.Meets project links q e) :
    m.Sees project links q e ∨ links ≠ [] ∧ e.kind = .source ∧ ¬ e.exported := by
  by_cases hlinks : links = []
  · exact .inl ⟨h.leads, h.mem, .inl hlinks⟩
  by_cases hexported : e.exported
  · exact .inl ⟨h.leads, h.mem, .inr hexported⟩
  · exact .inr ⟨hlinks, (h.isMet.resolve_left hlinks).resolve_left hexported, hexported⟩

/-- The identity of a fragment is that of the entry that it comes from. -/
theorem rootId_of_fragment? (hf : m.factories = .empty)
    (h : m.fragment? checks project e = some f) : f.rootId = e.rootId := by
  obtain ⟨-, hpath, -⟩ := fragment?_eq_some hf h
  have hkind : (if f.kind = .source then "[SRC]" else "[LIB]") = Entry.rootTag e.kind := by
    unfold fragment? at h
    cases hkind : e.kind with
    | source =>
      rw [hkind] at h
      dsimp only at h
      unfold sourceFragment? at h
      split_ifs at h
      obtain rfl := Option.some.inj h
      rfl
    | library =>
      rw [hkind] at h
      dsimp only at h
      rw [libraryFragment?, factoryFragment?_eq_none hf] at h
      dsimp only at h
      split_ifs at h
      · obtain rfl := Option.some.inj h
        rfl
      · obtain ⟨kind, hlibrary, rfl⟩ := Option.map_eq_some_iff.mp h
        exact if_neg fun hsource ↦ libraryKind?_ne_source (hlibrary.trans (congrArg some hsource))
    | project => rw [hkind] at h; cases h
    | variableRef => rw [hkind] at h; cases h
    | container => rw [hkind] at h; cases h
  rw [Fragment.rootId, hkind, hpath, Entry.rootId]

theorem HasRoot.isIndexed (hf : m.factories = .empty) (h : m.HasRoot q e) : e.IsIndexed := by
  obtain ⟨f, hfragment⟩ := Option.isSome_iff_exists.mp h
  exact (fragment?_eq_some hf hfragment).1

end Model

namespace FragmentWalk

/-- Whether a fragment of some identity was found. -/
def Shows (w : FragmentWalk) (id : String) : Prop := ∃ f ∈ w.roots.fragments, f.rootId = id

theorem mem_fragments_add {f' : Fragment} : f' ∈ (w.add f e referring).roots.fragments ↔
    f' ∈ w.roots.fragments ∨ f' = f := by
  unfold add
  dsimp only
  split_ifs with hmem
  · exact ⟨.inl, fun h ↦ h.elim id fun h ↦ h ▸ hmem⟩
  · simp

theorem shows_add : (w.add f e referring).Shows id ↔ w.Shows id ∨ f.rootId = id := by
  simp [Shows, mem_fragments_add, or_and_right, exists_or]

/-- What a turn makes of an entry, with what this depends on. -/
inductive Turns (m : Model) (q : String) (referring : Option Entry) (w : FragmentWalk) (e : Entry) :
    Turn FragmentWalk → Prop
  | met (hmet : e.rootId ∈ w.rootIds) : Turns m q referring w e (.pass w)
  | hides (hkind : e.kind ≠ .source) (hhidden : e.isHidden referring) : Turns m q referring w e (.pass w)
  | strays (hindexed : ¬ e.IsIndexed) (hrequired : m.requiredProject? e = none) :
      Turns m q referring w e (.pass w)
  | visits (hindexed : e.IsIndexed) (hnew : e.rootId ∉ w.rootIds)
      (hvisible : e.kind = .source ∨ e.isHidden referring = false) :
      Turns m q referring w e (.pass (w.visit m true q referring e))
  | enters {required : String} (hnew : e.rootId ∉ w.rootIds) (hvisible : e.isHidden referring = false)
      (hrequired : m.requiredProject? e = some required) :
      Turns m q referring w e (.enter required (w.mark e.rootId))

theorem turns (m : Model) (q : String) (referring : Option Entry) (w : FragmentWalk) (e : Entry) :
    Turns m q referring w e (turn m q referring w e) := by
  unfold turn
  split
  · next hmet => exact .met hmet
  next hnew =>
  cases hkind : e.kind with
  | source => exact .visits (.inl hkind) hnew (.inl hkind)
  | library =>
    cases hhidden : e.isHidden referring with
    | true => exact .hides (by rw [hkind]; decide) hhidden
    | false => exact .visits (.inr hkind) hnew (.inr hhidden)
  | project =>
    cases hhidden : e.isHidden referring with
    | true => exact .hides (by rw [hkind]; decide) hhidden
    | false =>
      cases hrequired : m.requiredProject? e with
      | none => exact .strays (by simp [Entry.IsIndexed, hkind]) hrequired
      | some required => exact .enters hnew hhidden hrequired
  | variableRef | container =>
    refine .strays (by simp [Entry.IsIndexed, hkind]) (Option.eq_none_iff_forall_ne_some.mpr ?_)
    intro required hrequired
    rw [Model.kind_of_requiredProject? hrequired] at hkind
    cases hkind

/-- What a walk for fragments that starts at a project keeps account of. An entry is dealt with when its
fragment was found, if its root is there. -/
def account (m : Model) : Account FragmentWalk where
  marks w := w.rootIds
  Done w q e := (m.HasRoot q e → w.Shows e.rootId) ∧
    ((m.requiredProject? e).isSome → e.rootId ∈ w.rootIds)
  Valid w := ∀ e : Entry, e.IsIndexed → e.rootId ∈ w.rootIds → w.Shows e.rootId

/-- Whether an entry of a project is met, where it matters if the project is below another one. -/
def Sought (below : Bool) (e : Entry) : Prop := below = true → e.exported ∨ e.kind = .source

theorem isHidden_of_sought (hsource : e.kind ≠ .source) (h : Sought referring.isSome e) :
    e.isHidden referring = false := by
  unfold Sought at h
  unfold Entry.isHidden
  cases hreferring : referring.isSome with
  | false => rfl
  | true => simp [(h hreferring).resolve_right hsource]

/-- An entry that leads to a project has no root of its own. -/
theorem done_of_not_indexed (hf : m.factories = .empty) (hindexed : ¬ e.IsIndexed)
    (h : (m.requiredProject? e).isSome → e.rootId ∈ w.rootIds) : (account m).Done w q e :=
  ⟨fun hroot ↦ absurd (hroot.isIndexed hf) hindexed, h⟩

/-- An entry that is met for the first time is dealt with. -/
private theorem visit_kept (hf : m.factories = .empty) (hw : (account m).Valid w) (he : e.IsIndexed)
    (hnew : e.rootId ∉ w.rootIds) :
    let w' := w.visit m true q referring e
    (account m).Valid w' ∧ (account m).Grows w w' ∧ (account m).Done w' q e ∧
      ∀ id ∈ w'.rootIds, id ∈ w.rootIds ∨ ∀ e' q', m.requiredProject? e' = some q' → e'.rootId ≠ id := by
  have hkind := he.ne_project
  have hrequired : ¬ (m.requiredProject? e).isSome := fun h ↦ by
    obtain ⟨required, hrequired⟩ := Option.isSome_iff_exists.mp h
    exact hkind (Model.kind_of_requiredProject? hrequired)
  unfold visit
  rw [if_neg hnew]
  cases hfragment : m.fragment? true q e with
  | none =>
    refine ⟨hw, .refl w, ⟨fun hroot ↦ ?_, fun h ↦ absurd h hrequired⟩, fun _ ↦ .inl⟩
    rw [Model.HasRoot, hfragment] at hroot
    cases hroot
  | some f =>
    have hid := Model.rootId_of_fragment? hf hfragment
    have hshown : (w.add f e referring).Shows e.rootId := shows_add.mpr (.inr hid)
    refine ⟨fun e' he' hmet ↦ ?_, ⟨List.subset_cons_self _ _, fun hdone ↦ ?_⟩,
      ⟨fun _ ↦ hshown, fun h ↦ absurd h hrequired⟩, fun id hmet ↦ ?_⟩
    · rcases List.mem_cons.mp hmet with heq | hmet
      · exact heq ▸ hshown
      · exact shows_add.mpr (.inl (hw e' he' hmet))
    · exact ⟨fun hroot ↦ shows_add.mpr (.inl (hdone.1 hroot)),
        fun h ↦ List.mem_cons_of_mem _ (hdone.2 h)⟩
    · rcases List.mem_cons.mp hmet with rfl | hmet
      · exact .inr fun e' q' ↦ Model.rootId_ne_of_kind hkind
      · exact .inl hmet

/-- Each turn finds the fragment of the entry, if it is met for the first time. -/
theorem kept_account (hf : m.factories = .empty) :
    (account m).Kept (turn m) m.requiredProject? Sought where
  pass := by
    intro q r w e w' hw hturn
    have hturns := turns m q r w e
    rw [hturn] at hturns
    cases hturns with
    | met hmet =>
      exact ⟨hw, .refl w, fun _ ↦ ⟨fun hroot ↦ hw e (hroot.isIndexed hf) hmet, fun _ ↦ hmet⟩, fun _ ↦ .inl⟩
    | hides hkind hhidden =>
      refine ⟨hw, .refl w, fun hsought ↦ ?_, fun _ ↦ .inl⟩
      rw [isHidden_of_sought hkind hsought] at hhidden
      cases hhidden
    | strays hindexed hrequired =>
      refine ⟨hw, .refl w, fun _ ↦ done_of_not_indexed hf hindexed fun h ↦ ?_, fun _ ↦ .inl⟩
      rw [hrequired] at h
      cases h
    | visits hindexed hnew =>
      obtain ⟨hvalid, hgrows, hdone, hmarks⟩ := visit_kept hf hw hindexed hnew
      exact ⟨hvalid, hgrows, fun _ ↦ hdone, hmarks⟩
  enter := by
    intro q r w e required w' hw hturn
    have hturns := turns m q r w e
    rw [hturn] at hturns
    cases hturns with
    | enters hnew _ hrequired =>
      have hkind := Model.kind_of_requiredProject? hrequired
      refine ⟨fun e' he' hmet ↦ ?_, ⟨List.subset_cons_self _ _, fun hdone ↦ ?_⟩,
        done_of_not_indexed hf (fun hindexed ↦ hindexed.ne_project hkind) fun _ ↦ List.mem_cons_self,
        hrequired, hnew, fun id ↦ List.mem_cons⟩
      · rcases List.mem_cons.mp hmet with heq | hmet
        · exact absurd heq (he'.rootId_ne hkind)
        · exact hw e' he' hmet
      · exact ⟨hdone.1, fun h ↦ List.mem_cons_of_mem _ (hdone.2 h)⟩

/-- Whether a walk from a project found nothing but fragments of entries that it meets, and never takes
the way back to the project. -/
structure Sound (m : Model) (project : String) (w : FragmentWalk) : Prop where
  isMarked : projectId project ∈ w.rootIds
  met : ∀ f ∈ w.roots.fragments, ∃ links q e, m.Meets project links q e ∧
    m.fragment? true q e = some f

theorem Sound.visit (h : Sound m project w) (hat : m.IsAt project q referring)
    (he : e ∈ m.entriesOf q) (hmet : referring = none ∨ e.exported ∨ e.kind = .source) :
    Sound m project (w.visit m true q referring e) := by
  unfold FragmentWalk.visit
  split
  · exact h
  split
  · next fragment hfragment =>
    refine ⟨List.mem_cons_of_mem _ h.isMarked, fun f hf ↦ ?_⟩
    rcases mem_fragments_add.mp hf with hf | rfl
    · exact h.met f hf
    · obtain ⟨links, hleads, rfl⟩ := hat
      refine ⟨links, q, e, ⟨hleads, he, hmet.imp_left fun hstart ↦ ?_⟩, hfragment⟩
      cases links with
      | nil => rfl
      | cons link links => cases hstart
  · exact h

/-- What is not hidden is met. -/
theorem met_of_isHidden (h : e.isHidden referring = false) : referring = none ∨ e.exported := by
  unfold Entry.isHidden at h
  cases referring with
  | none => exact .inl rfl
  | some referring => exact .inr (by simpa using h)

/-- A walk from a project finds nothing but the fragments of entries that it meets. -/
theorem sound_walkOver (depth : Nat) : Sound m project
    (walkOver (turn m) m.entriesOf depth project none (m.entriesOf project) (ofProject project)) := by
  have hstart : Sound m project (ofProject project) :=
    ⟨List.mem_singleton_self _, fun _ hf ↦ absurd hf List.not_mem_nil⟩
  refine walkOver_keeps (fun {q r w e w'} hat he hw hturn ↦ ?_)
    (fun {q r w e q' w'} hat he hw hturn ↦ ?_) depth (Model.IsAt.start m project) (List.Subset.refl _) hstart
  all_goals
    have hturns := turns m q r w e
    rw [hturn] at hturns
  · cases hturns with
    | met => exact hw
    | hides => exact hw
    | strays => exact hw
    | visits _ _ hvisible =>
      refine hw.visit hat he ?_
      rcases hvisible with hsource | hvisible
      · exact .inr (.inr hsource)
      · exact (met_of_isHidden hvisible).imp_right .inl
  · cases hturns with
    | enters hnew hvisible hrequired =>
      exact ⟨⟨List.mem_cons_of_mem _ hw.isMarked, hw.met⟩,
        hat.enter he hvisible hrequired fun hid ↦ hnew (hid ▸ hw.isMarked)⟩

/-- A walk from a project that is deep enough finds the fragments of all the entries that it meets. -/
theorem shows_walkOver (hf : m.factories = .empty) (hw : m.Walkable)
    (h : m.Meets project links q e) (hroot : m.HasRoot q e) :
    (walkOver (turn m) m.entriesOf m.depth project none (m.entriesOf project)
      (ofProject project)).Shows e.rootId := by
  obtain ⟨ids, hlength, hids⟩ := hw.identifies
  have hvalid : (account m).Valid (ofProject project) :=
    fun _ he hmet ↦ absurd hmet (Model.rootId_not_mem_ofProject he)
  have hcovers : (account m).Covers m.requiredProject? Sought m.entriesOf project
      (none : Option Entry).isSome (m.entriesOf project) (ofProject project) _ :=
    (kept_account hf).walk hids hvalid (Nat.lt_of_le_of_lt List.countP_le_length hlength)
      (List.Subset.refl _)
  have hdone := h.leads.done hcovers rfl (fun hdone hrequired ↦ hdone.2 hrequired)
    (fun hsought hbelow ↦ .inl (hsought hbelow)) e h.mem (by
      simpa [Sought, or_iff_not_imp_left] using h.isMet)
  exact hdone.1 hroot

end FragmentWalk

/-! ### The fragments of a model where no initializer runs -/

namespace Model

/-- Resolving a project never leaves visible roots behind. -/
theorem Resolves.roots {make : Path → String → Option Container} {m' : Model} {i : Issued}
    (h : m.Resolves make project i m') (hroots : (m.cell project).roots = none) :
    (m'.cell project).roots = none := by
  have hloaded : (m.loaded project).roots = none := by
    unfold loaded Cell.storeRaw
    split
    · exact hroots
    · rfl
  cases h with
  | cached _ _ hcell => rw [hcell, hloaded]
  | reentrant _ _ hcell => rw [hcell, hloaded]
  | anew _ _ _ hcell _ => rw [hcell]

end Model

namespace ModelM

/-- Where no initializer runs, the fragments that a project sees are found by a walk over the
resolutions. -/
theorem visibleRoots_still (h : m.Still) (hexists : m.workspace.projectExists project)
    (hroots : (m.cell project).roots = none) :
    ((visibleRoots project).runOn m).1 = .ok (walkOver (FragmentWalk.turn m) m.entriesOf m.depth project
      none (m.entriesOf project) (.ofProject project)).roots := by
  obtain ⟨i, m₁, hrun, hremembers, hothers, hresolves⟩ := resolution_still h hexists
  have hm₁ := h.of_resolves hremembers hothers hresolves
  -- looking at the cell puts it back as it is
  let m₂ := m₁.setCell project (m₁.cell project)
  have hm₂ : m.StillAs m₂ := hm₁.trans (hm₁.still.of_cells ⟨_, m₁.folders, m₁.issued, rfl⟩ fun other ↦ by
    rw [Model.cell_setCell]
    split
    · next heq => rw [heq]
    · rfl)
  have hentries : m.entriesOf project = i.result.entries := by rw [Model.entriesOf, hrun]
  have hsteps : ((visibleRoots project).runOn m).1 = .ok
      ((walk (FragmentWalk.turn m₂) resolvedEntries? m₂.depth project none i.result.entries
        (.ofProject project)).run m₂).1.roots := by
    rw [visibleRoots, Action.bind_runOn, hrun]
    dsimp only
    rw [Action.bind_runOn, Action.runOn_lift]
    have hcell : (cell project).run m₁ = (m₁.cell project, m₂) := rfl
    rw [hcell]
    dsimp only
    rw [hresolves.roots hroots]
    rfl
  have hturn : FragmentWalk.turn m₂ = FragmentWalk.turn m ∧ m₂.depth = m.depth := by
    obtain ⟨cells, folders, issued, rfl⟩ := hremembers
    exact ⟨rfl, rfl⟩
  have hcomes : Comes m.StillAs (walk (FragmentWalk.turn m) resolvedEntries? m.depth project none
      i.result.entries (FragmentWalk.ofProject project)) _ := walk_still _ _ _ _ _
  obtain ⟨m₃, hwalk, -⟩ := hcomes m₂ hm₂
  rw [hsteps, hturn.1, hturn.2, hwalk, hentries]

/-- In every model where no initializer runs and no factory makes fragments, the fragments that a project
sees and its expanded buildpath are told, and they agree apart from source folders. A contribution is seen
as a fragment if and only if it stands on the expanded buildpath and its root is there in a project that
the entries lead to, or it is a source folder that a required project has and does not export. -/
theorem visibleRoots_and_expanded (h : m.Still) (hf : m.factories = .empty)
    (hexists : m.workspace.projectExists project) (hroots : (m.cell project).roots = none)
    (hpaths : ∀ {q e}, e ∈ m.entriesOf q → (m.requiredProject? e).isSome → e.path.InWorkspace) :
    ∃ roots es, ((visibleRoots project).runOn m).1 = .ok roots ∧
      ((expanded project).runOn m).1 = .ok es ∧
      ∀ id, (∃ f ∈ roots.fragments, f.rootId = id) ↔
        (∃ x ∈ es, x.rootId = id ∧ x.IsIndexed ∧
          ∃ links q e, m.Sees project links q e ∧ e.rootId = id ∧ m.HasRoot q e) ∨
        ∃ links q e, m.Leads project links q ∧ links ≠ [] ∧ e ∈ m.entriesOf q ∧ e.kind = .source ∧
          ¬ e.exported ∧ e.rootId = id ∧ m.HasRoot q e := by
  have hw : m.Walkable := .of_paths h.nesting hpaths
  refine ⟨_, _, visibleRoots_still h hexists hroots, expanded_still h hexists, fun id ↦ ⟨?_, ?_⟩⟩
  · rintro ⟨f, hfound, rfl⟩
    obtain ⟨links, q, e, hmeets, hfragment⟩ := (FragmentWalk.sound_walkOver m.depth).met f hfound
    have hroot : m.HasRoot q e := Option.isSome_of_eq_some hfragment
    have hid := Model.rootId_of_fragment? hf hfragment
    have hindexed := hroot.isIndexed hf
    rcases hmeets.sees_or with hsees | ⟨hlinks, hsource, hprivate⟩
    · have hother : e.rootId ≠ projectId project := hindexed.rootId_ne rfl
      obtain ⟨x, hx, hxid⟩ := Expansion.lists_walkOver hw hsees hother
      refine .inl ⟨x, hx, hxid.trans hid.symm, ?_, links, q, e, hsees, hid.symm, hroot⟩
      rw [Entry.IsIndexed, Entry.kind_eq_of_rootId hxid hindexed]
      exact hindexed
    · exact .inr ⟨links, q, e, hmeets.leads, hlinks, hmeets.mem, hsource, hprivate, hid.symm, hroot⟩
  · rintro (⟨-, -, -, -, links, q, e, hsees, rfl, hroot⟩ |
      ⟨links, q, e, hleads, -, hmem, hsource, -, rfl, hroot⟩)
    · exact FragmentWalk.shows_walkOver hf hw hsees.meets hroot
    · exact FragmentWalk.shows_walkOver hf hw ⟨hleads, hmem, .inr (.inr hsource)⟩ hroot

/-- A project that requires another one, which exports a library of the interpreter and keeps its source
folder to itself. -/
def privateSource : Model :=
  .ofBuildpaths [("p", [.project (.parse "/q")]), ("q", [.source (.parse "/q"),
    { kind := .library, path := .parse (builtinMark ++ "/core"), exported := true }])]

theorem visibleRoots_privateSource : ((expanded "p").runOn privateSource).1 =
      .ok [.project (.parse "/q"), { kind := .library, path := .parse (builtinMark ++ "/core") }] ∧
    ∃ roots es, ((visibleRoots "p").runOn privateSource).1 = .ok roots ∧
      ((expanded "p").runOn privateSource).1 = .ok es ∧
      ∀ id, (∃ f ∈ roots.fragments, f.rootId = id) ↔
        (∃ x ∈ es, x.rootId = id ∧ x.IsIndexed ∧
          ∃ links q e, privateSource.Sees "p" links q e ∧ e.rootId = id ∧ privateSource.HasRoot q e) ∨
        ∃ links q e, privateSource.Leads "p" links q ∧ links ≠ [] ∧ e ∈ privateSource.entriesOf q ∧
          e.kind = .source ∧ ¬ e.exported ∧ e.rootId = id ∧ privateSource.HasRoot q e :=
  ⟨by decide +kernel, visibleRoots_and_expanded (.ofBuildpaths _) rfl (by decide +kernel) rfl
    (Model.inWorkspace_ofBuildpaths (by decide +kernel))⟩

/-- The source folder is seen as a fragment, although the project does not export it and it does not stand
on the expanded buildpath. -/
theorem private_source_is_seen :
    ((visibleRoots "p").runOn privateSource).1.toOption.map VisibleRoots.fragments =
      some [⟨"q", .parse "/q", .source⟩, ⟨"q", .parse (builtinMark ++ "/core"), .builtin⟩] ∧
    ∀ x ∈ (((expanded "p").runOn privateSource).1.toOption.getD []), x.rootId ≠ "[SRC]/q" := by
  decide +kernel

end ModelM

end Buildpath
