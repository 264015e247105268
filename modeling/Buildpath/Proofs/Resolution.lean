import Buildpath.Resolution

/-!
# Repeated resolutions

A resolution gives chained libraries what the last one had for them. Resolving again after it, with
bindings to the same entries, comes to the same result apart from the entries without a binding
(`outcome_again`): a path gets an entry once, so what the first resolution has for it in the end is what
it gave it.
-/

namespace Buildpath

/-- The result of a resolution whose look-ups change nothing. -/
def outcome (b : Bindings Id) (c : ResolutionContext) (raw : List Entry) : Resolved :=
  (resolve b c raw).run.result

namespace Resolved

/-- A result apart from the raw entry without a binding. -/
def known (r : Resolved) : Resolved := { r with unresolved := none }

variable {r r' : Resolved}

theorem entries_eq (h : r'.known = r.known) : r'.entries = r.entries := (Resolved.mk.inj h).1

theorem rawOf_eq (h : r'.known = r.known) : r'.rawOf = r.rawOf := (Resolved.mk.inj h).2.1

theorem roots_eq (h : r'.known = r.known) : r'.roots = r.roots := (Resolved.mk.inj h).2.2.1

/-- Whether every path with an entry has a raw entry and the other way round. -/
def Synced (r : Resolved) : Prop := ∀ path, r.rawOf.contains path = r.roots.contains path

/-- Whether the entries at the paths of a result are those of a table. -/
def Within (r : Resolved) (roots : Table Path Entry) : Prop :=
  ∀ path e, r.roots.find? path = some e → roots.find? path = some e

theorem Within.refl (r : Resolved) : r.Within r.roots := fun _ _ h ↦ h

theorem Within.trans {r r' : Resolved} {roots : Table Path Entry} (h : r.Within r'.roots)
    (h' : r'.Within roots) : r.Within roots :=
  fun path e he ↦ h' path e (h path e he)

end Resolved

/-- Whether two resolutions of a project depend on the same, apart from the entries of the last one and
the folders outside the workspace. -/
structure ResolutionContext.Agree (c c' : ResolutionContext) : Prop where
  project : c'.project = c.project
  location : c'.location = c.location
  followsLibraries : c'.followsLibraries = c.followsLibraries
  followsContainers : c'.followsContainers = c.followsContainers
  chained : c'.chained = c.chained

namespace ResolutionPass

/-! ### Single entries -/

/-- An entry that was given what was attached to it before can be given it again. -/
theorem carryOver_carryOver (e old : Entry) : carryOver e (carryOver e old) = carryOver e old := by
  unfold carryOver
  cases ha : old.attachmentPath.isSome || old.attachmentRoot.isSome <;>
    cases hn : old.attributes.isEmpty <;> simp [ha, hn]

theorem carryOver_self (e : Entry) : carryOver e e = e := by
  unfold carryOver
  simp

theorem path_carryOver (e old : Entry) : (carryOver e old).path = e.path := by
  unfold carryOver
  split <;> split <;> rfl

/-- Adding an entry gives its path the entry, unless there is one. -/
theorem result_add (p : ResolutionPass) (c : ResolutionContext) (raw e : Entry) :
    (p.add c raw e).result = if p.result.rawOf.contains e.path then p.result else
      { p.result with
        entries := p.result.entries ++ [e]
        rawOf := p.result.rawOf.insert e.path raw
        roots := p.result.roots.insert e.path e } := by
  unfold add
  split <;> rfl

theorem result_addChained (p : ResolutionPass) (c : ResolutionContext) (raw e : Entry) :
    (p.addChained c raw e).result =
      (p.add c raw ((c.last.find? e.path).elim e (carryOver e))).result := by
  have hpath : ((c.last.find? e.path).elim e (carryOver e)).path = e.path := by
    cases c.last.find? e.path with
    | none => rfl
    | some old => exact path_carryOver e old
  unfold addChained
  split
  · next hc =>
    rw [result_add, hpath, if_pos hc]
    rfl
  · cases c.last.find? e.path <;> rfl

/-! ### Steps that can be repeated -/

/-- Steps of a resolution and such steps after it, given the entries that it ends with: they keep entries,
and the second ones come to the same result. -/
structure Repeats (roots : Table Path Entry) (f f' : ResolutionPass → ResolutionPass) : Prop where
  synced : ∀ p : ResolutionPass, p.result.Synced → (f p).result.Synced
  grows : ∀ p : ResolutionPass, p.result.Synced → p.result.Within (f p).result.roots
  result : ∀ p p' : ResolutionPass, p.result.Synced → p'.result.known = p.result.known →
    (f p).result.Within roots → (f' p').result.known = (f p).result.known

variable {roots : Table Path Entry} {f f' g g' : ResolutionPass → ResolutionPass}
  {c c' : ResolutionContext}

theorem Repeats.refl : Repeats roots id id :=
  ⟨fun _ h ↦ h, fun p _ ↦ .refl p.result, fun _ _ _ h _ ↦ h⟩

theorem Repeats.comp (hf : Repeats roots f f') (hg : Repeats roots g g') :
    Repeats roots (g ∘ f) (g' ∘ f') := by
  refine ⟨fun p hp ↦ hg.synced _ (hf.synced p hp),
    fun p hp ↦ (hf.grows p hp).trans (hg.grows _ (hf.synced p hp)), fun p p' hp hr hw ↦ ?_⟩
  have hmiddle : (f' p').result.known = (f p).result.known :=
    hf.result p p' hp hr ((hg.grows _ (hf.synced p hp)).trans hw)
  exact hg.result _ _ (hf.synced p hp) hmiddle hw

theorem Repeats.foldl {α : Type} {f f' : ResolutionPass → α → ResolutionPass} {as : List α}
    (h : ∀ a ∈ as, Repeats roots (f · a) (f' · a)) :
    Repeats roots (as.foldl f) (as.foldl f') := by
  induction as with
  | nil => exact .refl
  | cons a as ih =>
    exact .comp (h a List.mem_cons_self) (ih fun a ha ↦ h a (List.mem_cons_of_mem _ ha))

/-- Steps that are taken only if a path has no entry. -/
theorem Repeats.unless (path : Path) (h : Repeats roots f f') :
    Repeats roots (fun p ↦ if p.result.rawOf.contains path then p else f p)
      (fun p ↦ if p.result.rawOf.contains path then p else f' p) := by
  refine ⟨fun p hp ↦ ?_, fun p hp ↦ ?_, fun p p' hp hr hw ↦ ?_⟩
  · split
    · exact hp
    · exact h.synced p hp
  · split
    · exact .refl p.result
    · exact h.grows p hp
  · have hraw := Resolved.rawOf_eq hr
    rw [hraw]
    split at hw
    · next hc =>
      rw [if_pos hc, if_pos hc]
      exact hr
    · next hc =>
      rw [if_neg hc, if_neg hc]
      exact h.result p p' hp hr hw

theorem repeats_add (c c' : ResolutionContext) (raw e : Entry) :
    Repeats roots (·.add c raw e) (·.add c' raw e) := by
  refine ⟨fun p hp path ↦ ?_, fun p hp path old hold ↦ ?_, fun p p' hp hr hw ↦ ?_⟩
  · rw [result_add]
    split
    · exact hp path
    · rw [Table.contains, Table.contains, Table.find?_insert, Table.find?_insert]
      split
      · rfl
      · exact hp path
  · rw [result_add]
    split
    · exact hold
    · next hnew =>
      rw [Table.find?_insert, if_neg]
      · exact hold
      · rintro rfl
        rw [hp, Table.contains, hold] at hnew
        exact hnew rfl
  · obtain ⟨hentries, hraw, hroots, -, hprogress⟩ := Resolved.mk.inj hr
    rw [result_add, result_add, hraw]
    split
    · exact hr
    · rw [Resolved.known, Resolved.known, hentries, hroots, hprogress]

/-- A chained library gets what it was given again, since that is what it has in the end. -/
theorem repeats_addChained (hlast : c'.last = roots) (raw e : Entry) :
    Repeats roots (·.addChained c raw e) (·.addChained c' raw e) := by
  obtain ⟨given, hgiven, hpath, hagain⟩ : ∃ given,
      (∀ p : ResolutionPass, (p.addChained c raw e).result = (p.add c raw given).result) ∧
        given.path = e.path ∧ carryOver e given = given := by
    refine ⟨_, fun p ↦ result_addChained p c raw e, ?_⟩
    cases c.last.find? e.path with
    | none => exact ⟨rfl, carryOver_self e⟩
    | some old => exact ⟨path_carryOver e old, carryOver_carryOver e old⟩
  have hadd : Repeats roots (·.add c raw given) (·.add c' raw given) := repeats_add c c' raw given
  refine ⟨fun p hp ↦ ?_, fun p hp ↦ ?_, fun p p' hp hr hw ↦ ?_⟩
  · rw [hgiven]
    exact hadd.synced p hp
  · rw [hgiven]
    exact hadd.grows p hp
  · rw [hgiven] at hw ⊢
    by_cases hc : p.result.rawOf.contains e.path
    · have hraw := Resolved.rawOf_eq hr
      rw [addChained, hraw, if_pos hc, result_add, hpath, if_pos hc]
      exact hr
    · -- the entry is added now, so it is what the path has in the end
      have hfound : roots.find? e.path = some given := by
        refine hw e.path given ?_
        rw [result_add, hpath, if_neg hc, ← hpath, Table.find?_insert, if_pos rfl]
      rw [result_addChained, hlast, hfound, Option.elim, hagain]
      exact hadd.result p p' hp hr hw

theorem repeats_addReferences (hc : c.Agree c') (hlast : c'.last = roots) (listed : List Path)
    (raw library : Entry) :
    Repeats roots (·.addReferences c listed raw library) (·.addReferences c' listed raw library) := by
  unfold addReferences
  rw [hc.chained]
  refine .unless library.path (.foldl fun reference _ ↦ ?_)
  split
  · exact .refl
  · exact repeats_addChained hlast raw _

theorem repeats_addAll (hc : c.Agree c') (hlast : c'.last = roots) (listed : List Path) (raw : Entry)
    (entries : List Entry) :
    Repeats roots (·.addAll c listed raw entries) (·.addAll c' listed raw entries) := by
  have hfollows : follows c' raw = follows c raw := by
    rw [follows, follows, hc.followsLibraries, hc.followsContainers]
  unfold addAll
  rw [hfollows]
  refine .foldl fun e _ ↦ .comp ?_ (repeats_add c c' raw e)
  split
  · exact repeats_addReferences hc hlast listed raw e
  · exact .refl

/-- What a look-up comes to: its entries, or the problem that there is no binding. -/
def addFound (c : ResolutionContext) (listed : List Path) (raw : Entry) (p : ResolutionPass) :
    Except Status (List Entry) → ResolutionPass
  | .ok entries => p.addAll c listed raw entries
  | .error problem => { p with result := p.result.recordProblem problem }

theorem repeats_addFound (hc : c.Agree c') (hlast : c'.last = roots) (listed : List Path) (raw : Entry)
    {found found' : Except Status (List Entry)}
    (h : found'.toOption.getD [] = found.toOption.getD []) :
    Repeats roots (addFound c listed raw · found) (addFound c' listed raw · found') := by
  cases found with
  | ok entries =>
    cases found' with
    | ok entries' =>
      obtain rfl : entries' = entries := h
      exact repeats_addAll hc hlast listed raw entries'
    | error problem =>
      obtain rfl : [] = entries := h
      exact ⟨fun _ h ↦ h, fun p _ ↦ .refl p.result, fun _ _ _ h _ ↦ h⟩
  | error problem =>
    cases found' with
    | ok entries' =>
      obtain rfl : entries' = [] := h
      exact ⟨fun _ h ↦ h, fun p _ ↦ .refl p.result, fun _ _ _ h _ ↦ h⟩
    | error problem' => exact ⟨fun _ h ↦ h, fun p _ ↦ .refl p.result, fun _ _ _ h _ ↦ h⟩

end ResolutionPass

open ResolutionPass

/-- The entries of a container, if there is one. -/
def containerEntries (container : Option Container) : List Entry :=
  (container.map Container.entries).getD []

/-- The entries behind a container entry are those of the container, if there is one. -/
private theorem containerEntries_behind (c : ResolutionContext) (e : Entry) (found : Option Container) :
    (match found with
      | some container => .ok (container.entries.map fun e' ↦
          (e'.combine (some e)).resolveFrom c.location)
      | none => .error (.unboundContainer c.project e.path) :
        Except Status (List Entry)).toOption.getD [] =
      (containerEntries found).map fun e' ↦ (e'.combine (some e)).resolveFrom c.location := by
  cases found <;> rfl

/-- The entries behind an entry depend on those it is bound to. -/
theorem entriesBehind_congr {b b' : Bindings Id} {c c' : ResolutionContext} {e : Entry}
    (hc : c.Agree c') (hv : e.kind = .variableRef → b'.variableEntry? e = b.variableEntry? e)
    (hk : e.kind = .container →
      containerEntries (b'.container? e.path).run = containerEntries (b.container? e.path).run) :
    (entriesBehind b' c' e).run.toOption.getD [] = (entriesBehind b c e).run.toOption.getD [] := by
  unfold entriesBehind
  rw [hc.project, hc.location]
  cases he : e.kind with
  | variableRef =>
    dsimp only
    rw [hv he]
  | container =>
    have hentries := containerEntries_behind c e
    exact (hentries _).trans ((congrArg _ (hk he)).trans (hentries _).symm)
  | library => rfl
  | source => rfl
  | project => rfl

/-- A resolution with bindings that change nothing, entry by entry. -/
theorem run_resolve (b : Bindings Id) (c : ResolutionContext) (raw : List Entry) :
    (resolve b c raw).run = raw.foldl
      (fun p e ↦ p.addFound c (listedLibraries c raw) e (entriesBehind b c e).run) {} := by
  rw [resolve, List.idRun_foldlM]
  congr 1

/-- Resolving again, with bindings to the same entries and the entries of the result, comes to the
result. -/
theorem outcome_again {b b' : Bindings Id} {c c' : ResolutionContext} {raw : List Entry}
    (hc : c.Agree c') (hb : ∀ e ∈ raw, (entriesBehind b' c' e).run.toOption.getD [] =
      (entriesBehind b c e).run.toOption.getD [])
    (hlast : c'.last = (outcome b c raw).roots) :
    (outcome b' c' raw).known = (outcome b c raw).known := by
  have hlisted : listedLibraries c' raw = listedLibraries c raw := by
    rw [listedLibraries, listedLibraries, hc.followsLibraries, hc.location]
  unfold outcome at hlast ⊢
  rw [run_resolve b' c', run_resolve b c, hlisted]
  rw [run_resolve b c] at hlast
  -- the invariants hold of the empty pass that both start from
  exact (show Repeats c'.last (raw.foldl _) (raw.foldl _) from .foldl fun e he ↦
    repeats_addFound hc rfl _ e (hb e he)).result {} {} (fun _ ↦ rfl) rfl fun path e h ↦ hlast ▸ h

/-! ### Paths of a result -/

namespace Resolved

/-- Whether the entries of a result have different paths, each with a raw entry. -/
structure Distinct (r : Resolved) : Prop where
  paths : (r.entries.map Entry.path).Nodup
  rawOf : ∀ e ∈ r.entries, r.rawOf.contains e.path

/-- Whether the entries of a result have different paths, and its tables are about those paths. -/
structure Keyed (r : Resolved) : Prop where
  paths : (r.entries.map Entry.path).Nodup
  rawOf : r.rawOf.keys = r.entries.map Entry.path
  roots : r.roots.keys = r.entries.map Entry.path
  entry : ∀ e ∈ r.entries, r.roots.find? e.path = some e

variable {r : Resolved}

theorem Keyed.empty : Keyed {} :=
  ⟨List.nodup_nil, rfl, rfl, fun _ he ↦ absurd he List.not_mem_nil⟩

theorem Keyed.contains_rawOf (h : r.Keyed) (path : Path) :
    r.rawOf.contains path ↔ ∃ e ∈ r.entries, e.path = path := by
  rw [← Table.mem_keys, h.rawOf, List.mem_map]

theorem Keyed.contains_roots (h : r.Keyed) (path : Path) :
    r.roots.contains path = r.rawOf.contains path := by
  rw [Bool.eq_iff_iff, ← Table.mem_keys, ← Table.mem_keys, h.roots, h.rawOf]

theorem Keyed.mem_of_find? (h : r.Keyed) {path : Path} {e : Entry}
    (he : r.roots.find? path = some e) : e ∈ r.entries ∧ e.path = path := by
  have hcontains : r.roots.contains path := Option.isSome_iff_exists.mpr ⟨e, he⟩
  rw [h.contains_roots] at hcontains
  obtain ⟨e', he', rfl⟩ := (h.contains_rawOf path).mp hcontains
  rw [h.entry e' he'] at he
  cases he
  exact ⟨he', rfl⟩

theorem Keyed.distinct (h : r.Keyed) : r.Distinct :=
  ⟨h.paths, fun e he ↦ (h.contains_rawOf e.path).mpr ⟨e, he, rfl⟩⟩

end Resolved

namespace ResolutionPass

variable {c : ResolutionContext} {p : ResolutionPass} {listed : List Path} {raw : Entry}
  {entries : List Entry}

theorem keyed_add (h : p.result.Keyed) (c : ResolutionContext) (raw e : Entry) :
    (p.add c raw e).result.Keyed := by
  rw [result_add]
  split
  · exact h
  · next hnew =>
    have hpaths : ∀ e' ∈ p.result.entries, e'.path ≠ e.path :=
      fun e' he' heq ↦ hnew ((h.contains_rawOf e.path).mpr ⟨e', he', heq⟩)
    refine ⟨?_, ?_, ?_, fun e' he' ↦ ?_⟩
    · rw [List.map_append, List.nodup_append]
      refine ⟨h.paths, List.pairwise_singleton _ _, fun path hpath path' hpath' heq ↦ ?_⟩
      obtain ⟨e', he', rfl⟩ := List.mem_map.mp hpath
      exact hpaths e' he' (heq.trans (List.mem_singleton.mp hpath'))
    · rw [Table.keys_insert, if_neg hnew, h.rawOf, List.map_append]
      rfl
    · rw [Table.keys_insert, if_neg (h.contains_roots e.path ▸ hnew), h.roots, List.map_append]
      rfl
    · rw [Table.find?_insert]
      rcases List.mem_append.mp he' with he' | he'
      · rw [if_neg (hpaths e' he').symm]
        exact h.entry e' he'
      · rw [List.mem_singleton.mp he', if_pos rfl]

/-- The entries that a raw entry brings in, given those behind it. -/
inductive BroughtIn (c : ResolutionContext) (listed : List Path) (raw : Entry) (entries : List Entry) :
    Entry → Prop
  /-- An entry behind it. -/
  | behind {e : Entry} (mem : e ∈ entries) : BroughtIn c listed raw entries e
  /-- A library that one of those brings along. -/
  | chained {library e : Entry} {reference : ChainedLibrary} (mem : library ∈ entries)
      (isLibrary : library.kind = .library) (isFollowed : follows c raw)
      (isReference : reference ∈ c.chained library.path library.external)
      (isUnlisted : reference.path ∉ listed) (kind : e.kind = .library)
      (path : e.path = reference.path) : BroughtIn c listed raw entries e

theorem kind_carryOver (e old : Entry) : (carryOver e old).kind = e.kind := by
  unfold carryOver
  split <;> split <;> rfl

/-- What is kept by adding each entry behind a raw entry, and each library that one of those brings along,
is kept by adding all of them. -/
theorem addAll_keeps_each {motive : Resolved → Prop} (start : motive p.result)
    (behind : ∀ (p : ResolutionPass) (e : Entry), e ∈ entries → motive p.result →
      motive (p.add c raw e).result)
    (chained : ∀ (p : ResolutionPass) (library : Entry) (reference : ChainedLibrary),
      library ∈ entries → library.kind = .library → follows c raw →
      reference ∈ c.chained library.path library.external → reference.path ∉ listed →
      motive p.result → motive (p.addChained c raw
        { kind := .library, path := reference.path, external := reference.external
          exported := library.exported }).result) :
    motive (p.addAll c listed raw entries).result := by
  have references : ∀ (p : ResolutionPass) (library : Entry), library ∈ entries →
      library.kind = .library → follows c raw → motive p.result →
        motive (p.addReferences c listed raw library).result := by
    intro p library hmem hlibrary hfollows hp
    unfold addReferences
    split
    · exact hp
    · refine List.foldlRecOn (motive := fun p : ResolutionPass ↦ motive p.result) _ _ hp
        fun p hp reference hreference ↦ ?_
      split
      · exact hp
      · next hunlisted =>
        exact chained p library reference hmem hlibrary hfollows hreference hunlisted hp
  refine List.foldlRecOn (motive := fun p : ResolutionPass ↦ motive p.result) _ _ start
    fun p hp e he ↦ ?_
  dsimp only
  split
  · next hfollowed =>
    obtain ⟨hlibrary, hfollows⟩ := Bool.and_eq_true_iff.mp hfollowed
    exact behind _ e he (references p e he (of_decide_eq_true hlibrary) hfollows hp)
  · exact behind p e he hp

/-- What each of the additions of a raw entry keeps is kept by all of them. -/
theorem addAll_keeps {motive : Resolved → Prop} (start : motive p.result)
    (add : ∀ (p : ResolutionPass) (e : Entry), BroughtIn c listed raw entries e → motive p.result →
      motive (p.add c raw e).result) :
    motive (p.addAll c listed raw entries).result := by
  refine addAll_keeps_each start (fun p e he ↦ add p e (.behind he))
    fun p library reference hmem hlibrary hfollows hreference hunlisted hp ↦ ?_
  rw [result_addChained]
  refine add p _ (.chained hmem hlibrary hfollows hreference hunlisted ?_ ?_) hp
  · cases c.last.find? reference.path with
    | none => rfl
    | some old => exact kind_carryOver _ old
  · cases c.last.find? reference.path with
    | none => rfl
    | some old => exact path_carryOver _ old

end ResolutionPass

/-- What a raw buildpath stands for has its entries under their paths, each path once. -/
theorem keyed_outcome (b : Bindings Id) (c : ResolutionContext) (raw : List Entry) :
    (outcome b c raw).Keyed := by
  unfold outcome
  rw [run_resolve]
  refine List.foldlRecOn (motive := fun p : ResolutionPass ↦ p.result.Keyed) _ _ .empty
    fun p hp e _ ↦ ?_
  cases (entriesBehind b c e).run with
  | ok entries => exact addAll_keeps hp fun _ e' _ hp ↦ keyed_add hp c e e'
  | error problem => exact ⟨hp.paths, hp.rawOf, hp.roots, hp.entry⟩

theorem distinct_outcome (b : Bindings Id) (c : ResolutionContext) (raw : List Entry) :
    (outcome b c raw).Distinct :=
  (keyed_outcome b c raw).distinct

/-! ### Resolutions without chained libraries -/

namespace ResolutionPass

variable {c c' : ResolutionContext} {p p' : ResolutionPass}

private theorem addAll_unchained (hc : ∀ path external, c.chained path external = [])
    (listed : List Path) (raw : Entry) (entries : List Entry) :
    p.addAll c listed raw entries = entries.foldl (fun p e ↦ p.add c raw e) p := by
  have hreferences : ∀ (p : ResolutionPass) e, p.addReferences c listed raw e = p := by
    intro p e
    unfold addReferences
    rw [hc]
    split <;> rfl
  unfold addAll
  simp only [hreferences, ite_self]

/-- Without chained libraries, what a raw entry makes of a result does not depend on anything else. -/
private theorem result_addFound_unchained (hc : ∀ path external, c.chained path external = [])
    (hc' : ∀ path external, c'.chained path external = []) (h : p'.result = p.result)
    (listed listed' : List Path) (raw : Entry) (found : Except Status (List Entry)) :
    (p'.addFound c' listed' raw found).result = (p.addFound c listed raw found).result := by
  cases found with
  | error problem => exact congrArg (Resolved.recordProblem · problem) h
  | ok entries =>
    rw [addFound, addFound, addAll_unchained hc, addAll_unchained hc']
    induction entries generalizing p p' with
    | nil => exact h
    | cons e entries ih =>
      refine ih ?_
      rw [result_add, result_add, h]

end ResolutionPass

/-- Without chained libraries, a result depends on the entries behind the raw ones only. -/
theorem outcome_unchained {b b' : Bindings Id} {c c' : ResolutionContext} {raw : List Entry}
    (hc : ∀ path external, c.chained path external = [])
    (hc' : ∀ path external, c'.chained path external = [])
    (hb : ∀ e ∈ raw, (entriesBehind b' c' e).run = (entriesBehind b c e).run) :
    outcome b' c' raw = outcome b c raw := by
  rw [outcome, outcome, run_resolve, run_resolve]
  generalize listedLibraries c raw = listed
  generalize listedLibraries c' raw = listed'
  suffices h : ∀ p p' : ResolutionPass, p'.result = p.result →
      (raw.foldl (fun p e ↦ p.addFound c' listed' e (entriesBehind b' c' e).run) p').result =
        (raw.foldl (fun p e ↦ p.addFound c listed e (entriesBehind b c e).run) p).result from
    h {} {} rfl
  induction raw with
  | nil => exact fun _ _ h ↦ h
  | cons e raw ih =>
    obtain ⟨he, hraw⟩ := List.forall_mem_cons.mp hb
    intro p p' h
    rw [List.foldl_cons, List.foldl_cons, he]
    exact ih hraw _ _ (result_addFound_unchained hc hc' h listed listed' e _)

end Buildpath
