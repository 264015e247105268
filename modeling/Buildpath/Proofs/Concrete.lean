import Buildpath.Proofs.Chained
import Buildpath.Proofs.Origins

/-!
# Concrete buildpaths

A raw buildpath without variables and containers stands for its entries and the libraries chained from
them. The result is a fixed point (`resolve_concrete_again`): a library that another one of the result
brings along is in the result itself, so it is left to its own entry, or it gave way to an entry that
stands before. What is chained over any number of libraries makes this so, whatever the cycles.
-/

namespace Buildpath

open ResolutionPass

variable {σ : Type} {b : Bindings (StateM σ)} {c : ResolutionContext} {s : σ} {e : Entry}
  {raw entries : List Entry}

/-- Whether an entry stands for itself: it is neither a variable nor a container. -/
def Entry.IsConcrete (e : Entry) : Prop := e.kind = .source ∨ e.kind = .library ∨ e.kind = .project

/-- Whether the entries of a raw buildpath are concrete, with different paths, and its libraries lie at
absolute paths or are taken from an absolute location. -/
structure ConcreteBuildpath (location : Option Path) (raw : List Entry) : Prop where
  base : ∃ base, location = some base ∧ base.Grounded
  concrete : ∀ e ∈ raw, e.IsConcrete
  canonical : ∀ e ∈ raw, e.path.Canonical
  libraries : ∀ e ∈ raw, e.kind = .library → e.path.absolute ∨ e.path.startsWithParent
  distinct : (raw.map fun e ↦ (e.resolveFrom location).path).Nodup

/-- Whether a resolution follows the manifests of the libraries in a workspace. -/
structure ResolutionContext.FollowsManifests (c : ResolutionContext) (w : Workspace) : Prop where
  follows : c.followsLibraries = true
  chained : c.chained = w.chainedLibraries

/-- Whether what the library at a position brings along needs no entry: it is listed or a library, or its
path has an entry before that position. -/
def Supplied (c : ResolutionContext) (listed : List Path) (entries : List Entry) (i : Nat) (e : Entry) :
    Prop :=
  e.kind = .library → ∀ reference ∈ c.chained e.path e.external, reference.path ∈ listed ∨
    reference.path ∈ (entries.take i).map Entry.path ∨
    ∃ e' ∈ entries, e'.kind = .library ∧ e'.path = reference.path

/-- Whether entries are concrete, with different paths that are absolute for libraries, and what the
libraries bring along is supplied. -/
structure Settled (c : ResolutionContext) (listed : List Path) (entries : List Entry) : Prop where
  concrete : ∀ e ∈ entries, e.IsConcrete
  grounded : ∀ e ∈ entries, e.kind = .library → e.path.Grounded
  distinct : (entries.map Entry.path).Nodup
  supplied : ∀ i e, entries[i]? = some e → Supplied c listed entries i e

/-! ### Single entries -/

namespace Entry

@[simp] theorem kind_resolveFrom (e : Entry) (location : Option Path) :
    (e.resolveFrom location).kind = e.kind := by
  unfold resolveFrom
  split
  · rfl
  · split <;> rfl

/-- Only libraries are taken from a location. -/
theorem resolveFrom_of_ne (h : e.kind ≠ .library) (location : Option Path) :
    e.resolveFrom location = e := by
  unfold resolveFrom
  split
  · rfl
  · rw [if_neg (by simp [h])]

theorem resolveFrom_of_grounded (h : e.path.Grounded) (location : Option Path) :
    e.resolveFrom location = e := by
  unfold resolveFrom
  split
  · rfl
  · rw [if_neg (by simp [h.startsWithParent])]

/-- What is taken from an absolute location is absolute. -/
theorem grounded_resolveFrom {base : Path} (hbase : base.Grounded) (hcanonical : e.path.Canonical)
    (hkind : e.kind = .library) (h : e.path.absolute ∨ e.path.startsWithParent) :
    (e.resolveFrom (some base)).path.Grounded := by
  rcases h with h | h
  · have hgrounded : e.path.Grounded := ⟨hcanonical, h⟩
    rw [resolveFrom_of_grounded hgrounded]
    exact hgrounded
  · rw [resolveFrom, if_pos (by simp [hkind, h])]
    change (e.path.resolveFrom base).Grounded
    rw [Path.resolveFrom]
    split
    · next hor =>
      refine ⟨hcanonical, ?_⟩
      simpa [h] using hor
    · exact hbase.append hcanonical

end Entry

/-- A concrete entry stands for itself, taken from the location of the project. -/
theorem found_concrete (b : Bindings (StateM σ)) (c : ResolutionContext) (s : σ) (he : e.IsConcrete) :
    found b c s e = .ok [e.resolveFrom c.location] := by
  rcases he with he | he | he
  · rw [found_itself b c s (.inl he), Entry.resolveFrom_of_ne (by rw [he]; nofun)]
  · unfold found entriesBehind
    rw [he]
    rfl
  · rw [found_itself b c s (.inr he), Entry.resolveFrom_of_ne (by rw [he]; nofun)]

namespace ResolutionPass

variable {p : ResolutionPass} {listed : List Path} {o library : Entry}

theorem addFound_single (p : ResolutionPass) (c : ResolutionContext) (listed : List Path) (o e : Entry) :
    p.addFound c listed o (.ok [e]) =
      (if e.kind = .library && follows c o then p.addReferences c listed o e else p).add c o e := rfl

/-- Adding an entry puts it at the end, unless its path is there. -/
theorem entries_add (h : p.result.Keyed) (c : ResolutionContext) (o e : Entry) :
    (p.add c o e).result.entries =
      if e.path ∈ p.result.entries.map Entry.path then p.result.entries else p.result.entries ++ [e] := by
  have hcontains : (p.result.rawOf.contains e.path = true) ↔ e.path ∈ p.result.entries.map Entry.path := by
    rw [h.contains_rawOf, List.mem_map]
  rw [result_add]
  by_cases hmem : e.path ∈ p.result.entries.map Entry.path
  · rw [if_pos (hcontains.mpr hmem), if_pos hmem]
  · rw [if_neg (fun hc ↦ hmem (hcontains.mp hc)), if_neg hmem]

theorem unresolved_add (p : ResolutionPass) (c : ResolutionContext) (o e : Entry) :
    (p.add c o e).result.unresolved = p.result.unresolved := by
  rw [result_add]
  split <;> rfl

theorem external_carryOver (e old : Entry) : (carryOver e old).external = e.external := by
  unfold carryOver
  split <;> split <;> rfl

/-- What references make of a result: they add libraries that are not listed, until each of them is listed
or has an entry. -/
structure Brings (listed : List Path) (references : List ChainedLibrary) (r r' : Resolved) : Prop where
  keyed : r'.Keyed
  unresolved : r'.unresolved = r.unresolved
  added : ∃ added, r'.entries = r.entries ++ added ∧ ∀ a ∈ added, a.kind = .library ∧
    ∃ reference ∈ references, reference.path ∉ listed ∧ a.path = reference.path ∧
      a.external = reference.external
  there : ∀ reference ∈ references, reference.path ∈ listed ∨
    reference.path ∈ r'.entries.map Entry.path

variable {r r' r'' : Resolved} {references references' : List ChainedLibrary} {reference : ChainedLibrary}

/-- References that are listed bring nothing. -/
theorem Brings.of_listed (h : r.Keyed) (hl : ∀ reference ∈ references, reference.path ∈ listed) :
    Brings listed references r r :=
  ⟨h, rfl, ⟨[], (List.append_nil _).symm, List.forall_mem_nil _⟩,
    fun reference hmem ↦ .inl (hl reference hmem)⟩

theorem Brings.append (h : Brings listed references r r') (h' : Brings listed references' r' r'') :
    Brings listed (references ++ references') r r'' := by
  obtain ⟨added, hentries, hadded⟩ := h.added
  obtain ⟨added', hentries', hadded'⟩ := h'.added
  have weaken : ∀ {a : Entry} {rs : List ChainedLibrary}, rs ⊆ references ++ references' →
      (a.kind = .library ∧ ∃ reference ∈ rs, reference.path ∉ listed ∧ a.path = reference.path ∧
        a.external = reference.external) →
      a.kind = .library ∧ ∃ reference ∈ references ++ references', reference.path ∉ listed ∧
        a.path = reference.path ∧ a.external = reference.external :=
    fun hrs ⟨hkind, reference, hmem, hrest⟩ ↦ ⟨hkind, reference, hrs hmem, hrest⟩
  refine ⟨h'.keyed, h'.unresolved.trans h.unresolved, ⟨added ++ added', ?_, fun a ha ↦ ?_⟩,
    fun reference hreference ↦ ?_⟩
  · rw [hentries', hentries, List.append_assoc]
  · rcases List.mem_append.mp ha with ha | ha
    · exact weaken (List.subset_append_left _ _) (hadded a ha)
    · exact weaken (List.subset_append_right _ _) (hadded' a ha)
  · rcases List.mem_append.mp hreference with hreference | hreference
    · refine (h.there reference hreference).imp_right fun hmem ↦ ?_
      rw [hentries', List.map_append]
      exact List.mem_append_left _ hmem
    · exact h'.there reference hreference

/-- References bring no entry to a path that is listed. -/
theorem Brings.not_mem_of_listed {path : Path} (h : Brings listed references r r')
    (hlisted : path ∈ listed) (hnew : path ∉ r.entries.map Entry.path) :
    path ∉ r'.entries.map Entry.path := by
  obtain ⟨added, hentries, hadded⟩ := h.added
  rw [hentries, List.map_append, List.mem_append]
  rintro (hold | hbrought)
  · exact hnew hold
  · obtain ⟨a, ha, rfl⟩ := List.mem_map.mp hbrought
    obtain ⟨-, reference, -, hunlisted, hreference, -⟩ := hadded a ha
    exact hunlisted (hreference ▸ hlisted)

/-- References that are listed or have an entry bring nothing. -/
theorem Brings.entries_eq (h : Brings listed references r r') (hthere : ∀ reference ∈ references,
    reference.path ∈ listed ∨ reference.path ∈ r.entries.map Entry.path) : r'.entries = r.entries := by
  obtain ⟨added, hentries, hadded⟩ := h.added
  have hempty : added = [] := by
    refine List.eq_nil_iff_forall_not_mem.mpr fun a ha ↦ ?_
    obtain ⟨-, reference, hreference, hunlisted, hpath, -⟩ := hadded a ha
    rcases hthere reference hreference with hlisted | hold
    · exact hunlisted hlisted
    · have hnodup := h.keyed.paths
      rw [hentries, List.map_append, List.nodup_append] at hnodup
      exact hnodup.2.2 _ hold _ (List.mem_map_of_mem ha) hpath.symm
  rw [hentries, hempty, List.append_nil]

theorem brings_addChained (h : p.result.Keyed) (hunlisted : reference.path ∉ listed)
    (c : ResolutionContext) (o : Entry) {e : Entry} (hkind : e.kind = .library)
    (hpath : e.path = reference.path) (hexternal : e.external = reference.external) :
    Brings listed [reference] p.result (p.addChained c o e).result := by
  obtain ⟨given, hgiven, hkind, hpath, hexternal⟩ : ∃ given,
      (p.addChained c o e).result = (p.add c o given).result ∧ given.kind = .library ∧
        given.path = reference.path ∧ given.external = reference.external := by
    refine ⟨_, result_addChained p c o e, ?_⟩
    cases c.last.find? e.path with
    | none => exact ⟨hkind, hpath, hexternal⟩
    | some old =>
      exact ⟨(kind_carryOver e old).trans hkind, (path_carryOver e old).trans hpath,
        (external_carryOver e old).trans hexternal⟩
  rw [hgiven]
  have hentries := entries_add h c o given
  refine ⟨keyed_add h c o given, unresolved_add p c o given, ?_, ?_⟩
  · split at hentries
    · exact ⟨[], hentries.trans (List.append_nil _).symm, List.forall_mem_nil _⟩
    · refine ⟨[given], hentries, fun a ha ↦ ?_⟩
      rw [List.mem_singleton.mp ha]
      exact ⟨hkind, reference, List.mem_singleton_self _, hunlisted, hpath, hexternal⟩
  · intro reference' hreference'
    rw [List.mem_singleton.mp hreference', ← hpath]
    refine .inr ?_
    split at hentries
    · next hmem => rwa [hentries]
    · rw [hentries, List.map_append]
      exact List.mem_append_right _ (List.mem_singleton_self _)

/-- The references of a library without an entry are all brought along. -/
theorem brings_addReferences (h : p.result.Keyed)
    (hnew : library.path ∉ p.result.entries.map Entry.path) (c : ResolutionContext)
    (listed : List Path) (o : Entry) :
    Brings listed (c.chained library.path library.external) p.result
      (p.addReferences c listed o library).result := by
  have hfresh : ¬ (p.result.rawOf.contains library.path = true) := by
    rw [h.contains_rawOf, ← List.mem_map]
    exact hnew
  unfold addReferences
  rw [if_neg hfresh]
  generalize c.chained library.path library.external = references
  clear hnew hfresh
  induction references generalizing p with
  | nil => exact .of_listed h (List.forall_mem_nil _)
  | cons reference references ih =>
    rw [List.foldl_cons, ← List.singleton_append]
    by_cases hlisted : reference.path ∈ listed
    · rw [if_pos hlisted]
      exact (Brings.of_listed h (List.forall_mem_singleton.mpr hlisted)).append (ih h)
    · rw [if_neg hlisted]
      have hfirst := brings_addChained h hlisted c o (e := {
        kind := .library, path := reference.path, external := reference.external
        exported := library.exported }) rfl rfl rfl
      exact hfirst.append (ih hfirst.keyed)

end ResolutionPass

/-! ### Resolving settled entries -/

namespace Settled

variable {listed : List Path} {n : Nat}

theorem resolveFrom_eq (h : Settled c listed entries) (he : e ∈ entries) (location : Option Path) :
    e.resolveFrom location = e := by
  by_cases hkind : e.kind = .library
  · exact Entry.resolveFrom_of_grounded (h.grounded e he hkind) location
  · exact Entry.resolveFrom_of_ne hkind location

/-- Libraries that are settled are listed. -/
theorem mem_listedLibraries (h : Settled c listed entries) (hfollows : c.followsLibraries = true)
    (he : e ∈ entries) (hkind : e.kind = .library) : e.path ∈ listedLibraries c entries := by
  rw [listedLibraries, if_pos hfollows]
  exact List.mem_map.mpr ⟨e, List.mem_filter.mpr ⟨he, by simp [hkind]⟩, by rw [h.resolveFrom_eq he]⟩

/-- No entry before one that is settled has its path. -/
theorem path_not_mem_take (h : Settled c listed entries) (he : entries[n]? = some e) :
    e.path ∉ (entries.take n).map Entry.path := by
  have hnodup := h.distinct.sublist ((List.take_sublist (n + 1) entries).map _)
  rw [List.take_add_one, he, Option.toList_some, List.map_append, List.nodup_append] at hnodup
  exact fun hpath ↦ hnodup.2.2 _ hpath _ (List.mem_singleton_self _) rfl

/-- Resolving settled entries gives them, whatever the bindings. -/
theorem resolve (h : Settled c [] entries) (hfollows : c.followsLibraries = true)
    (b : Bindings (StateM σ)) (s : σ) :
    ((resolve b c entries).run s).1.result.entries = entries ∧
      ((resolve b c entries).run s).1.result.unresolved = none := by
  suffices hrun : ((Buildpath.resolve b c entries).run s).1.result.Keyed ∧
      ((Buildpath.resolve b c entries).run s).1.result.entries = entries.take entries.length ∧
      ((Buildpath.resolve b c entries).run s).1.result.unresolved = none from
    ⟨hrun.2.1.trans List.take_length, hrun.2.2⟩
  refine resolve_induction (motive := fun n p ↦ p.result.Keyed ∧ p.result.entries = entries.take n ∧
    p.result.unresolved = none) ⟨.empty, rfl, rfl⟩ ?_
  rintro n e p he ⟨hkeyed, hentries, hunresolved⟩
  have hmem : e ∈ entries := List.mem_of_getElem? he
  have hnew : e.path ∉ p.result.entries.map Entry.path := hentries ▸ h.path_not_mem_take he
  rw [found_concrete b c _ (h.concrete e hmem), h.resolveFrom_eq hmem]
  -- nothing is brought along, so only the entry itself is added
  have hadd : ∀ p' : ResolutionPass, p'.result.Keyed → p'.result.entries = p.result.entries →
      p'.result.unresolved = none → (p'.add c e e).result.Keyed ∧
        (p'.add c e e).result.entries = entries.take (n + 1) ∧
        (p'.add c e e).result.unresolved = none := by
    intro p' hkeyed' hentries' hunresolved'
    refine ⟨keyed_add hkeyed' c e e, ?_, (unresolved_add p' c e e).trans hunresolved'⟩
    rw [entries_add hkeyed', hentries', if_neg hnew, hentries, List.take_add_one, he, Option.toList_some]
  rw [addFound_single]
  split
  · next hlibrary =>
    have hkind : e.kind = .library := of_decide_eq_true (Bool.and_eq_true_iff.mp hlibrary).1
    have hbrings := brings_addReferences hkeyed hnew c (listedLibraries c entries) e
    refine hadd _ hbrings.keyed (hbrings.entries_eq fun reference hreference ↦ ?_)
      (hbrings.unresolved.trans hunresolved)
    rcases h.supplied n e he hkind reference hreference with hpath | hpath | ⟨e', he', hkind', hpath⟩
    · exact absurd hpath List.not_mem_nil
    · exact .inr (hentries ▸ hpath)
    · exact .inl (hpath ▸ h.mem_listedLibraries hfollows he' hkind')
  · exact hadd p hkeyed rfl hunresolved

end Settled

/-! ### Concrete buildpaths settle -/

/-- What a resolution has after some of the raw entries: it is settled but for what is listed, and
what is listed is there once its raw entry is. -/
structure Gathered (c : ResolutionContext) (listed : List Path) (done : List Entry) (r : Resolved) :
    Prop where
  keyed : r.Keyed
  unresolved : r.unresolved = none
  settled : Settled c listed r.entries
  own : ∀ e ∈ r.entries, e.path ∈ listed → ∃ o ∈ done, o.resolveFrom c.location = e
  libraries : ∀ o ∈ done, o.kind = .library → o.resolveFrom c.location ∈ r.entries

/-- Entries stay settled when more of them follow that are. -/
theorem Settled.append {listed : List Path} {added : List Entry} (h : Settled c listed entries)
    (hconcrete : ∀ e ∈ added, e.IsConcrete) (hgrounded : ∀ e ∈ added, e.kind = .library → e.path.Grounded)
    (hdistinct : ((entries ++ added).map Entry.path).Nodup)
    (hsupplied : ∀ e ∈ added, e.kind = .library → ∀ reference ∈ c.chained e.path e.external,
      reference.path ∈ listed ∨ reference.path ∈ entries.map Entry.path ∨
        ∃ e' ∈ added, e'.kind = .library ∧ e'.path = reference.path) :
    Settled c listed (entries ++ added) := by
  refine ⟨List.forall_mem_append.mpr ⟨h.concrete, hconcrete⟩,
    List.forall_mem_append.mpr ⟨h.grounded, hgrounded⟩, hdistinct, fun i e he hkind reference href ↦ ?_⟩
  by_cases hi : i < entries.length
  · rw [List.getElem?_append_left hi] at he
    rw [List.take_append_of_le_length (Nat.le_of_lt hi)]
    refine (h.supplied i e he hkind reference href).imp_right (Or.imp_right ?_)
    rintro ⟨e', he', hrest⟩
    exact ⟨e', List.mem_append_left _ he', hrest⟩
  · rw [List.getElem?_append_right (Nat.le_of_not_lt hi)] at he
    refine (hsupplied e (List.mem_of_getElem? he) hkind reference href).imp_right (Or.imp ?_ ?_)
    · intro hpath
      rw [List.take_append, List.take_of_length_le (Nat.le_of_not_lt hi), List.map_append]
      exact List.mem_append_left _ hpath
    · rintro ⟨e', he', hrest⟩
      exact ⟨e', List.mem_append_right _ he', hrest⟩

/-- One more raw entry, with the entries that it adds. -/
theorem Gathered.append {listed : List Path} {done added : List Entry} {r r' : Resolved} {o : Entry}
    (h : Gathered c listed done r) (hkeyed : r'.Keyed) (hunresolved : r'.unresolved = r.unresolved)
    (hentries : r'.entries = r.entries ++ added) (hconcrete : ∀ e ∈ added, e.IsConcrete)
    (hgrounded : ∀ e ∈ added, e.kind = .library → e.path.Grounded)
    (hsupplied : ∀ e ∈ added, e.kind = .library → ∀ reference ∈ c.chained e.path e.external,
      reference.path ∈ listed ∨ reference.path ∈ r.entries.map Entry.path ∨
        ∃ e' ∈ added, e'.kind = .library ∧ e'.path = reference.path)
    (hown : ∀ e ∈ added, e.path ∈ listed → o.resolveFrom c.location = e)
    (hlibrary : o.kind = .library → o.resolveFrom c.location ∈ added) :
    Gathered c listed (done ++ [o]) r' := by
  refine ⟨hkeyed, hunresolved.trans h.unresolved, ?_, fun e he hpath ↦ ?_, fun o' ho' hkind ↦ ?_⟩
  · rw [hentries]
    exact h.settled.append hconcrete hgrounded (hentries ▸ hkeyed.paths) hsupplied
  · rcases List.mem_append.mp (hentries ▸ he) with he | he
    · obtain ⟨o', ho', heq⟩ := h.own e he hpath
      exact ⟨o', List.mem_append_left _ ho', heq⟩
    · exact ⟨o, List.mem_append_right _ (List.mem_singleton_self _), hown e he hpath⟩
  · rw [hentries]
    rcases List.mem_append.mp ho' with ho' | ho'
    · exact List.mem_append_left _ (h.libraries o' ho' hkind)
    · obtain rfl := List.mem_singleton.mp ho'
      exact List.mem_append_right _ (hlibrary hkind)

namespace ConcreteBuildpath

variable {w : Workspace} {p : ResolutionPass} {n : Nat} {o o' : Entry}

/-- Different raw entries stand for entries with different paths. -/
theorem eq_of_path (h : ConcreteBuildpath c.location raw) (ho : o ∈ raw) (ho' : o' ∈ raw)
    (heq : (o.resolveFrom c.location).path = (o'.resolveFrom c.location).path) : o = o' :=
  List.inj_on_of_nodup_map h.distinct ho ho' heq

/-- A raw entry does not occur before itself. -/
theorem not_mem_take (h : ConcreteBuildpath c.location raw) (ho : raw[n]? = some o) :
    o ∉ raw.take n := by
  have hnodup := (h.distinct.of_map _).sublist (List.take_sublist (n + 1) raw)
  rw [List.take_add_one, ho, Option.toList_some, List.nodup_append] at hnodup
  exact fun hmem ↦ hnodup.2.2 o hmem o (List.mem_singleton_self o) rfl

theorem mem_listedLibraries (hfollows : c.followsLibraries = true) {path : Path} :
    path ∈ listedLibraries c raw ↔
      ∃ o ∈ raw, o.kind = .library ∧ (o.resolveFrom c.location).path = path := by
  rw [listedLibraries, if_pos hfollows]
  simp [and_assoc]

/-- A listed path has no entry before the raw entry that stands for it is taken. -/
theorem path_not_mem_gathered (hraw : ConcreteBuildpath c.location raw) {listed : List Path} {r : Resolved}
    (h : Gathered c listed (raw.take n) r) (ho : raw[n]? = some o)
    (hlisted : (o.resolveFrom c.location).path ∈ listed) :
    (o.resolveFrom c.location).path ∉ r.entries.map Entry.path := by
  intro hold
  obtain ⟨e, he, heq⟩ := List.mem_map.mp hold
  obtain ⟨o', ho', rfl⟩ := h.own e he (heq ▸ hlisted)
  obtain rfl := hraw.eq_of_path (List.mem_of_mem_take ho') (List.mem_of_getElem? ho) heq
  exact hraw.not_mem_take ho ho'

/-- What a library brings along is settled with it: what is chained from that is chained from it. -/
theorem gathered_library (hraw : ConcreteBuildpath c.location raw) (hc : c.FollowsManifests w)
    (h : Gathered c (listedLibraries c raw) (raw.take n) p.result) (ho : raw[n]? = some o)
    (hlibrary : o.kind = .library) :
    Gathered c (listedLibraries c raw) (raw.take n ++ [o])
      (p.addFound c (listedLibraries c raw) o (.ok [o.resolveFrom c.location])).result := by
  have hmem : o ∈ raw := List.mem_of_getElem? ho
  obtain ⟨base, hlocation, hbase⟩ := hraw.base
  rw [addFound_single]
  generalize he : o.resolveFrom c.location = e
  have hkind : e.kind = .library := by rw [← he, Entry.kind_resolveFrom, hlibrary]
  have hgrounded : e.path.Grounded := by
    rw [← he, hlocation]
    exact Entry.grounded_resolveFrom hbase (hraw.canonical o hmem) hlibrary (hraw.libraries o hmem hlibrary)
  have hlisted : e.path ∈ listedLibraries c raw :=
    (mem_listedLibraries hc.follows).mpr ⟨o, hmem, hlibrary, congrArg Entry.path he⟩
  have hnew : e.path ∉ p.result.entries.map Entry.path := by
    subst he
    exact hraw.path_not_mem_gathered h ho hlisted
  rw [if_pos (by rw [hkind, follows, hc.follows, hlibrary]; rfl)]
  have hbrings := brings_addReferences h.keyed hnew c (listedLibraries c raw) o
  generalize p.addReferences c (listedLibraries c raw) o e = p' at hbrings
  obtain ⟨added, hentries, hadded⟩ := hbrings.added
  have hentries' : (p'.add c o e).result.entries = p.result.entries ++ (added ++ [e]) := by
    rw [entries_add hbrings.keyed, if_neg (hbrings.not_mem_of_listed hlisted hnew), hentries,
      List.append_assoc]
  have hforall : ∀ {q : Entry → Prop}, (∀ a ∈ added, q a) → q e → ∀ a ∈ added ++ [e], q a :=
    fun hq hqe ↦ List.forall_mem_append.mpr ⟨hq, fun a ha ↦ List.mem_singleton.mp ha ▸ hqe⟩
  -- what is chained from the library is listed, or has an entry now
  have hchained : ∀ reference ∈ c.chained e.path e.external, reference.path ∈ listedLibraries c raw ∨
      reference.path ∈ p.result.entries.map Entry.path ∨
        ∃ e' ∈ added ++ [e], e'.kind = .library ∧ e'.path = reference.path := by
    intro reference hreference
    refine (hbrings.there reference hreference).imp_right fun hpath ↦ ?_
    rw [hentries, List.map_append, List.mem_append] at hpath
    refine hpath.imp_right fun hpath ↦ ?_
    obtain ⟨a, ha, heq⟩ := List.mem_map.mp hpath
    exact ⟨a, List.mem_append_left _ ha, (hadded a ha).1, heq⟩
  refine h.append (keyed_add hbrings.keyed c o e)
    ((unresolved_add p' c o e).trans hbrings.unresolved) hentries' (hforall ?_ (.inr (.inl hkind)))
    (hforall ?_ fun _ ↦ hgrounded) (hforall ?_ fun _ ↦ hchained) (hforall ?_ fun _ ↦ he)
    fun _ ↦ he ▸ List.mem_append_right _ (List.mem_singleton_self _)
  · exact fun a ha ↦ .inr (.inl (hadded a ha).1)
  · intro a ha _
    obtain ⟨-, reference, hreference, -, hpath, -⟩ := hadded a ha
    rw [hc.chained, Workspace.mem_chainedLibraries_iff hgrounded] at hreference
    exact hpath ▸ (Workspace.grounded_of_refers hgrounded hreference.2.2).1
  · intro a ha _ further hfurther
    obtain ⟨-, reference, hreference, -, hpath, hexternal⟩ := hadded a ha
    rw [hpath, hexternal, hc.chained] at hfurther
    rw [hc.chained] at hreference
    rcases Workspace.mem_chainedLibraries_trans hgrounded hreference hfurther with hself | hfurther
    · exact .inl (hself ▸ hlisted)
    · exact hchained further (hc.chained ▸ hfurther)
  · intro a ha hpath
    obtain ⟨-, reference, -, hunlisted, hreference, -⟩ := hadded a ha
    exact absurd (hreference ▸ hpath) hunlisted

/-- Source folders and projects give way to a library that was brought along at their path. -/
theorem gathered_other (hraw : ConcreteBuildpath c.location raw) (hfollows : c.followsLibraries = true)
    (h : Gathered c (listedLibraries c raw) (raw.take n) p.result) (ho : raw[n]? = some o)
    (hother : o.kind ≠ .library) :
    Gathered c (listedLibraries c raw) (raw.take n ++ [o])
      (p.addFound c (listedLibraries c raw) o (.ok [o.resolveFrom c.location])).result := by
  have hmem : o ∈ raw := List.mem_of_getElem? ho
  have hunlisted : o.path ∉ listedLibraries c raw := by
    rw [mem_listedLibraries hfollows]
    rintro ⟨o', ho', hlibrary, heq⟩
    refine hother ?_
    rwa [hraw.eq_of_path hmem ho' (by rw [heq, Entry.resolveFrom_of_ne hother])]
  rw [addFound_single, Entry.resolveFrom_of_ne hother, if_neg (by simp [hother])]
  have hentries := entries_add h.keyed c o o
  have hkeyed := keyed_add h.keyed c o o
  have hunresolved := unresolved_add p c o o
  split at hentries
  · exact h.append hkeyed hunresolved (hentries.trans (List.append_nil _).symm) (List.forall_mem_nil _)
      (List.forall_mem_nil _) (List.forall_mem_nil _) (List.forall_mem_nil _)
      fun hlibrary ↦ absurd hlibrary hother
  · have hsingle : ∀ {q : Entry → Prop}, q o → ∀ a ∈ [o], q a :=
      fun hq a ha ↦ List.mem_singleton.mp ha ▸ hq
    exact h.append hkeyed hunresolved hentries (hsingle (hraw.concrete o hmem))
      (hsingle fun hlibrary ↦ absurd hlibrary hother) (hsingle fun hlibrary ↦ absurd hlibrary hother)
      (hsingle fun hpath ↦ absurd hpath hunlisted) fun hlibrary ↦ absurd hlibrary hother

/-- What a concrete buildpath stands for is settled. -/
theorem settled (hraw : ConcreteBuildpath c.location raw) (hc : c.FollowsManifests w)
    (b : Bindings (StateM σ)) (s : σ) : Settled c [] ((resolve b c raw).run s).1.result.entries := by
  have hall : Gathered c (listedLibraries c raw) (raw.take raw.length)
      ((resolve b c raw).run s).1.result := by
    refine resolve_induction (motive := fun n p ↦
      Gathered c (listedLibraries c raw) (raw.take n) p.result) ?_ fun n o p ho h ↦ ?_
    · exact ⟨.empty, rfl, ⟨List.forall_mem_nil _, List.forall_mem_nil _, List.nodup_nil,
        fun _ _ he ↦ absurd he (by simp)⟩,
        List.forall_mem_nil _, List.forall_mem_nil _⟩
    · rw [found_concrete b c _ (hraw.concrete o (List.mem_of_getElem? ho)), List.take_add_one, ho,
        Option.toList_some]
      by_cases hlibrary : o.kind = .library
      · exact hraw.gathered_library hc h ho hlibrary
      · exact hraw.gathered_other hc.follows h ho hlibrary
  rw [List.take_length] at hall
  refine { hall.settled with supplied := fun i e he hkind reference hreference ↦ .inr ?_ }
  rcases hall.settled.supplied i e he hkind reference hreference with hlisted | hsupplied
  · -- a listed library is there, since its raw entry was taken
    obtain ⟨o, ho, hlibrary, hpath⟩ := (mem_listedLibraries hc.follows).mp hlisted
    exact .inr ⟨_, hall.libraries o ho hlibrary, (o.kind_resolveFrom c.location).trans hlibrary, hpath⟩
  · exact hsupplied

end ConcreteBuildpath

/-- Resolving what a concrete buildpath stands for gives the same entries in the same order, and all of
them have what they stand for. Neither bindings nor earlier resolutions matter. -/
theorem resolve_concrete_again {w : Workspace} {c' : ResolutionContext}
    (hraw : ConcreteBuildpath c.location raw) (hc : c.FollowsManifests w) (hagree : c.Agree c')
    (b b' : Bindings (StateM σ)) (s s' : σ) :
    ((resolve b' c' ((resolve b c raw).run s).1.result.entries).run s').1.result.entries =
        ((resolve b c raw).run s).1.result.entries ∧
      ((resolve b' c' ((resolve b c raw).run s).1.result.entries).run s').1.result.isOk := by
  have hsettled : Settled c' [] ((resolve b c raw).run s).1.result.entries := by
    refine { hraw.settled hc b s with supplied := fun i e he hkind ↦ ?_ }
    rw [hagree.chained]
    exact (hraw.settled hc b s).supplied i e he hkind
  obtain ⟨hentries, hunresolved⟩ := hsettled.resolve (hagree.followsLibraries.trans hc.follows) b' s'
  exact ⟨hentries, by rw [Resolved.isOk, hunresolved]; rfl⟩

/-- A project beside two libraries that refer to each other, one of them to a third one, too. -/
def cyclicLibraries : Workspace :=
  .memory <| ((({} : Memory).addProject "p" none).addExternalFile (Path.parse "/ext/a/META-INF/MANIFEST.MF")
    "Class-Path: b c\n".toUTF8 |>.addExternalFile (Path.parse "/ext/b/META-INF/MANIFEST.MF")
    "Class-Path: a\n".toUTF8).addExternalFolder (Path.parse "/ext/c")

/-- The context of the project beside `cyclicLibraries`. -/
def cyclicContext : ResolutionContext :=
  { project := "p", location := cyclicLibraries.projectLocation? "p", followsLibraries := true
    followsContainers := false, chained := cyclicLibraries.chainedLibraries, last := .empty
    isExternalFolder := fun _ ↦ false }

/-- A source folder at the place of the third library, and the first one by a path from the project. -/
def cyclicRaw : List Entry :=
  [{ kind := .source, path := Path.parse "/ext/c" }, { kind := .library, path := Path.parse "../../ext/a" }]

/-- Bindings of nothing. -/
def noBindings : Bindings (StateM Unit) := ⟨fun _ ↦ pure none, fun _ ↦ pure none⟩

/-- A library that refers back to the one that brought it along is resolved once more to the same. -/
theorem cyclic_libraries_settle :
    ConcreteBuildpath cyclicContext.location cyclicRaw ∧
      cyclicContext.FollowsManifests cyclicLibraries ∧ cyclicContext.Agree cyclicContext ∧
      ((resolve noBindings cyclicContext
          ((resolve noBindings cyclicContext cyclicRaw).run ()).1.result.entries).run ()).1.result.entries =
        ((resolve noBindings cyclicContext cyclicRaw).run ()).1.result.entries ∧
      ((resolve noBindings cyclicContext
          ((resolve noBindings cyclicContext cyclicRaw).run ()).1.result.entries).run ()).1.result.isOk := by
  have hlocation : cyclicContext.location = some (Path.parse "/workspace/p") := by decide +kernel
  have hraw : ConcreteBuildpath cyclicContext.location cyclicRaw := by
    refine ⟨⟨_, hlocation, Path.canonical_parse _, by decide +kernel⟩, ?_, ?_, by decide +kernel,
      by decide +kernel⟩
    · exact List.forall_mem_cons.mpr ⟨.inl rfl, List.forall_mem_singleton.mpr (.inr (.inl rfl))⟩
    · exact List.forall_mem_cons.mpr
        ⟨Path.canonical_parse "/ext/c", List.forall_mem_singleton.mpr (Path.canonical_parse "../../ext/a")⟩
  have hc : cyclicContext.FollowsManifests cyclicLibraries := ⟨rfl, rfl⟩
  have hagree : cyclicContext.Agree cyclicContext := ⟨rfl, rfl, rfl, rfl, rfl⟩
  exact ⟨hraw, hc, hagree, resolve_concrete_again hraw hc hagree noBindings noBindings () ()⟩

/-- The second library comes before the first one, and the third one gave way to the source folder. -/
example : ((resolve noBindings cyclicContext cyclicRaw).run ()).1.result.entries.map Entry.path =
    [Path.parse "/ext/c", Path.parse "/ext/b", Path.parse "/ext/a"] := by
  decide +kernel

end Buildpath
