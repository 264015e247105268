import Buildpath.Proofs.Resource.Places
import Mathlib.Data.List.Nodup
import Mathlib.Data.List.Perm.Subperm
import Mathlib.Logic.Relation

/-!
# Chained libraries

The libraries chained from a library are those that its references lead to, over any number of libraries
that exist (`Workspace.mem_chainedLibraries_iff`). The walk over them is bounded, and the bound suffices
where a library leads to few paths (`Workspace.LeadsToFew`): each step down finds a path that was not found
before. An absolute library leads to absolute paths on its device, of which resources have few.
-/

namespace Buildpath

/-- An absolute path in normal form. -/
structure Path.Grounded (p : Path) : Prop where
  canonical : p.Canonical
  absolute : p.absolute = true

/-- What is left of a path in normal form without its last segments is in normal form. -/
theorem Path.canonical_dropLast {p : Path} (hp : p.Canonical) (count : Nat) : (p.dropLast count).Canonical := by
  obtain ⟨ups, names, hsegments, hups, hnames⟩ := hp
  refine ⟨min (p.segments.length - count) ups, names.take (p.segments.length - count - ups), ?_,
    fun habsolute ↦ ?_, fun name hname ↦ hnames name (List.mem_of_mem_take hname)⟩
  · change p.segments.take (p.segments.length - count) = _
    generalize p.segments.length - count = kept
    rw [hsegments, List.take_append, List.take_replicate, List.length_replicate]
  · rw [hups habsolute, Nat.min_zero]

/-- The folder of a path in normal form is in normal form. -/
theorem Path.canonical_parent {p q : Path} (hp : p.Canonical) (hq : p.parent? = some q) : q.Canonical := by
  unfold parent? at hq
  split at hq
  · cases hq
  · exact Option.some.inj hq ▸ canonical_dropLast hp 1

namespace Path.Grounded

variable {p q : Path}

/-- What is taken from an absolute folder is absolute. -/
theorem append (hp : p.Grounded) (hq : q.Canonical) : (p.append q).Grounded :=
  ⟨canonical_append hp.canonical hq, hp.absolute⟩

theorem startsWithParent (hp : p.Grounded) : p.startsWithParent = false := by
  rw [Path.startsWithParent, decide_eq_false_iff_not]
  intro hfirst
  exact (ordinary_of_absolute hp.canonical hp.absolute _ (List.mem_of_mem_head? hfirst)).2.2.1 rfl

end Path.Grounded

namespace Workspace

variable {w : Workspace} {external : Bool} {library target start : Path}

/-- Whether a library refers to another path that leads to a resource. -/
def Refers (w : Workspace) (external : Bool) (library target : Path) : Prop :=
  target ∈ w.libraryReferences external library ∧ (w.kindOn? external target).isSome

/-- A library that refers to anything is there, below a folder, and its references start there. -/
theorem exists_folder_of_reference (h : target ∈ w.libraryReferences external library) :
    (w.kindOn? external library).isSome ∧
      ∃ folder text, library.parent? = some folder ∧ target = folder.appendText text := by
  unfold libraryReferences at h
  split at h
  · next value folder hvalue hfolder =>
    obtain ⟨word, -, rfl⟩ := List.mem_map.mp h
    refine ⟨?_, folder, word, hfolder, rfl⟩
    obtain ⟨manifest, hmanifest, -⟩ := Option.bind_eq_some_iff.mp hvalue
    obtain ⟨kind, hkind, -⟩ := Option.bind_eq_some_iff.mp hmanifest
    exact Option.isSome_of_eq_some hkind
  · cases h

/-- The references of a library are in normal form, with its device, and relative if it is. -/
theorem shape_reference (hl : library.Canonical) (h : target ∈ w.libraryReferences external library) :
    target.Canonical ∧ target.device = library.device ∧ target.absolute = library.absolute := by
  obtain ⟨-, folder, text, hfolder, rfl⟩ := exists_folder_of_reference h
  refine ⟨Path.canonical_append (Path.canonical_parent hl hfolder) (Path.canonical_parse text), ?_⟩
  unfold Path.parent? at hfolder
  split at hfolder
  · cases hfolder
  · rw [← Option.some.inj hfolder]
    exact ⟨rfl, rfl⟩

/-- What a library refers to, over any number of libraries, has its shape, and is there. -/
theorem shape_of_refers (hl : library.Canonical)
    (h : Relation.TransGen (w.Refers external) library target) :
    target.Canonical ∧ target.device = library.device ∧ target.absolute = library.absolute ∧
      (w.kindOn? external target).isSome := by
  induction h with
  | single h =>
    obtain ⟨hcanonical, hdevice, habsolute⟩ := shape_reference hl h.1
    exact ⟨hcanonical, hdevice, habsolute, h.2⟩
  | tail _ h ih =>
    obtain ⟨hcanonical, hdevice, habsolute⟩ := shape_reference ih.1 h.1
    exact ⟨hcanonical, hdevice.trans ih.2.1, habsolute.trans ih.2.2.1, h.2⟩

/-- What an absolute library refers to, over any number of libraries, is absolute on its device. -/
theorem grounded_of_refers (hl : library.Grounded)
    (h : Relation.TransGen (w.Refers external) library target) :
    target.Grounded ∧ target.device = library.device ∧ (w.kindOn? external target).isSome := by
  obtain ⟨hcanonical, hdevice, habsolute, hkind⟩ := shape_of_refers hl.canonical h
  exact ⟨⟨hcanonical, habsolute.trans hl.absolute⟩, hdevice, hkind⟩

/-! ### The walk -/

/-- What holds of a walk that started from a library and finds paths of a list. -/
structure ChainWalk.Sound (w : Workspace) (external : Bool) (start : Path) (paths : List Path)
    (walk : ChainWalk) : Prop where
  nodup : (start :: walk.found.map ChainedLibrary.path).Nodup
  within : ∀ p ∈ start :: walk.found.map ChainedLibrary.path, p ∈ paths ∧ p ∈ walk.visited
  found : ∀ p ∈ walk.visited, (w.kindOn? external p).isSome →
    p ∈ start :: walk.found.map ChainedLibrary.path
  reached : ∀ c ∈ walk.found, c.external = external ∧ Relation.TransGen (w.Refers external) start c.path

/-- What a part of a walk adds to it: the references of all that it meets are met. -/
structure ChainWalk.Follows (w : Workspace) (external : Bool) (walk walk' : ChainWalk) : Prop where
  visited : walk.visited ⊆ walk'.visited
  found : walk.found.length ≤ walk'.found.length
  closed : ∀ p ∈ walk'.visited, p ∉ walk.visited → (w.kindOn? external p).isSome →
    w.libraryReferences external p ⊆ walk'.visited

namespace ChainWalk

variable {walk walk' walk'' : ChainWalk} {paths : List Path}

theorem Follows.refl (w : Workspace) (external : Bool) (walk : ChainWalk) : walk.Follows w external walk :=
  ⟨List.Subset.refl _, Nat.le_refl _, fun _ hp hnot ↦ absurd hp hnot⟩

theorem Follows.trans (h : walk.Follows w external walk') (h' : walk'.Follows w external walk'') :
    walk.Follows w external walk'' := by
  refine ⟨List.Subset.trans h.visited h'.visited, Nat.le_trans h.found h'.found, fun p hp hnot hkind ↦ ?_⟩
  by_cases hmiddle : p ∈ walk'.visited
  · exact List.Subset.trans (h.closed p hmiddle hnot hkind) h'.visited
  · exact h'.closed p hp hmiddle hkind

/-- A walk finds fewer paths than there are. -/
theorem Sound.found_lt (h : walk.Sound w external start paths) : walk.found.length < paths.length := by
  have hle := (List.subperm_of_subset h.nodup fun p hp ↦ (h.within p hp).1).length_le
  rwa [List.length_cons, List.length_map] at hle

/-- Meeting a path that leads nowhere. -/
theorem Sound.skip (h : walk.Sound w external start paths) (hkind : ¬ (w.kindOn? external target).isSome) :
    Sound w external start paths { walk with visited := target :: walk.visited } := by
  refine ⟨h.nodup, fun p hp ↦ ⟨(h.within p hp).1, List.mem_cons_of_mem _ (h.within p hp).2⟩,
    fun p hp hp' ↦ ?_, h.reached⟩
  rcases List.mem_cons.mp hp with rfl | hp
  · exact absurd hp' hkind
  · exact h.found p hp hp'

/-- Finding a path that was not met. -/
theorem Sound.find (h : walk.Sound w external start paths) (hnew : target ∉ walk.visited)
    (hmem : target ∈ paths) (hreached : Relation.TransGen (w.Refers external) start target) :
    Sound w external start paths
      { visited := target :: walk.visited, found := walk.found ++ [⟨target, external⟩] } := by
  have happend : start :: (walk.found ++ [ChainedLibrary.mk target external]).map ChainedLibrary.path =
      (start :: walk.found.map ChainedLibrary.path) ++ [target] := by
    rw [List.map_append, List.map_singleton, List.cons_append]
  have hfound : ∀ p, p ∈ start :: (walk.found ++ [ChainedLibrary.mk target external]).map ChainedLibrary.path ↔
      p ∈ start :: walk.found.map ChainedLibrary.path ∨ p = target := by
    intro p
    rw [happend, List.mem_append, List.mem_singleton]
  refine ⟨?_, fun p hp ↦ ?_, fun p hp hkind ↦ ?_, fun c hc ↦ ?_⟩
  · rw [happend, List.nodup_append]
    refine ⟨h.nodup, List.pairwise_singleton _ _, fun p hp p' hp' heq ↦ hnew ?_⟩
    rw [← List.mem_singleton.mp hp', ← heq]
    exact (h.within p hp).2
  · rcases (hfound p).mp hp with hp | rfl
    · exact ⟨(h.within p hp).1, List.mem_cons_of_mem _ (h.within p hp).2⟩
    · exact ⟨hmem, List.mem_cons_self⟩
  · rcases List.mem_cons.mp hp with rfl | hp
    · exact (hfound _).mpr (.inr rfl)
    · exact (hfound p).mpr (.inl (h.found p hp hkind))
  · rcases List.mem_append.mp hc with hc | hc
    · exact h.reached c hc
    · rw [List.mem_singleton.mp hc]
      exact ⟨rfl, hreached⟩

end ChainWalk

/-- What each step over some paths adds to a walk, all of them add, and other steps that do the same as
each of them do the same as all of them. -/
private theorem ChainWalk.follows_foldl {step step' : ChainWalk → Path → ChainWalk}
    {targets paths : List Path} {least : Nat}
    (h : ∀ target ∈ targets, ∀ walk : ChainWalk, walk.Sound w external start paths →
      least ≤ walk.found.length → (step walk target).Sound w external start paths ∧
        walk.Follows w external (step walk target) ∧ target ∈ (step walk target).visited ∧
        step' walk target = step walk target)
    (walk : ChainWalk) (hwalk : walk.Sound w external start paths) (hleast : least ≤ walk.found.length) :
    (targets.foldl step walk).Sound w external start paths ∧
      walk.Follows w external (targets.foldl step walk) ∧ targets ⊆ (targets.foldl step walk).visited ∧
      targets.foldl step' walk = targets.foldl step walk := by
  induction targets generalizing walk with
  | nil => exact ⟨hwalk, .refl w external walk, List.nil_subset _, rfl⟩
  | cons target targets ih =>
    obtain ⟨hfirst, hrest⟩ := List.forall_mem_cons.mp h
    obtain ⟨hsound, hfollows, hmet, hsame⟩ := hfirst walk hwalk hleast
    obtain ⟨hsound', hfollows', hmet', hsame'⟩ := ih hrest _ hsound (Nat.le_trans hleast hfollows.found)
    refine ⟨hsound', hfollows.trans hfollows', List.cons_subset.mpr ⟨hfollows'.visited hmet, hmet'⟩, ?_⟩
    rw [List.foldl_cons, hsame, hsame', List.foldl_cons]

/-- A walk that is deep enough meets all references of the library, and of all that it meets, and a deeper
one is the same. -/
theorem followReferences_follows {paths : List Path} {depth deeper : Nat} {walk : ChainWalk}
    (hpaths : ∀ path, Relation.TransGen (w.Refers external) start path → path ∈ paths)
    (hlibrary : Relation.ReflTransGen (w.Refers external) start library)
    (hwalk : walk.Sound w external start paths) (hdepth : paths.length - depth ≤ walk.found.length)
    (hdeeper : depth ≤ deeper) :
    (w.followReferences external depth library walk).Sound w external start paths ∧
      walk.Follows w external (w.followReferences external depth library walk) ∧
      w.libraryReferences external library ⊆ (w.followReferences external depth library walk).visited ∧
      w.followReferences external deeper library walk = w.followReferences external depth library walk := by
  induction depth generalizing library walk deeper with
  | zero =>
    -- the walk would have found more than there is
    have hlt := hwalk.found_lt
    omega
  | succ depth ih =>
    obtain ⟨deeper, rfl⟩ := Nat.exists_eq_add_one_of_ne_zero (Nat.ne_zero_of_lt hdeeper)
    rw [followReferences, followReferences]
    refine ChainWalk.follows_foldl (fun target htarget walk hwalk hdepth ↦ ?_) walk hwalk hdepth
    dsimp only
    by_cases hmet : target ∈ walk.visited
    · rw [if_pos hmet, if_pos hmet]
      exact ⟨hwalk, .refl w external walk, hmet, rfl⟩
    rw [if_neg hmet, if_neg hmet]
    have hvisited : walk.visited ⊆ target :: walk.visited := List.subset_cons_self _ _
    by_cases hkind : (w.kindOn? external target).isSome
    · rw [if_pos hkind, if_pos hkind]
      have hreached : Relation.TransGen (w.Refers external) start target := .tail' hlibrary ⟨htarget, hkind⟩
      obtain ⟨hsound, hfollows, hrefs, hsame⟩ := ih hreached.to_reflTransGen
        (hwalk.find hmet (hpaths target hreached) hreached) (by
          rw [List.length_append, List.length_singleton]
          omega) (Nat.le_of_succ_le_succ hdeeper)
      refine ⟨hsound, ⟨List.Subset.trans hvisited hfollows.visited, ?_, fun p hp hnot hpkind ↦ ?_⟩,
        hfollows.visited List.mem_cons_self, hsame⟩
      · have hlength := hfollows.found
        rw [List.length_append, List.length_singleton] at hlength
        omega
      · by_cases hpt : p = target
        · exact hpt ▸ hrefs
        · exact hfollows.closed p hp (List.not_mem_cons_of_ne_of_not_mem hpt hnot) hpkind
    · rw [if_neg hkind, if_neg hkind]
      refine ⟨hwalk.skip hkind, ⟨hvisited, Nat.le_refl _, fun p hp hnot hpkind ↦ ?_⟩, List.mem_cons_self, rfl⟩
      rcases List.mem_cons.mp hp with rfl | hp
      · exact absurd hpkind hkind
      · exact absurd hp hnot

/-- Whether a library leads to no more paths, itself included, than a walk is allowed to find. -/
def LeadsToFew (w : Workspace) (external : Bool) (library : Path) : Prop :=
  ∃ paths : List Path, paths.length ≤ w.pathBound + 1 ∧
    ∀ path, Relation.ReflTransGen (w.Refers external) library path → path ∈ paths

/-- What a library leads to is there if it has a reference, be it the library itself or another one. -/
private theorem isSome_of_leads (hnone : w.libraryReferences external library ≠ []) {path : Path}
    (h : Relation.ReflTransGen (w.Refers external) library path) : (w.kindOn? external path).isSome := by
  cases h with
  | refl =>
    obtain ⟨reference, hreference⟩ := List.exists_mem_of_ne_nil _ hnone
    exact (exists_folder_of_reference hreference).1
  | tail _ h => exact h.2

/-- A library leads to few paths if few paths that may lead to something have its shape. -/
theorem leadsToFew_of_paths {paths : List Path} (hl : library.Canonical)
    (hlength : paths.length ≤ w.pathBound + 1)
    (hpaths : ∀ path : Path, path.Canonical → path.device = library.device →
      path.absolute = library.absolute → (w.kindOn? external path).isSome → path ∈ paths) :
    w.LeadsToFew external library := by
  by_cases hnone : w.libraryReferences external library = []
  · -- without references the library leads to itself only
    refine ⟨[library], Nat.succ_le_succ (Nat.zero_le _), fun path hpath ↦ ?_⟩
    rcases hpath.cases_head with rfl | ⟨next, hnext, -⟩
    · exact List.mem_singleton_self _
    · exact absurd (hnone ▸ hnext.1) List.not_mem_nil
  · refine ⟨paths, hlength, fun path hpath ↦ ?_⟩
    have hkind := isSome_of_leads hnone hpath
    rcases Relation.reflTransGen_iff_eq_or_transGen.mp hpath with rfl | hreached
    · exact hpaths _ hl rfl rfl hkind
    · obtain ⟨hcanonical, hdevice, habsolute, -⟩ := shape_of_refers hl hreached
      exact hpaths path hcanonical hdevice habsolute hkind

/-- An absolute library leads to few paths. -/
theorem leadsToFew_of_absolute (hl : library.Grounded) : w.LeadsToFew external library := by
  obtain ⟨paths, hlength, hpaths⟩ := w.exists_paths external library.device
  have hroot : ((⟨library.device, true, []⟩ : Path) :: paths).length ≤ w.pathBound + 1 :=
    Nat.succ_le_succ hlength
  refine leadsToFew_of_paths hl.canonical hroot fun path hcanonical hdevice habsolute hkind ↦ ?_
  have habsolute := habsolute.trans hl.absolute
  by_cases hnil : path.segments = []
  · refine List.mem_cons.mpr (.inl ?_)
    rw [← hdevice, ← hnil, ← habsolute]
  · exact List.mem_cons_of_mem _ (hpaths path hcanonical habsolute hdevice hnil hkind)

/-- What a walk from a library starts with is sound. -/
private theorem ChainWalk.sound_start {paths : List Path} (h : library ∈ paths) :
    ChainWalk.Sound w external library paths { visited := [library] } :=
  ⟨List.nodup_singleton _, fun _ hp ↦ ⟨List.mem_singleton.mp hp ▸ h, hp⟩, fun _ hp _ ↦ hp, nofun⟩

/-- Where a library leads to few paths, all walks that are deep enough are one walk, which meets the
references of all that it meets. -/
private theorem exists_walk (h : w.LeadsToFew external library) : ∃ paths walk,
    (∀ depth, w.pathBound < depth →
      w.followReferences external depth library { visited := [library] } = walk) ∧
    walk.Sound w external library paths ∧
    ChainWalk.Follows w external { visited := [library] } walk ∧
    w.libraryReferences external library ⊆ walk.visited := by
  obtain ⟨paths, hlength, hpaths⟩ := h
  have hbound : paths.length - (w.pathBound + 1) ≤ 0 := Nat.le_of_eq (Nat.sub_eq_zero_of_le hlength)
  have hwalk := fun (deeper : Nat) (hdeeper : w.pathBound + 1 ≤ deeper) ↦ followReferences_follows
    (fun path hpath ↦ hpaths path hpath.to_reflTransGen) .refl
    (ChainWalk.sound_start (hpaths library .refl)) hbound hdeeper
  obtain ⟨hsound, hfollows, hrefs, -⟩ := hwalk _ (Nat.le_refl _)
  exact ⟨paths, _, fun deeper hdeeper ↦ (hwalk deeper hdeeper).2.2.2, hsound, hfollows, hrefs⟩

/-- Where a library leads to few paths, a deeper walk finds nothing else. -/
theorem found_followReferences (h : w.LeadsToFew external library) {depth : Nat}
    (hdepth : w.pathBound < depth) :
    (w.followReferences external depth library { visited := [library] }).found =
      w.chainedLibraries library external := by
  obtain ⟨paths, walk, hwalk, -⟩ := exists_walk h
  rw [chainedLibraries, hwalk depth hdepth, hwalk _ (Nat.lt_succ_self _)]

/-- Where a library leads to few paths, each path is chained from it once, and what is chained are the
libraries on its side that its references lead to, apart from itself. -/
theorem chainedLibraries_of_leadsToFew (h : w.LeadsToFew external library) :
    ((w.chainedLibraries library external).map ChainedLibrary.path).Nodup ∧
      ∀ c, c ∈ w.chainedLibraries library external ↔ c.external = external ∧ c.path ≠ library ∧
        Relation.TransGen (w.Refers external) library c.path := by
  obtain ⟨paths, walk, hwalk, hsound, hfollows, hrefs⟩ := exists_walk h
  rw [chainedLibraries, hwalk _ (Nat.lt_succ_self _)]
  obtain ⟨hself, hnodup⟩ := List.nodup_cons.mp hsound.nodup
  refine ⟨hnodup, fun c ↦ ⟨fun hc ↦ ?_, ?_⟩⟩
  · obtain ⟨hexternal, hreached⟩ := hsound.reached c hc
    exact ⟨hexternal, fun heq ↦ hself (List.mem_map.mpr ⟨c, hc, heq⟩), hreached⟩
  · rintro ⟨rfl, hne, hreached⟩
    have hkind : ∀ {path}, Relation.TransGen (w.Refers c.external) library path →
        (w.kindOn? c.external path).isSome := fun hpath ↦
      (Relation.TransGen.tail'_iff.mp hpath).elim fun _ hlast ↦ hlast.2.2
    -- all that is reached is met, since the references of all that is met are
    have hmet : ∀ path, Relation.TransGen (w.Refers c.external) library path → path ∈ walk.visited := by
      intro path hpath
      induction hpath with
      | single h => exact hrefs h.1
      | @tail p q hp h ih =>
        by_cases hpl : p = library
        · exact hrefs (hpl ▸ h.1)
        · exact hfollows.closed p ih (fun hmem ↦ hpl (List.mem_singleton.mp hmem)) (hkind hp) h.1
    rcases List.mem_cons.mp (hsound.found c.path (hmet _ hreached) (hkind hreached)) with heq | hfound
    · exact absurd heq hne
    · obtain ⟨c', hc', hpath⟩ := List.mem_map.mp hfound
      have hsame : c' = c := by
        obtain ⟨path, external⟩ := c
        obtain ⟨path', external'⟩ := c'
        exact congrArg₂ ChainedLibrary.mk hpath (hsound.reached _ hc').1
      exact hsame ▸ hc'

/-- The libraries chained from a library are those that its references lead to, on its side, apart from
itself. -/
theorem mem_chainedLibraries_iff (hl : library.Grounded) (c : ChainedLibrary) :
    c ∈ w.chainedLibraries library external ↔
      c.external = external ∧ c.path ≠ library ∧
        Relation.TransGen (w.Refers external) library c.path :=
  (chainedLibraries_of_leadsToFew (leadsToFew_of_absolute hl)).2 c

/-- What is chained from a chained library is chained from the library, or is the library itself. -/
theorem mem_chainedLibraries_trans (hl : library.Grounded) {c d : ChainedLibrary}
    (hc : c ∈ w.chainedLibraries library external) (hd : d ∈ w.chainedLibraries c.path c.external) :
    d.path = library ∨ d ∈ w.chainedLibraries library external := by
  obtain ⟨rfl, -, hreached⟩ := (mem_chainedLibraries_iff hl c).mp hc
  obtain ⟨hside, -, hreached'⟩ := (mem_chainedLibraries_iff (grounded_of_refers hl hreached).1 d).mp hd
  by_cases heq : d.path = library
  · exact .inl heq
  · exact .inr ((mem_chainedLibraries_iff hl d).mpr ⟨hside, heq, hreached.trans hreached'⟩)

end Workspace

end Buildpath
