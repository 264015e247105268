import Buildpath.Model.Change
import Mathlib.Data.List.Nodup

/-!
# Indexing

A path is covered if it has an index or a job that waits to build one. What the requests for a change do
to a path is told exactly (`covers_indexRequests`). They keep every root of the new buildpath covered
if they are careful: no root that stays loses its job, and none is taken for another one (`Careful`).
-/

namespace Buildpath

variable {path : Path}

/-! ### Requests -/

namespace IndexRequest

/-- Whether a request asks for an index of a path. -/
def Asks (path : Path) : IndexRequest → Prop
  | .indexFragment _ p | .indexLibrary _ p => p = path
  | .removeSourceFolder .. | .removeIndex _ | .discardJobs _ => False

/-- Whether a request takes away the index of a path. -/
def Unindexes (path : Path) : IndexRequest → Prop
  | .removeSourceFolder _ p | .removeIndex p => p = path
  | .indexFragment .. | .indexLibrary .. | .discardJobs _ => False

/-- Whether a request takes away the job of a path. -/
def Cancels (path : Path) : IndexRequest → Prop
  | .removeSourceFolder _ p => p = path
  | .discardJobs p => p.isPrefixOf path
  | .indexFragment .. | .indexLibrary .. | .removeIndex _ => False

end IndexRequest

open IndexRequest

namespace Indexer

/-- Whether a path has an index, or a job that waits to build one. -/
def Covers (i : Indexer) (path : Path) : Prop := path ∈ i.indexed ∨ path ∈ i.pending

theorem mem_indexed_handle (i : Indexer) (r : IndexRequest) :
    path ∈ (i.handle r).indexed ↔ path ∈ i.indexed ∧ ¬ r.Unindexes path := by
  cases r with
  | indexFragment | indexLibrary =>
    unfold handle
    dsimp only
    split <;> simp [Unindexes]
  | removeSourceFolder _ p | removeIndex p =>
    change path ∈ i.indexed.filter (· ≠ p) ↔ path ∈ i.indexed ∧ ¬ p = path
    rw [List.mem_filter, decide_eq_true_iff, ne_comm]
  | discardJobs => exact (and_iff_left id).symm

theorem mem_pending_handle (i : Indexer) (r : IndexRequest) :
    path ∈ (i.handle r).pending ↔
      path ∈ i.pending ∧ ¬ r.Cancels path ∨ r.Asks path ∧ path ∉ i.indexed := by
  cases r with
  | indexFragment _ p | indexLibrary _ p =>
    unfold handle
    dsimp only
    split
    · next h =>
      refine ⟨fun hpath ↦ .inl ⟨hpath, id⟩, ?_⟩
      rintro (⟨hpath, -⟩ | ⟨rfl, hnew⟩)
      · exact hpath
      · exact absurd h hnew
    · next h =>
      rw [List.mem_insert_iff]
      constructor
      · rintro (rfl | hpath)
        · exact .inr ⟨rfl, h⟩
        · exact .inl ⟨hpath, id⟩
      · rintro (⟨hpath, -⟩ | ⟨rfl, -⟩)
        · exact .inr hpath
        · exact .inl rfl
  | removeSourceFolder _ p =>
    change path ∈ i.pending.filter (· ≠ p) ↔ path ∈ i.pending ∧ ¬ p = path ∨ False ∧ _
    rw [List.mem_filter, decide_eq_true_iff, ne_comm, false_and, or_false]
  | removeIndex =>
    change path ∈ i.pending ↔ path ∈ i.pending ∧ ¬ False ∨ False ∧ _
    rw [not_false_iff, and_true, false_and, or_false]
  | discardJobs p =>
    change path ∈ i.pending.filter (fun q ↦ !p.isPrefixOf q) ↔
      path ∈ i.pending ∧ ¬ p.isPrefixOf path ∨ False ∧ _
    rw [List.mem_filter, Bool.not_eq_true', Bool.not_eq_true, false_and, or_false]

/-- A path keeps its index through requests that do not take it away. -/
theorem mem_indexed_foldl (i : Indexer) (requests : List IndexRequest) :
    path ∈ (requests.foldl handle i).indexed ↔
      path ∈ i.indexed ∧ ∀ r ∈ requests, ¬ r.Unindexes path := by
  induction requests generalizing i with
  | nil => simp
  | cons r requests ih =>
    rw [List.foldl_cons, ih, mem_indexed_handle, List.forall_mem_cons, and_assoc]

/-- A path keeps its job through requests that neither take it away nor ask for it. -/
theorem mem_pending_foldl {requests : List IndexRequest} (h : ∀ r ∈ requests, ¬ r.Asks path)
    (i : Indexer) : path ∈ (requests.foldl handle i).pending ↔
      path ∈ i.pending ∧ ∀ r ∈ requests, ¬ r.Cancels path := by
  induction requests generalizing i with
  | nil => simp
  | cons r requests ih =>
    obtain ⟨hr, hrest⟩ := List.forall_mem_cons.mp h
    rw [List.foldl_cons, ih hrest, mem_pending_handle, List.forall_mem_cons]
    simp only [hr, false_and, or_false, and_assoc]

/-- Requests that take nothing away cover what they ask for. -/
theorem covers_foldl {requests : List IndexRequest}
    (h : ∀ r ∈ requests, ¬ r.Unindexes path ∧ ¬ r.Cancels path) (i : Indexer) :
    (requests.foldl handle i).Covers path ↔ (∃ r ∈ requests, r.Asks path) ∨ i.Covers path := by
  induction requests generalizing i with
  | nil => simp
  | cons r requests ih =>
    obtain ⟨⟨hindex, hjob⟩, hrest⟩ := List.forall_mem_cons.mp h
    rw [List.foldl_cons, ih hrest, Covers, Covers, mem_indexed_handle, mem_pending_handle]
    simp only [List.mem_cons, exists_eq_or_imp]
    grind

/-- Every path is covered as before when jobs are done. -/
theorem covers_runPending (i : Indexer) : i.runPending.Covers path ↔ i.Covers path := by
  have hinsert : ∀ pending indexed : List Path,
      path ∈ pending.foldl (fun paths p ↦ paths.insert p) indexed ↔ path ∈ indexed ∨ path ∈ pending := by
    intro pending
    induction pending with
    | nil => simp
    | cons p pending ih =>
      intro indexed
      rw [List.foldl_cons, ih, List.mem_insert_iff, List.mem_cons, or_assoc, or_left_comm]
  have hindexed : path ∈ i.runPending.indexed ↔ path ∈ i.indexed ∨ path ∈ i.pending :=
    hinsert i.pending i.indexed
  have hpending : path ∉ i.runPending.pending := List.not_mem_nil
  rw [Covers, hindexed, or_iff_left hpending]
  rfl

end Indexer

/-! ### Roots -/

namespace Entry

/-- Whether the path of an entry is indexed. -/
def IsIndexed (e : Entry) : Prop := e.kind = .source ∨ e.kind = .library

instance (e : Entry) : Decidable e.IsIndexed := inferInstanceAs (Decidable (_ ∨ _))

theorem IsIndexed.ne_project {e : Entry} (h : e.IsIndexed) : e.kind ≠ .project := by
  rcases h with h | h <;> rw [h] <;> exact nofun

/-- Whether no other entry has the root identity of an entry. -/
def Unmatched (others : List Entry) (e : Entry) : Prop := ∀ o ∈ others, o.rootId ≠ e.rootId

instance (others : List Entry) (e : Entry) : Decidable (e.Unmatched others) :=
  inferInstanceAs (Decidable (∀ o ∈ others, _))

/-- A root identity tells the tag of the kind and the text of the path. -/
theorem rootTag_eq_of_rootId {e e' : Entry} (h : e.rootId = e'.rootId) :
    rootTag e.kind = rootTag e'.kind ∧ e.path.toString = e'.path.toString := by
  have htag : ∀ kind, (rootTag kind).toList.length = 5 := by
    intro kind
    cases kind <;> rfl
  have hlists := congrArg String.toList h
  rw [rootId, rootId, String.toList_append, String.toList_append] at hlists
  obtain ⟨htags, hpaths⟩ := List.append_inj hlists ((htag _).trans (htag _).symm)
  exact ⟨String.toList_injective htags, String.toList_injective hpaths⟩

/-- The root identity of an entry that is indexed tells its kind. -/
theorem kind_eq_of_rootId {e e' : Entry} (h : e.rootId = e'.rootId) (he : e'.IsIndexed) :
    e.kind = e'.kind := by
  have htags := (rootTag_eq_of_rootId h).1
  revert htags he
  unfold IsIndexed
  cases e.kind <;> cases e'.kind <;> decide

/-- Only entries of projects have the root identity of a project. -/
theorem kind_eq_project_of_rootId {e e' : Entry} (h : e.rootId = e'.rootId) (he : e'.kind = .project) :
    e.kind = .project := by
  have htags := (rootTag_eq_of_rootId h).1
  rw [he] at htags
  revert htags
  cases e.kind <;> decide

/-- An entry that is indexed does not have the root identity of a project. -/
theorem IsIndexed.rootId_ne {e e' : Entry} (h : e.IsIndexed) (he : e'.kind = .project) :
    e.rootId ≠ e'.rootId :=
  fun hid ↦ h.ne_project (kind_eq_project_of_rootId hid he)

end Entry

theorem isNone_firstIndex? {others : List Entry} {e : Entry} :
    (firstIndex? others e.rootId).isNone ↔ e.Unmatched others := by
  rw [firstIndex?, Option.isNone_iff_eq_none, List.findIdx?_eq_none_iff]
  simp [Entry.Unmatched]

theorem rootIds_of_sameStructure {old new : List Entry} (h : sameStructure old new) :
    old.map Entry.rootId = new.map Entry.rootId := by
  induction old, new using sameStructure.induct with
  | case1 => rfl
  | case2 o old n new ih =>
    obtain ⟨hsame, hrest⟩ := (Bool.and_eq_true _ _).mp h
    simp only [Entry.sameStructure, Bool.and_eq_true, decide_eq_true_eq] at hsame
    rw [List.map_cons, List.map_cons, ih hrest, Entry.rootId, Entry.rootId, hsame.1.1.1.1.1,
      hsame.1.1.1.1.2]
  | case3 _ _ hnil hcons =>
    rw [sameStructure] at h
    · cases h
    · exact hnil
    · exact hcons

/-! ### The requests for a change -/

namespace ModelM

variable {m : Model} {g : GeneratedDelta} {old new : Issued}

theorem unindexes_requestsForOld {project : String} {o : Entry} :
    (∃ r ∈ requestsForOld m project o, r.Unindexes path) ↔
      o.path = path ∧ (o.kind = .source ∨ o.kind = .library ∧ ¬ isLibraryShared m o.path project) := by
  unfold requestsForOld
  cases o.kind with
  | library =>
    dsimp only
    split
    · simp_all
    · simp_all [Unindexes]
  | source => simp [Unindexes]
  | project | variableRef | container => simp

theorem cancels_requestsForOld {project : String} {o : Entry} :
    (∃ r ∈ requestsForOld m project o, r.Cancels path) ↔
      o.kind = .source ∧ o.path = path ∨
        o.kind = .library ∧ o.path.isPrefixOf path ∧ ¬ isLibraryShared m o.path project := by
  unfold requestsForOld
  cases o.kind with
  | library =>
    dsimp only
    split
    · simp_all
    · simp_all [Cancels]
  | source => simp [Cancels]
  | project | variableRef | container => simp

theorem asks_requestsForNew {project : String} {old : List Entry} {n : Entry} :
    (∃ r ∈ requestsForNew project old n, r.Asks path) ↔
      n.path = path ∧ (n.kind = .source ∨ n.kind = .library ∧ ∀ o ∈ old, o.path ≠ path) := by
  unfold requestsForNew
  cases n.kind with
  | library =>
    dsimp only
    split
    · next hold =>
      obtain ⟨o, ho, hpath⟩ := List.any_eq_true.mp hold
      have hsame := of_decide_eq_true hpath
      simp only [List.not_mem_nil, false_and, exists_false, false_iff]
      rintro ⟨rfl, hkind | ⟨-, hnew⟩⟩
      · cases hkind
      · exact hnew o ho hsame
    · simp_all only [List.mem_singleton, exists_eq_left, Asks, reduceCtorEq, false_or, true_and]
      grind
  | source => simp [Asks]
  | project | variableRef | container => simp

/-- The requests for a change are about roots that are not on both buildpaths. -/
theorem indexRequests_eq (hold : g.old = some old) (hnew : g.new = some new) :
    indexRequests m g =
      (old.result.entries.filter fun e ↦ (firstIndex? new.result.entries e.rootId).isNone).flatMap
        (requestsForOld m g.project) ++
      (new.result.entries.filter fun e ↦ (firstIndex? old.result.entries e.rootId).isNone).flatMap
        (requestsForNew g.project old.result.entries) := by
  rw [indexRequests, hnew, hold]
  rfl

/-- There is nothing to request if the roots stay. -/
theorem indexRequests_of_sameStructure (hold : g.old = some old) (hnew : g.new = some new)
    (h : sameStructure old.result.entries new.result.entries) : indexRequests m g = [] := by
  have hroots := rootIds_of_sameStructure h
  have hnone : ∀ es others : List Entry, es.map Entry.rootId = others.map Entry.rootId →
      (es.filter fun e ↦ (firstIndex? others e.rootId).isNone) = [] := by
    intro es others hroots
    rw [List.filter_eq_nil_iff]
    intro e he
    rw [isNone_firstIndex?]
    intro hunmatched
    obtain ⟨o, ho, hroot⟩ := List.mem_map.mp (hroots ▸ List.mem_map_of_mem he)
    exact hunmatched o ho hroot
  rw [indexRequests_eq hold hnew, hnone _ _ hroots, hnone _ _ hroots.symm]
  rfl

/-- A path is covered after the requests for a change exactly if they ask for it, or if it was covered
and they do not take away what it was covered by. -/
theorem covers_indexRequests (hold : g.old = some old) (hnew : g.new = some new) (i : Indexer) :
    ((indexRequests m g).foldl Indexer.handle i).Covers path ↔
      (∃ n ∈ new.result.entries, n.Unmatched old.result.entries ∧ n.path = path ∧
        (n.kind = .source ∨ n.kind = .library ∧ ∀ o ∈ old.result.entries, o.path ≠ path)) ∨
      (path ∈ i.indexed ∧ ∀ o ∈ old.result.entries, o.Unmatched new.result.entries →
        ¬ (o.path = path ∧ (o.kind = .source ∨ o.kind = .library ∧ ¬ isLibraryShared m o.path g.project))) ∨
      path ∈ i.pending ∧ ∀ o ∈ old.result.entries, o.Unmatched new.result.entries →
        ¬ (o.kind = .source ∧ o.path = path ∨
          o.kind = .library ∧ o.path.isPrefixOf path ∧ ¬ isLibraryShared m o.path g.project) := by
  have hremovals : ∀ P : IndexRequest → Prop,
      (∀ r ∈ (old.result.entries.filter fun e ↦
          (firstIndex? new.result.entries e.rootId).isNone).flatMap (requestsForOld m g.project), ¬ P r) ↔
        ∀ o ∈ old.result.entries, o.Unmatched new.result.entries →
          ¬ ∃ r ∈ requestsForOld m g.project o, P r := by
    intro P
    simp only [List.mem_flatMap, List.mem_filter, isNone_firstIndex?]
    grind
  have hadditions : (∃ r ∈ (new.result.entries.filter fun e ↦
          (firstIndex? old.result.entries e.rootId).isNone).flatMap
        (requestsForNew g.project old.result.entries), r.Asks path) ↔
      ∃ n ∈ new.result.entries, n.Unmatched old.result.entries ∧
        ∃ r ∈ requestsForNew g.project old.result.entries n, r.Asks path := by
    simp only [List.mem_flatMap, List.mem_filter, isNone_firstIndex?]
    grind
  rw [indexRequests_eq hold hnew, List.foldl_append, Indexer.covers_foldl, Indexer.Covers, Indexer.mem_indexed_foldl,
    Indexer.mem_pending_foldl, hremovals, hremovals, hadditions]
  · simp only [asks_requestsForNew, unindexes_requestsForOld, cancels_requestsForOld]
  · intro r hr
    obtain ⟨o, -, hr⟩ := List.mem_flatMap.mp hr
    unfold requestsForOld at hr
    cases ho : o.kind <;> grind [Asks]
  · intro r hr
    obtain ⟨n, -, hr⟩ := List.mem_flatMap.mp hr
    unfold requestsForNew at hr
    cases ho : n.kind <;> grind [Unindexes, Cancels]

end ModelM

/-! ### Careful changes -/

/-- Whether the requests for a change keep every root covered, while some paths have a job. -/
structure Careful (waiting : List Path) (old new : List Entry) : Prop where
  /-- A library that is removed does not stand above a root that stays and has a job. -/
  apart : ∀ o ∈ old, o.kind = .library → o.Unmatched new → ∀ n ∈ new, n.IsIndexed →
    ¬ n.Unmatched old → o.path.isPrefixOf n.path → n.path ∉ waiting
  /-- A library does not take the path of an entry of another kind. -/
  kinds : ∀ o ∈ old, ∀ n ∈ new, n.kind = .library → o.path = n.path → o.kind = .library
  /-- Entries with the same root identity have the same path. -/
  paths : ∀ o ∈ old, ∀ n ∈ new, n.IsIndexed → o.rootId = n.rootId → o.path = n.path

/-- Careful requests keep the roots of a buildpath covered. -/
theorem Careful.covers {m : Model} {g : GeneratedDelta} {old new : Issued} {i : Indexer}
    (h : Careful i.pending old.result.entries new.result.entries) (hold : g.old = some old)
    (hnew : g.new = some new) (hdistinct : (old.result.entries.map Entry.path).Nodup)
    (hcovers : ∀ o ∈ old.result.entries, o.IsIndexed → i.Covers o.path) :
    ∀ n ∈ new.result.entries, n.IsIndexed →
      ((ModelM.indexRequests m g).foldl Indexer.handle i).Covers n.path := by
  intro n hn hindexed
  rw [ModelM.covers_indexRequests hold hnew]
  by_cases hunmatched : n.Unmatched old.result.entries
  · -- an index is asked for
    refine .inl ⟨n, hn, hunmatched, rfl, hindexed.imp_right fun hlibrary ↦
      ⟨hlibrary, fun o ho hpath ↦ hunmatched o ho ?_⟩⟩
    rw [Entry.rootId, Entry.rootId, hpath, h.kinds o ho n hn hlibrary hpath, hlibrary]
  · -- the root was there before, so nothing at its path is removed
    obtain ⟨o, ho, hroot⟩ : ∃ o ∈ old.result.entries, o.rootId = n.rootId := by
      simpa [Entry.Unmatched] using hunmatched
    have hpath := h.paths o ho n hn hindexed hroot
    have hsame : ∀ o' ∈ old.result.entries, o'.path = n.path →
        ¬ o'.Unmatched new.result.entries := by
      intro o' ho' hpath' hgone
      have heq : o' = o := List.inj_on_of_nodup_map hdistinct ho' ho (hpath'.trans hpath.symm)
      exact hgone n hn (heq ▸ hroot.symm)
    have hkind := Entry.kind_eq_of_rootId hroot hindexed
    rcases hcovers o ho (by rwa [Entry.IsIndexed, hkind]) with hin | hin
    · exact .inr (.inl ⟨hpath ▸ hin, fun o' ho' hgone hlost ↦ hsame o' ho' hlost.1 hgone⟩)
    · refine .inr (.inr ⟨hpath ▸ hin, fun o' ho' hgone hlost ↦ ?_⟩)
      rcases hlost with ⟨-, hpath'⟩ | ⟨hlibrary, hprefix, -⟩
      · exact hsame o' ho' hpath' hgone
      · exact h.apart o' ho' hlibrary hgone n hn hindexed hunmatched hprefix (hpath ▸ hin)

end Buildpath
