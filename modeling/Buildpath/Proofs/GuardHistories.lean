import Buildpath.Proofs.Scheduling
import Mathlib.Data.List.Induction
import Mathlib.Data.List.Nodup
import Mathlib.Data.List.Perm.Basic

/-!
# Guards that come and go

A thread acquires rules, however often it lists each, and drops its guards in whatever order it likes
(`GuardEvent`). A rule is counted once for each guard that lives and was acquired with it
(`Holdings.Exact`). So a guard that is dropped finds a count of at least one for each of its rules
(`HeldRules.Covers`), and nothing stays held once no guard lives.
-/

namespace Buildpath

namespace HeldRules

variable {rule other : Rule} {counts : List (Rule × Nat)} {rules : List Rule} {held : HeldRules}

/-! ### Counts -/

/-- Whether each rule that is held has one record, with a count that is not zero. -/
structure Orderly (counts : List (Rule × Nat)) : Prop where
  positive : Positive counts
  once : (counts.map Prod.fst).Nodup

theorem Orderly.of_cons {x : Rule × Nat} (h : Orderly (x :: counts)) : Orderly counts :=
  ⟨fun y hy ↦ h.positive y (List.mem_cons_of_mem _ hy), (List.nodup_cons.mp h.once).2⟩

theorem count_cons (r : Rule) (n : Nat) (counts : List (Rule × Nat)) (rule : Rule) :
    count ⟨(r, n) :: counts⟩ rule = if r = rule then n else count ⟨counts⟩ rule := by
  unfold count
  rw [List.lookup_cons]
  by_cases h : r = rule
  · simp [h]
  · rw [if_neg h, beq_false_of_ne (Ne.symm h)]

theorem count_eq_zero (h : rule ∉ counts.map Prod.fst) : count ⟨counts⟩ rule = 0 := by
  induction counts with
  | nil => rfl
  | cons x counts ih =>
    obtain ⟨hne, hrest⟩ := not_or.mp (mt List.mem_cons.mpr h)
    rw [count_cons, if_neg (Ne.symm hne), ih hrest]

/-- A rule is held if it is counted. -/
theorem isHeld_iff (h : Positive held.counts) : held.isHeld rule ↔ 0 < held.count rule := by
  obtain ⟨counts⟩ := held
  induction counts with
  | nil => simp [isHeld, count]
  | cons x counts ih =>
    obtain ⟨r, n⟩ := x
    have hn : 0 < n := h _ List.mem_cons_self
    have hrest := ih fun x hx ↦ h x (List.mem_cons_of_mem _ hx)
    rw [count_cons]
    by_cases hr : r = rule
    · simp [isHeld, hr, hn]
    · rw [if_neg hr, ← hrest]
      simp [isHeld, hr]

/-- Nothing is held if nothing is counted. -/
theorem counts_eq_nil (h : Positive held.counts) (hzero : ∀ rule, held.count rule = 0) :
    held.counts = [] := by
  obtain ⟨counts⟩ := held
  cases counts with
  | nil => rfl
  | cons x counts =>
    have hn : 0 < x.2 := h x List.mem_cons_self
    have hcount := hzero x.1
    rw [count_cons, if_pos rfl] at hcount
    omega

/-! ### One rule -/

theorem count_increase (rule other : Rule) (counts : List (Rule × Nat)) :
    count ⟨increase rule counts⟩ other = count ⟨counts⟩ other + if rule = other then 1 else 0 := by
  induction counts with
  | nil =>
    rw [increase, count_cons]
    split <;> rfl
  | cons x counts ih =>
    obtain ⟨r, n⟩ := x
    rw [increase]
    by_cases hr : r = rule
    · subst hr
      rw [if_pos rfl, count_cons, count_cons]
      split <;> rfl
    · rw [if_neg hr, count_cons, count_cons, ih]
      split
      · next ho => rw [if_neg fun h ↦ hr (ho.trans h.symm), Nat.add_zero]
      · rfl

/-- The record of a rule goes with its last guard, and there is no second one that would show then. -/
theorem count_decrease (h : Orderly counts) (rule other : Rule) :
    count ⟨decrease rule counts⟩ other = count ⟨counts⟩ other - if rule = other then 1 else 0 := by
  induction counts with
  | nil => rw [decrease, count, List.lookup_nil, Option.getD_none, Nat.zero_sub]
  | cons x counts ih =>
    obtain ⟨r, n⟩ := x
    have hfresh : r ∉ counts.map Prod.fst := (List.nodup_cons.mp h.once).1
    rw [decrease]
    by_cases hr : r = rule
    · subst hr
      rw [if_pos rfl, count_cons]
      split
      · next hlast =>
        split
        · next ho => rw [← ho, count_eq_zero hfresh, hlast]
        · rfl
      · rw [count_cons]
        split <;> rfl
    · rw [if_neg hr, count_cons, count_cons, ih h.of_cons]
      split
      · next ho => rw [if_neg fun h ↦ hr (ho.trans h.symm), Nat.sub_zero]
      · rfl

theorem Positive.increase (h : Positive counts) : Positive (increase rule counts) := by
  induction counts with
  | nil => simp [Positive, HeldRules.increase]
  | cons x counts ih =>
    obtain ⟨hx, hrest⟩ := List.forall_mem_cons.mp h
    rw [HeldRules.increase]
    split
    · exact List.forall_mem_cons.mpr ⟨Nat.succ_pos _, hrest⟩
    · exact List.forall_mem_cons.mpr ⟨hx, ih hrest⟩

theorem Positive.decrease (h : Positive counts) : Positive (decrease rule counts) := by
  induction counts with
  | nil => exact h
  | cons x counts ih =>
    obtain ⟨hx, hrest⟩ := List.forall_mem_cons.mp h
    rw [HeldRules.decrease]
    split
    · split
      · exact hrest
      · next hleft => exact List.forall_mem_cons.mpr ⟨Nat.pos_of_ne_zero hleft, hrest⟩
    · exact List.forall_mem_cons.mpr ⟨hx, ih hrest⟩

theorem mem_map_fst_increase (h : other ∈ (increase rule counts).map Prod.fst) :
    other = rule ∨ other ∈ counts.map Prod.fst := by
  induction counts with
  | nil => exact .inl (List.mem_singleton.mp h)
  | cons x counts ih =>
    obtain ⟨r, n⟩ := x
    rw [increase] at h
    split at h
    · exact .inr h
    · rcases List.mem_cons.mp h with h | h
      · exact .inr (h ▸ List.mem_cons_self)
      · exact (ih h).imp_right (List.mem_cons_of_mem r)

theorem map_fst_decrease (rule : Rule) (counts : List (Rule × Nat)) :
    ((decrease rule counts).map Prod.fst).Sublist (counts.map Prod.fst) := by
  induction counts with
  | nil => exact List.Sublist.refl _
  | cons x counts ih =>
    obtain ⟨r, n⟩ := x
    rw [decrease]
    split
    · split
      · exact List.sublist_cons_self _ _
      · exact List.Sublist.refl _
    · exact ih.cons_cons r

theorem Orderly.increase (h : Orderly counts) : Orderly (increase rule counts) := by
  refine ⟨h.positive.increase, ?_⟩
  induction counts with
  | nil => exact List.nodup_singleton rule
  | cons x counts ih =>
    obtain ⟨hfresh, hrest⟩ := List.nodup_cons.mp h.once
    rw [HeldRules.increase]
    split
    · exact h.once
    · next hr =>
      refine List.nodup_cons.mpr ⟨fun hmem ↦ ?_, ih h.of_cons⟩
      exact (mem_map_fst_increase hmem).elim hr hfresh

theorem Orderly.decrease (h : Orderly counts) : Orderly (decrease rule counts) :=
  ⟨h.positive.decrease, h.once.sublist (map_fst_decrease rule counts)⟩

/-! ### Lists of rules -/

/-- Whether rules can be given back one after the other: each is counted when its turn comes, so no count
falls below zero. -/
def Covers (held : HeldRules) : List Rule → Prop
  | [] => True
  | rule :: rules => 0 < held.count rule ∧ Covers ⟨decrease rule held.counts⟩ rules

theorem covers_of_count_le (h : Orderly held.counts)
    (hcount : ∀ rule, rules.count rule ≤ held.count rule) : held.Covers rules := by
  induction rules generalizing held with
  | nil => trivial
  | cons first rules ih =>
    refine ⟨?_, ih h.decrease fun rule ↦ ?_⟩
    · have hfirst := hcount first
      rw [List.count_cons_self] at hfirst
      omega
    · have hrule := hcount rule
      simp only [List.count_cons, beq_iff_eq] at hrule
      have hdecrease : count ⟨decrease first held.counts⟩ rule =
        held.count rule - if first = rule then 1 else 0 := count_decrease h first rule
      omega

theorem count_foldl_increase (rules : List Rule) (counts : List (Rule × Nat)) (rule : Rule) :
    count ⟨rules.foldl (fun counts rule ↦ increase rule counts) counts⟩ rule =
      count ⟨counts⟩ rule + rules.count rule := by
  induction rules generalizing counts with
  | nil => rfl
  | cons first rules ih =>
    simp only [List.foldl_cons, ih, count_increase, List.count_cons, beq_iff_eq]
    omega

theorem count_foldl_decrease (h : Orderly counts) (rules : List Rule) (rule : Rule) :
    count ⟨rules.foldl (fun counts rule ↦ decrease rule counts) counts⟩ rule =
      count ⟨counts⟩ rule - rules.count rule := by
  induction rules generalizing counts with
  | nil => rfl
  | cons first rules ih =>
    rw [List.foldl_cons, ih h.decrease, count_decrease h, List.count_cons]
    simp only [beq_iff_eq]
    omega

/-- A guard has a rule once, however often it was listed. -/
theorem count_eraseDups (rules : List Rule) (rule : Rule) :
    rules.eraseDups.count rule = if rule ∈ rules then 1 else 0 := by
  rw [List.Nodup.count (nodup_eraseDups rules)]
  simp only [List.mem_eraseDups]

theorem count_acquire (held : HeldRules) (rules : List Rule) (rule : Rule) :
    (held.acquire rules).2.count rule = held.count rule + if rule ∈ rules then 1 else 0 := by
  rw [← count_eraseDups]
  exact count_foldl_increase rules.eraseDups held.counts rule

theorem count_release (h : Orderly held.counts) (guard : Guard) (rule : Rule) :
    (held.release guard).count rule = held.count rule - guard.rules.count rule :=
  count_foldl_decrease h guard.rules rule

theorem Orderly.acquire (h : Orderly held.counts) (rules : List Rule) :
    Orderly (held.acquire rules).2.counts :=
  List.foldlRecOn rules.eraseDups _ h fun _ hc _ _ ↦ hc.increase

theorem Orderly.release (h : Orderly held.counts) (guard : Guard) : Orderly (held.release guard).counts :=
  List.foldlRecOn guard.rules _ h fun _ hc _ _ ↦ hc.decrease

end HeldRules

/-! ### Events -/

/-- What a thread does with rules. -/
inductive GuardEvent where
  /-- It acquires rules. -/
  | acquired (rules : List Rule)
  /-- It drops the guard at a place among those that live. -/
  | dropped (place : Nat)
deriving DecidableEq, Repr

/-- A guard that lives, with the list that it was acquired with. -/
structure LiveGuard where
  asked : List Rule
  guard : Guard
deriving DecidableEq

/-- The rules that are held, and the guards that live, the oldest one first. -/
structure Holdings where
  held : HeldRules := {}
  live : List LiveGuard := []

namespace Holdings

variable {s : Holdings} {g : LiveGuard} {place : Nat}

/-- What is held after an event. Only a guard that lives can be dropped. -/
def step (s : Holdings) : GuardEvent → Holdings
  | .acquired rules => ⟨(s.held.acquire rules).2, s.live ++ [⟨rules, (s.held.acquire rules).1⟩]⟩
  | .dropped place =>
    match s.live[place]? with
    | some g => ⟨s.held.release g.guard, s.live.eraseIdx place⟩
    | none => s

/-- What is held after events, where nothing was held before them. -/
def run (events : List GuardEvent) : Holdings := events.foldl step {}

/-- The number of guards that live and were acquired with a list that contains a rule. -/
def holders (s : Holdings) (rule : Rule) : Nat := s.live.countP (rule ∈ ·.asked)

/-- Whether rules are counted by the guards that live. -/
structure Exact (s : Holdings) : Prop where
  orderly : HeldRules.Orderly s.held.counts
  guards : ∀ g ∈ s.live, g.guard.rules = g.asked.eraseDups
  counts : ∀ rule, s.held.count rule = s.holders rule

/-! ### What an event keeps -/

theorem Exact.acquired (h : s.Exact) (rules : List Rule) : (s.step (.acquired rules)).Exact where
  orderly := h.orderly.acquire rules
  guards g hg := by
    rcases List.mem_append.mp hg with hg | hg
    · exact h.guards g hg
    · rw [List.mem_singleton.mp hg]
      rfl
  counts rule := by
    rw [step, HeldRules.count_acquire, h.counts, holders, holders, List.countP_append,
      List.countP_singleton]
    simp only [decide_eq_true_eq]

/-- A guard that is dropped no longer counts for its rules, wherever it was among those that live. -/
theorem holders_eraseIdx (hplace : s.live[place]? = some g) (held : HeldRules) (rule : Rule) :
    s.holders rule = holders ⟨held, s.live.eraseIdx place⟩ rule + if rule ∈ g.asked then 1 else 0 := by
  obtain ⟨hlt, hget⟩ := List.getElem?_eq_some_iff.mp hplace
  have hperm := List.getElem_cons_eraseIdx_perm hlt
  rw [hget] at hperm
  rw [holders, ← hperm.countP_eq, List.countP_cons, holders]
  simp only [decide_eq_true_eq]

theorem Exact.dropped (h : s.Exact) (place : Nat) : (s.step (.dropped place)).Exact := by
  unfold step
  dsimp only
  split
  · next g hplace =>
    have hguard := h.guards g (List.mem_of_getElem? hplace)
    refine ⟨h.orderly.release g.guard, fun g' hg' ↦ h.guards g' (List.mem_of_mem_eraseIdx hg'),
      fun rule ↦ ?_⟩
    rw [HeldRules.count_release h.orderly, hguard, HeldRules.count_eraseDups, h.counts,
      holders_eraseIdx hplace (s.held.release g.guard), Nat.add_sub_cancel]
  · exact h

theorem Exact.step (h : s.Exact) (event : GuardEvent) : (s.step event).Exact := by
  cases event with
  | acquired rules => exact h.acquired rules
  | dropped place => exact h.dropped place

/-- However guards came and went, rules are counted by those that live. -/
theorem exact_run (events : List GuardEvent) : (run events).Exact := by
  induction events using List.reverseRecOn with
  | nil => exact ⟨⟨nofun, List.nodup_nil⟩, nofun, fun _ ↦ rfl⟩
  | append_singleton events event ih =>
    rw [run, List.foldl_append]
    exact ih.step event

/-! ### What the counts tell -/

theorem Exact.isHeld_iff (h : s.Exact) (rule : Rule) :
    s.held.isHeld rule ↔ ∃ g ∈ s.live, rule ∈ g.asked := by
  rw [HeldRules.isHeld_iff h.orderly.positive, h.counts, holders, List.countP_pos_iff]
  simp only [decide_eq_true_eq]

theorem Exact.covers (h : s.Exact) (hg : g ∈ s.live) : s.held.Covers g.guard.rules := by
  refine HeldRules.covers_of_count_le h.orderly fun rule ↦ ?_
  rw [h.guards g hg, HeldRules.count_eraseDups, h.counts]
  split
  · next hrule => exact List.countP_pos_iff.mpr ⟨g, hg, decide_eq_true hrule⟩
  · exact Nat.zero_le _

theorem Exact.counts_eq_nil (h : s.Exact) (hlive : s.live = []) : s.held.counts = [] := by
  refine HeldRules.counts_eq_nil h.orderly.positive fun rule ↦ ?_
  rw [h.counts, holders, hlive, List.countP_nil]

/-- However a thread acquires rules and drops its guards, a rule is counted once for each guard that lives
and was acquired with a list that contains it, and it is held exactly if there is such a guard. Each guard
that lives can be dropped without a count that falls below zero, and nothing is held once no guard lives. -/
theorem rules_held_by_guards (events : List GuardEvent) :
    let s := run events
    (∀ rule, s.held.isHeld rule ↔ ∃ g ∈ s.live, rule ∈ g.asked) ∧
    (∀ rule, s.held.count rule = s.holders rule) ∧
    (∀ g ∈ s.live, s.held.Covers g.guard.rules) ∧
    (s.live = [] → s.held.counts = []) := by
  have h := exact_run events
  exact ⟨h.isHeld_iff, h.counts, fun _ ↦ h.covers, h.counts_eq_nil⟩

/-- Two guards for one rule, and the older one is dropped first: the rule stays held for the younger one, and
what only the older one held is free. Then the younger one is dropped, and nothing is held. -/
theorem older_guard_dropped_first :
    let p := Rule.project "p"
    let s := run [.acquired [p, .externalFolders, p], .acquired [p], .dropped 0]
    s.live = [⟨[p], ⟨[p]⟩⟩] ∧ s.held.isHeld p ∧ ¬ s.held.isHeld .externalFolders ∧ s.held.count p = 1 ∧
      s.held.Covers [p] ∧ (s.step (.dropped 0)).live = [] ∧ (s.step (.dropped 0)).held.counts = [] := by
  intro p s
  have hlive : s.live = [⟨[p], ⟨[p]⟩⟩] := by decide
  have hend : (s.step (.dropped 0)).live = [] := by decide
  obtain ⟨hheld, hcount, hcovers, -⟩ :=
    rules_held_by_guards [.acquired [p, .externalFolders, p], .acquired [p], .dropped 0]
  obtain ⟨-, -, -, hnothing⟩ :=
    rules_held_by_guards [.acquired [p, .externalFolders, p], .acquired [p], .dropped 0, .dropped 0]
  refine ⟨hlive, (hheld p).mpr (by decide), mt (hheld .externalFolders).mp (by decide), hcount p,
    hcovers _ (hlive ▸ List.mem_cons_self), hend, hnothing hend⟩

end Holdings

end Buildpath
