import Buildpath.Scheduling

/-!
# Held rules

A guard that is dropped leaves the counts as they were before it was acquired, if none of them is zero.
-/

namespace Buildpath

theorem nodup_eraseDups {α : Type} [DecidableEq α] (as : List α) : as.eraseDups.Nodup := by
  cases as with
  | nil => exact List.nodup_nil
  | cons a as =>
    rw [List.eraseDups_cons]
    refine List.nodup_cons.mpr ⟨fun hmem ↦ ?_, nodup_eraseDups _⟩
    simpa using List.mem_eraseDups.mp hmem
termination_by as.length
decreasing_by exact Nat.lt_succ_of_le (List.length_filter_le _ as)

namespace HeldRules

variable {rule other : Rule} {counts : List (Rule × Nat)}

/-- Whether every rule that is listed is held. -/
def Positive (counts : List (Rule × Nat)) : Prop := ∀ x ∈ counts, 0 < x.2

theorem decrease_increase (h : Positive counts) :
    decrease rule (increase rule counts) = counts := by
  induction counts with
  | nil => simp [increase, decrease]
  | cons x counts ih =>
    obtain ⟨r, n⟩ := x
    have hn : 0 < n := h _ List.mem_cons_self
    rw [increase]
    split
    · next hr => simp [decrease, hr, Nat.ne_of_gt hn]
    · next hr => rw [decrease, if_neg hr, ih fun x hx ↦ h x (List.mem_cons_of_mem _ hx)]

theorem decrease_increase_of_ne (h : rule ≠ other) :
    decrease rule (increase other counts) = increase other (decrease rule counts) := by
  induction counts with
  | nil => simp [increase, decrease, h.symm]
  | cons x counts ih =>
    obtain ⟨r, n⟩ := x
    by_cases hr : r = rule
    · subst hr
      rw [increase, if_neg h, decrease, if_pos rfl, decrease, if_pos rfl]
      split
      · rfl
      · rw [increase, if_neg h]
    · by_cases ho : r = other
      · subst ho
        rw [increase, if_pos rfl, decrease, if_neg hr, decrease, if_neg hr, increase, if_pos rfl]
      · rw [increase, if_neg ho, decrease, if_neg hr, decrease, if_neg hr, increase, if_neg ho, ih]

private theorem decrease_foldl {rules : List Rule} (h : rule ∉ rules) :
    decrease rule (rules.foldl (fun counts rule ↦ increase rule counts) counts) =
      rules.foldl (fun counts rule ↦ increase rule counts) (decrease rule counts) := by
  induction rules generalizing counts with
  | nil => rfl
  | cons other rules ih =>
    obtain ⟨hne, hrest⟩ := not_or.mp (mt List.mem_cons.mpr h)
    rw [List.foldl_cons, List.foldl_cons, ih hrest, decrease_increase_of_ne hne]

private theorem foldl_decrease_increase {rules : List Rule} (hnodup : rules.Nodup) (h : Positive counts) :
    rules.foldl (fun counts rule ↦ decrease rule counts)
      (rules.foldl (fun counts rule ↦ increase rule counts) counts) = counts := by
  induction rules generalizing counts with
  | nil => rfl
  | cons rule rules ih =>
    obtain ⟨hrule, hrules⟩ := List.nodup_cons.mp hnodup
    rw [List.foldl_cons, List.foldl_cons, decrease_foldl hrule, decrease_increase h, ih hrules h]

/-- Rules that are acquired and released are held as often as before. -/
theorem release_acquire (held : HeldRules) (rules : List Rule) (h : Positive held.counts) :
    (held.acquire rules).2.release (held.acquire rules).1 = held :=
  congrArg HeldRules.mk (foldl_decrease_increase (nodup_eraseDups rules) h)

end HeldRules

end Buildpath
