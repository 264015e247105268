/-!
# Results that may be errors

How a sequence of steps that may fail comes to a result, and what a fold of such steps keeps.
-/

namespace Buildpath

variable {ε α β : Type}

/-- A sequence yields a value exactly if both parts do. -/
theorem bind_eq_ok {x : Except ε α} {f : α → Except ε β} {b : β} :
    x >>= f = .ok b ↔ ∃ a, x = .ok a ∧ f a = .ok b := by
  cases x with
  | error e => exact ⟨nofun, nofun⟩
  | ok a => exact ⟨fun h ↦ ⟨a, rfl, h⟩, fun ⟨a', ha, h⟩ ↦ Except.ok.inj ha ▸ h⟩

/-- A sequence fails if its first part does. -/
theorem bind_error (e : ε) (f : α → Except ε β) : (.error e : Except ε α) >>= f = .error e := rfl

theorem bind_ok (a : α) (f : α → Except ε β) : (.ok a : Except ε α) >>= f = f a := rfl

theorem map_eq_ok {x : Except ε α} {f : α → β} {b : β} :
    x.map f = .ok b ↔ ∃ a, x = .ok a ∧ f a = b := by
  cases x with
  | error e => exact ⟨nofun, nofun⟩
  | ok a => exact ⟨fun h ↦ ⟨a, rfl, Except.ok.inj h⟩, fun ⟨a', ha, h⟩ ↦ h ▸ Except.ok.inj ha ▸ rfl⟩

/-- A result is a given value, or some error if there is none. -/
def Yields (x : Except ε α) : Option α → Prop
  | some a => x = .ok a
  | none => ∃ e, x = .error e

/-- What every step keeps holds of the result of a fold; the invariant may mention the values that the
fold went through. -/
theorem foldlM_invariant {f : β → α → Except ε β} {I : List α → β → Prop} {as : List α} {b b' : β}
    {done : List α} (step : ∀ done, ∀ a ∈ as, ∀ b b', I done b → f b a = .ok b' → I (done ++ [a]) b')
    (hb : I done b) (h : as.foldlM f b = .ok b') : I (done ++ as) b' := by
  induction as generalizing b done with
  | nil =>
    obtain rfl := Except.ok.inj h
    rwa [List.append_nil]
  | cons a as ih =>
    obtain ⟨b₁, h₁, h₂⟩ := bind_eq_ok.mp h
    have hrest := ih (fun done a' ha' ↦ step done a' (List.mem_cons_of_mem a ha'))
      (step done a List.mem_cons_self b b₁ hb h₁) h₂
    rwa [List.append_assoc] at hrest

/-- What every step keeps holds of the result of a fold. -/
theorem foldlM_keeps {f : β → α → Except ε β} {I : β → Prop} {as : List α} {b b' : β}
    (step : ∀ a ∈ as, ∀ b b', I b → f b a = .ok b' → I b') (hb : I b)
    (h : as.foldlM f b = .ok b') : I b' :=
  @foldlM_invariant ε α β f (fun _ ↦ I) as b b' [] (fun _ a ha b b' ↦ step a ha b b') hb h

end Buildpath
