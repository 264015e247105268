import Buildpath.Proofs.Path

/-!
# Joined paths

Canonical segments lead from every place where the parts that they were made of lead to
(`restack_foldl`). So paths can be joined in any grouping, as long as what is appended in between is
relative: an absolute path has no place above its root to come back from. A join that has as many segments
as its parts together is their concatenation (`canonicalSegments_eq_self`), so a path lies below another
one exactly if what is left of it without the first segments leads back to it
(`append_assoc_and_isPrefixOf_iff`).
-/

namespace Buildpath.Path

variable {absolute : Bool} {part : String} {stack base parts : List String} {p q : Path}

/-! ### Canonical segments as steps -/

/-- Where the segments of a stack lead from a base, taken one after the other as steps of
canonicalization. -/
def restack (absolute : Bool) (base stack : List String) : List String :=
  stack.foldr (fun segment below ↦ pushSegment absolute below segment) base

/-- A stack without parts that have no effect. -/
private def Effective (stack : List String) : Prop := ∀ segment ∈ stack, ¬ (segment = "" ∨ segment = ".")

private theorem effective_pushSegment (h : Effective stack) (part : String) :
    Effective (pushSegment absolute stack part) := by
  unfold pushSegment
  split
  · exact h
  next heffect =>
  split
  · split
    · split <;> simp [Effective, parentSegment]
    · next last rest =>
      have hrest : Effective rest := fun segment hs ↦ h segment (List.mem_cons_of_mem last hs)
      split
      · exact hrest
      · split
        · exact h
        · exact List.forall_mem_cons.mpr ⟨by decide, h⟩
  · exact List.forall_mem_cons.mpr ⟨heffect, h⟩

/-- One more part on a relative stack is one more step from the base. -/
private theorem restack_pushSegment (h : Effective stack) (part : String) :
    restack absolute base (pushSegment false stack part) =
      pushSegment absolute (restack absolute base stack) part := by
  by_cases heffect : part = "" ∨ part = "."
  · rw [pushSegment_skipped heffect, pushSegment_skipped heffect]
  by_cases hparent : part = parentSegment
  · subst hparent
    cases stack with
    | nil => rfl
    | cons last rest =>
      have hlast := h last List.mem_cons_self
      by_cases hname : last = parentSegment
      · -- `..` piles up, so it is a step of its own
        subst hname
        rfl
      · have hput : restack absolute base (last :: rest) = last :: restack absolute base rest :=
          pushSegment_name hlast hname
        rw [pushSegment_parent hname, hput, pushSegment_parent hname]
  · rw [pushSegment_name heffect hparent]
    rfl

/-- Relative segments lead from every base where the parts that they were made of lead to. -/
theorem restack_foldl (absolute : Bool) (base parts : List String) :
    restack absolute base (parts.foldl (pushSegment false) []) =
      parts.foldl (pushSegment absolute) base := by
  have steps : ∀ parts stack : List String, Effective stack →
      restack absolute base (parts.foldl (pushSegment false) stack) =
        parts.foldl (pushSegment absolute) (restack absolute base stack) := by
    intro parts
    induction parts with
    | nil => exact fun _ _ ↦ rfl
    | cons part parts ih =>
      intro stack h
      rw [List.foldl_cons, ih _ (effective_pushSegment h part), restack_pushSegment h, List.foldl_cons]
  exact steps parts [] nofun

/-- One more part on a stack that leads to itself. -/
private theorem restack_pushSegment_self (h : Effective stack) (hself : restack absolute [] stack = stack)
    (part : String) :
    restack absolute [] (pushSegment absolute stack part) = pushSegment absolute stack part := by
  by_cases heffect : part = "" ∨ part = "."
  · rwa [pushSegment_skipped heffect]
  by_cases hparent : part = parentSegment
  · subst hparent
    cases stack with
    | nil => cases absolute <;> rfl
    | cons last rest =>
      by_cases hname : last = parentSegment
      · subst hname
        cases absolute with
        | true => exact hself
        | false => exact congrArg (pushSegment false · parentSegment) hself
      · have hcons : last :: restack absolute [] rest = last :: rest :=
          (pushSegment_name (h last List.mem_cons_self) hname).symm.trans hself
        rw [pushSegment_parent hname]
        exact (List.cons.inj hcons).2
  · rw [pushSegment_name heffect hparent]
    have hpush : restack absolute [] (part :: stack) = pushSegment absolute stack part :=
      congrArg (pushSegment absolute · part) hself
    rw [hpush, pushSegment_name heffect hparent]

/-- From the start, the segments of a stack lead to the stack itself. -/
theorem restack_foldl_self (absolute : Bool) (parts : List String) :
    restack absolute [] (parts.foldl (pushSegment absolute) []) =
      parts.foldl (pushSegment absolute) [] := by
  have steps : ∀ parts stack : List String, Effective stack → restack absolute [] stack = stack →
      restack absolute [] (parts.foldl (pushSegment absolute) stack) =
        parts.foldl (pushSegment absolute) stack := by
    intro parts
    induction parts with
    | nil => exact fun _ _ h ↦ h
    | cons part parts ih =>
      intro stack h hself
      exact ih _ (effective_pushSegment h part) (restack_pushSegment_self h hself part)
  exact steps parts [] nofun rfl

theorem foldl_canonicalSegments (absolute : Bool) (base : List String) (isAbsolute : Bool)
    (parts : List String) :
    (canonicalSegments isAbsolute parts).foldl (pushSegment absolute) base =
      restack absolute base (parts.foldl (pushSegment isAbsolute) []) := by
  rw [canonicalSegments, List.foldl_reverse]
  rfl

/-- Appending one path after the other is appending what the second one makes of the first, unless that is
absolute. -/
theorem append_append (p : Path) {q : Path} (hq : q.absolute = false) (r : Path) :
    (p.append q).append r = p.append (q.append r) := by
  have hleft : canonicalSegments p.absolute
      (canonicalSegments p.absolute (p.segments ++ q.segments) ++ r.segments) =
        canonicalSegments p.absolute (p.segments ++ q.segments ++ r.segments) := by
    rw [canonicalSegments, List.foldl_append, foldl_canonicalSegments, restack_foldl_self,
      ← List.foldl_append]
    rfl
  have hright : canonicalSegments p.absolute
      (p.segments ++ canonicalSegments false (q.segments ++ r.segments)) =
        canonicalSegments p.absolute (p.segments ++ (q.segments ++ r.segments)) := by
    rw [canonicalSegments, List.foldl_append, foldl_canonicalSegments, restack_foldl,
      ← List.foldl_append]
    rfl
  simp only [append, hq]
  rw [hleft, hright, List.append_assoc]

/-! ### Joins that lose nothing -/

private theorem length_pushSegment_le (absolute : Bool) (stack : List String) (part : String) :
    (pushSegment absolute stack part).length ≤ stack.length + 1 := by
  unfold pushSegment
  split
  · exact Nat.le_succ _
  split
  · split
    · split <;> simp
    · split
      · simp only [List.length_cons]
        omega
      · split <;> simp
  · simp

/-- A step that makes the stack longer puts its part there. -/
private theorem pushSegment_eq_cons (h : stack.length < (pushSegment absolute stack part).length) :
    pushSegment absolute stack part = part :: stack := by
  by_cases heffect : part = "" ∨ part = "."
  · rw [pushSegment_skipped heffect] at h
    exact absurd h (Nat.lt_irrefl _)
  by_cases hparent : part = parentSegment
  · subst hparent
    cases stack with
    | nil => cases absolute with
      | true => exact absurd h (Nat.lt_irrefl 0)
      | false => rfl
    | cons last rest =>
      by_cases hname : last = parentSegment
      · subst hname
        cases absolute with
        | true => exact absurd h (Nat.lt_irrefl _)
        | false => rfl
      · rw [pushSegment_parent hname, List.length_cons] at h
        omega
  · exact pushSegment_name heffect hparent

private theorem length_foldl_pushSegment_le (absolute : Bool) (parts stack : List String) :
    (parts.foldl (pushSegment absolute) stack).length ≤ stack.length + parts.length := by
  induction parts generalizing stack with
  | nil => exact Nat.le_refl _
  | cons part parts ih =>
    have hstep := length_pushSegment_le absolute stack part
    have hrest := ih (pushSegment absolute stack part)
    rw [List.foldl_cons, List.length_cons]
    omega

/-- Canonicalization that leaves as many segments as there are parts changes nothing. -/
theorem canonicalSegments_eq_self (h : parts.length ≤ (canonicalSegments absolute parts).length) :
    canonicalSegments absolute parts = parts := by
  have full : ∀ parts stack : List String,
      stack.length + parts.length ≤ (parts.foldl (pushSegment absolute) stack).length →
        parts.foldl (pushSegment absolute) stack = parts.reverse ++ stack := by
    intro parts
    induction parts with
    | nil => exact fun _ _ ↦ rfl
    | cons part parts ih =>
      intro stack h
      rw [List.foldl_cons, List.length_cons] at h
      -- the parts that are left cannot make up for a step that did not make the stack longer
      have hrest := length_foldl_pushSegment_le absolute parts (pushSegment absolute stack part)
      have hcons : pushSegment absolute stack part = part :: stack :=
        pushSegment_eq_cons (by omega)
      rw [hcons] at h
      rw [List.foldl_cons, hcons, ih (part :: stack) (by rw [List.length_cons]; omega),
        List.reverse_cons, List.append_assoc, List.singleton_append]
  rw [canonicalSegments, List.length_reverse] at h
  rw [canonicalSegments, full parts [] (by rwa [List.length_nil, Nat.zero_add]), List.append_nil,
    List.reverse_reverse]

/-- What is left of a path without as many segments as a folder has leads back to it from the folder only
if it lies below. -/
theorem isPrefixOf_of_append_dropFirst (hp : p.Canonical) (hdevice : p.device = q.device)
    (habsolute : p.absolute = q.absolute) (h : p.append (q.dropFirst p.segmentCount) = q) :
    p.isPrefixOf q := by
  have hsegments : canonicalSegments p.absolute (p.segments ++ q.segments.drop p.segments.length) =
      q.segments := congrArg segments h
  refine isPrefixOf_iff.mpr ⟨hdevice, habsolute, ?_⟩
  rcases Nat.le_total p.segments.length q.segments.length with hle | hle
  · have hlength : (p.segments ++ q.segments.drop p.segments.length).length = q.segments.length := by
      rw [List.length_append, List.length_drop]
      omega
    rw [canonicalSegments_eq_self (by rw [hsegments, hlength])] at hsegments
    exact ⟨_, hsegments⟩
  · -- nothing is left to append
    rw [List.drop_eq_nil_of_le hle, List.append_nil, canonicalSegments_of_canonical hp] at hsegments
    exact hsegments ▸ List.prefix_refl _

/-- Joining is associative where what is appended in between is relative, and a path lies below another
one exactly if cutting it off and appending the rest gives the path again. -/
theorem append_assoc_and_isPrefixOf_iff :
    (∀ p q r : Path, q.absolute = false → (p.append q).append r = p.append (q.append r)) ∧
      ∀ p q : Path, p.Canonical → q.Canonical →
        (p.isPrefixOf q ↔ p.device = q.device ∧ p.absolute = q.absolute ∧
          p.append (q.dropFirst p.segmentCount) = q) := by
  refine ⟨fun p q r hq ↦ append_append p hq r, fun p q hp hq ↦ ⟨fun h ↦ ?_, ?_⟩⟩
  · obtain ⟨hdevice, habsolute, -⟩ := isPrefixOf_iff.mp h
    exact ⟨hdevice, habsolute, append_dropFirst hq h⟩
  · rintro ⟨hdevice, habsolute, h⟩
    exact isPrefixOf_of_append_dropFirst hp hdevice habsolute h

/-- Steps to the parent folder that pile up, and one that the root holds back, whatever the grouping; and a
folder that does not lead back to a path, since the rest of the path leaves it. -/
theorem append_assoc_and_isPrefixOf_iff_parents :
    ((parse "/p/src").append (parse "../../../lib")).append (parse "../../x") =
        (parse "/p/src").append ((parse "../../../lib").append (parse "../../x")) ∧
      (parse "/p").append ((parse "/p/src").dropFirst 1) = parse "/p/src" ∧
      (parse "lib").append ((parse "../../x").dropFirst 1) ≠ parse "../../x" := by
  obtain ⟨hassoc, hbelow⟩ := append_assoc_and_isPrefixOf_iff
  refine ⟨hassoc _ _ _ (by decide +kernel), ?_, fun h ↦ ?_⟩
  · exact ((hbelow (parse "/p") _ (canonical_parse _) (canonical_parse _)).mp (by decide +kernel)).2.2
  · have hout := (hbelow (parse "lib") (parse "../../x") (canonical_parse _) (canonical_parse _)).mpr
      ⟨by decide +kernel, by decide +kernel, h⟩
    exact absurd hout (by decide +kernel)

/-- An absolute path has its steps to the parent folder held back at its own root. -/
example : ((parse "/p/src").append (parse "/lib")).append (parse "../../x") ≠
    (parse "/p/src").append ((parse "/lib").append (parse "../../x")) := by
  decide +kernel

end Buildpath.Path
