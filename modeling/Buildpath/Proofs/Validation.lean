import Buildpath.Proofs.Path
import Buildpath.Validation
import Mathlib.Data.List.Nodup

/-!
# Accepted buildpaths

Entries are checked one after the other, each against the paths before it, and source folders pair by
pair. What is accepted is said here without an order (`WellFormed`): every path is there once and is of
the form that its kind asks for, and of two source folders, one inside the other, the outer one has an
exclusion pattern for the inner one. So the order of the entries does not matter
(`validate_accepts_wellFormed`).
-/

namespace Buildpath

namespace Path

variable {p q : Path}

/-- Whether a path lies below another one. -/
def isAbove (p q : Path) : Bool := p.isPrefixOf q && p ≠ q

theorem isAbove_iff : p.isAbove q ↔
    p.device = q.device ∧ p.absolute = q.absolute ∧ ∃ more ≠ [], q.segments = p.segments ++ more := by
  obtain ⟨device, absolute, segments⟩ := p
  obtain ⟨device', absolute', segments'⟩ := q
  simp only [isAbove, isPrefixOf, Bool.and_eq_true, decide_eq_true_eq, List.isPrefixOf_iff_prefix,
    ne_eq, mk.injEq]
  constructor
  · rintro ⟨⟨⟨rfl, rfl⟩, more, rfl⟩, hne⟩
    refine ⟨rfl, rfl, more, ?_, rfl⟩
    rintro rfl
    exact hne ⟨rfl, rfl, (List.append_nil segments).symm⟩
  · rintro ⟨rfl, rfl, more, hmore, rfl⟩
    refine ⟨⟨⟨rfl, rfl⟩, more, rfl⟩, fun h ↦ hmore ?_⟩
    exact List.append_right_eq_self.mp h.2.2.symm

/-- A path is above another one if it has fewer segments. -/
theorem isAbove_iff_lt : p.isAbove q ↔ p.isPrefixOf q ∧ p.segmentCount < q.segmentCount := by
  rw [isAbove, Bool.and_eq_true, decide_eq_true_eq]
  refine and_congr_right fun h ↦ ⟨fun hne ↦ ?_, fun hlt heq ↦ Nat.ne_of_lt hlt (congrArg segmentCount heq)⟩
  exact Nat.lt_of_le_of_ne (segmentCount_le h) fun heq ↦ hne (eq_of_isPrefixOf h heq)

/-- A path is that of a folder or lies below it. -/
theorem isPrefixOf_iff_eq_or_isAbove : p.isPrefixOf q ↔ q = p ∨ p.isAbove q := by
  have hself : p.isPrefixOf p := by simp [isPrefixOf]
  rw [isAbove, Bool.and_eq_true, decide_eq_true_eq]
  constructor
  · intro h
    by_cases heq : p = q
    · exact .inl heq.symm
    · exact .inr ⟨h, heq⟩
  · rintro (rfl | h)
    · exact hself
    · exact h.1

theorem isEmpty_iff : p.isEmpty ↔ p = empty := by
  obtain ⟨device, absolute, segments⟩ := p
  simp [isEmpty, empty, and_comm, and_assoc, and_left_comm]

end Path

/-! ### What an entry hides -/

namespace Entry

variable {e outer inner : Entry} {path : Path} {isFolder : Bool}

/-- The text that the patterns of an entry are compared with. -/
def relativeText (e : Entry) (path : Path) : String :=
  (path.dropFirst e.path.segmentCount).toString

/-- Whether the inclusion patterns of an entry match a text. -/
def Names (e : Entry) (text : String) : Prop := matchesPattern e.inclusions text

/-- Whether the exclusion patterns of an entry match a text. -/
def Bars (e : Entry) (text : String) : Prop := matchesPattern e.exclusions text

theorem isExcluded_iff : e.isExcluded path isFolder ↔ e.path.isAbove path ∧
    (e.Bars (e.relativeText path) ∨
      isFolder = false ∧ e.inclusions ≠ [] ∧ ¬ e.Names (e.relativeText path)) := by
  unfold isExcluded Bars Names relativeText
  generalize (path.dropFirst e.path.segmentCount).toString = text
  have hbars : (!e.exclusions.isEmpty && matchesPattern e.exclusions text) =
      matchesPattern e.exclusions text := by
    cases e.exclusions with
    | nil => rfl
    | cons pattern patterns => rfl
  dsimp only
  rw [hbars]
  by_cases habove : e.path.isAbove path
  · have hbelow : (!e.path.isPrefixOf path || decide (e.path = path)) = false := by
      simpa [Path.isAbove] using habove
    simp [hbelow, habove, and_assoc]
  · have hbelow : (!e.path.isPrefixOf path || decide (e.path = path)) = true := by
      simpa [Path.isAbove, imp_iff_not_or] using habove
    simp [hbelow, habove]

/-- A folder is only hidden by exclusion patterns. -/
theorem isExcluded_folder_iff :
    e.isExcluded path true ↔ e.path.isAbove path ∧ e.Bars (e.relativeText path) := by
  simp [isExcluded_iff]

/-- A source folder inside another one. -/
def Nests (outer inner : Entry) : Prop :=
  outer.kind = .source ∧ inner.kind = .source ∧ outer.path.isAbove inner.path

/-- The paths that a kind of entry may have in a project. -/
def Placed (project : Path) (e : Entry) : Prop :=
  match e.kind with
  | .source => e.path.absolute ∧ (e.path = project ∨ project.isAbove e.path)
  | .project => e.path.absolute ∧ e.path.segments.length = 1 ∧ e.path ≠ project
  | .library | .variableRef | .container => e.path ≠ .empty

end Entry

/-! ### What is accepted -/

/-- What is asked of a buildpath, whatever the order of its entries. -/
structure WellFormed (project : Path) (raw : List Entry) : Prop where
  distinct : (raw.map Entry.path).Nodup
  placed : ∀ e ∈ raw, e.Placed project
  nested : ∀ outer ∈ raw, ∀ inner ∈ raw, outer.Nests inner →
    outer.Bars (outer.relativeText inner.path)

variable {project : Path} {raw raw' seen : List Entry}

theorem WellFormed.perm (h : WellFormed project raw) (hperm : raw.Perm raw') :
    WellFormed project raw' where
  distinct := (hperm.map Entry.path).nodup_iff.mp h.distinct
  placed e he := h.placed e (hperm.mem_iff.mpr he)
  nested outer ho inner hi := h.nested outer (hperm.mem_iff.mpr ho) inner (hperm.mem_iff.mpr hi)

theorem entryProblem?_eq_none_iff {e : Entry} : entryProblem? project e = none ↔ e.Placed project := by
  unfold entryProblem? Entry.Placed
  cases e.kind with
  | source => simp [← Path.isPrefixOf_iff_eq_or_isAbove]
  | project =>
    by_cases hname : e.path.absolute ∧ e.path.segments.length = 1
    · simp [Path.segmentCount, hname]
    · have hmisnamed : (!e.path.absolute || decide (e.path.segmentCount ≠ 1)) = true := by
        rw [Bool.or_eq_true, Bool.not_eq_true', decide_eq_true_eq, ← Bool.not_eq_true]
        exact Decidable.not_and_iff_or_not.mp hname
      dsimp only
      rw [if_pos hmisnamed]
      exact iff_of_false (Option.some_ne_none _) fun h ↦ hname ⟨h.1, h.2.1⟩
  | library => simp [← Path.isEmpty_iff]
  | variableRef => simp [← Path.isEmpty_iff]
  | container => simp [← Path.isEmpty_iff]

/-- The paths read so far only matter as a set, and what was read is among them from then on. -/
theorem listProblem?_eq_none_iff {seen : List Path} : listProblem? project seen raw = none ↔
    (raw.map Entry.path).Nodup ∧ (∀ e ∈ raw, e.path ∉ seen) ∧ ∀ e ∈ raw, e.Placed project := by
  induction raw generalizing seen with
  | nil => simp [listProblem?]
  | cons e es ih =>
    rw [listProblem?, List.map_cons, List.nodup_cons, List.forall_mem_cons, List.forall_mem_cons]
    by_cases hseen : e.path ∈ seen
    · simp [hseen]
    rw [if_neg hseen]
    cases hproblem : entryProblem? project e with
    | some problem =>
      have hplaced : ¬ e.Placed project := fun h ↦ by
        rw [entryProblem?_eq_none_iff.mpr h] at hproblem
        cases hproblem
      simp [hplaced]
    | none =>
      have hnew : (∀ e' ∈ es, e'.path ∉ e.path :: seen) ↔
          e.path ∉ es.map Entry.path ∧ ∀ e' ∈ es, e'.path ∉ seen := by
        simp only [List.mem_cons, not_or, List.mem_map, not_exists, not_and]
        exact ⟨fun h ↦ ⟨fun e' he' ↦ (h e' he').1, fun e' he' ↦ (h e' he').2⟩,
          fun h e' he' ↦ ⟨h.1 e' he', h.2 e' he'⟩⟩
      dsimp only
      rw [ih, hnew]
      have hplaced := entryProblem?_eq_none_iff.mp hproblem
      tauto

theorem nestingProblem?_eq_none_iff {outer inner : Entry} : nestingProblem? outer inner = none ↔
    (outer.path.isAbove inner.path → outer.Bars (outer.relativeText inner.path)) := by
  unfold nestingProblem?
  by_cases habove : outer.path.isAbove inner.path
  · have hapart : ¬ (outer.path = inner.path || !outer.path.isPrefixOf inner.path) := by
      simpa [Path.isAbove, and_comm] using habove
    rw [if_neg hapart]
    by_cases hbars : outer.Bars (outer.relativeText inner.path)
    · simp [Entry.isExcluded_folder_iff.mpr ⟨habove, hbars⟩, hbars]
    · have hshown : ¬ outer.isExcluded inner.path true := fun h ↦
        hbars (Entry.isExcluded_folder_iff.mp h).2
      simp [hshown, habove, hbars]
  · have hapart : (outer.path = inner.path || !outer.path.isPrefixOf inner.path) := by
      simpa [Path.isAbove, imp_iff_not_or, or_comm] using habove
    rw [if_pos hapart]
    simp [habove]

/-- The checks let pass what is well-formed, and nothing else. -/
theorem validate_eq_ok_iff : validate project raw = .ok () ↔ WellFormed project raw := by
  have hnested : ((raw.filter (·.kind = .source)).findSome? fun outer ↦
      (raw.filter (·.kind = .source)).findSome? fun inner ↦ nestingProblem? outer inner) = none ↔
        ∀ outer ∈ raw, ∀ inner ∈ raw, outer.Nests inner →
          outer.Bars (outer.relativeText inner.path) := by
    simp only [List.findSome?_eq_none_iff, nestingProblem?_eq_none_iff, List.mem_filter,
      decide_eq_true_eq, Entry.Nests]
    exact ⟨fun h outer ho inner hi hn ↦ h outer ⟨ho, hn.1⟩ inner ⟨hi, hn.2.1⟩ hn.2.2,
      fun h outer ho inner hi habove ↦ h outer ho.1 inner hi.1 ⟨ho.2, hi.2, habove⟩⟩
  have hproblem : problem? project raw = none ↔ WellFormed project raw := by
    unfold problem?
    cases hlist : listProblem? project [] raw with
    | some problem =>
      refine iff_of_false (Option.some_ne_none problem) fun h ↦ ?_
      rw [listProblem?_eq_none_iff.mpr ⟨h.distinct, fun _ _ ↦ List.not_mem_nil, h.placed⟩] at hlist
      cases hlist
    | none =>
      obtain ⟨hdistinct, -, hplaced⟩ := listProblem?_eq_none_iff.mp hlist
      exact hnested.trans ⟨fun h ↦ ⟨hdistinct, hplaced, h⟩, WellFormed.nested⟩
  rw [← hproblem, validate]
  cases problem? project raw with
  | some problem => simp
  | none => simp

/-- A buildpath is accepted exactly if it is well-formed, so it is accepted in every order of its entries
or in none. -/
theorem validate_accepts_wellFormed (project : Path) (raw : List Entry) :
    (validate project raw = .ok () ↔ WellFormed project raw) ∧
      ∀ raw', raw.Perm raw' → (validate project raw' = .ok () ↔ validate project raw = .ok ()) := by
  refine ⟨validate_eq_ok_iff, fun raw' hperm ↦ ?_⟩
  rw [validate_eq_ok_iff, validate_eq_ok_iff]
  exact ⟨fun h ↦ h.perm hperm.symm, fun h ↦ h.perm hperm⟩

/-- An inner source folder may come before the outer one that excludes it. -/
theorem validate_accepts_inner_first :
    let raw : List Entry :=
      [{ kind := .source, path := .parse "/p", exclusions := ["src/"] }, .source (.parse "/p/src"),
        .project (.parse "/q"), { kind := .container, path := .parse "X/x" }]
    validate (.parse "/p") raw = .ok () ∧ WellFormed (.parse "/p") raw ∧
      raw.Perm raw.reverse ∧ validate (.parse "/p") raw.reverse = .ok () := by
  intro raw
  have hvalid : validate (.parse "/p") raw = .ok () := by decide +kernel
  have hperm : raw.Perm raw.reverse := (List.reverse_perm raw).symm
  obtain ⟨hiff, horder⟩ := validate_accepts_wellFormed (.parse "/p") raw
  exact ⟨hvalid, hiff.mp hvalid, hperm, (horder raw.reverse hperm).mpr hvalid⟩

end Buildpath
