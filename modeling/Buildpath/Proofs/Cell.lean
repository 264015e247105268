import Buildpath.Cell

/-!
# Runs of a cell

Resolutions nest: several of them may have begun on one cell, and they are completed in any order,
after any number of changes. Along every run of calls the valid result is the one completed last for
the raw buildpath that the cell holds, and what was computed from a result is dropped with it.
-/

namespace Buildpath

/-- A call that may change a cell. -/
inductive CellCall where
  | storeRaw (raw : RawBuildpath) (stamp : Option Nat)
  | setRaw (entries : List Entry)
  | setStamp (stamp : Option Nat)
  | reset
  | begin (isResolving : Bool)
  | complete (generation : Nat) (result : Issued)
  | storeFragments (result : Issued) (fragments : List Fragment)
  | storeRoots (result : Issued) (roots : VisibleRoots)
  | clearRoots

namespace Cell

/-- A cell after a call. -/
def after (c : Cell) : CellCall → Cell
  | .storeRaw raw stamp => c.storeRaw raw stamp
  | .setRaw entries => c.setRaw entries
  | .setStamp stamp => c.setStamp stamp
  | .reset => c.invalidate
  | .begin isResolving => (c.begin isResolving).2
  | .complete generation result => c.complete generation result
  | .storeFragments result fragments => c.storeFragments result fragments
  | .storeRoots result roots => c.storeRoots result roots
  | .clearRoots => c.clearRoots

/-- Where no result counts, a resolution begins from the start, unless one is going on. -/
private theorem begin_of_stale {c : Cell} (h : ∀ i, c.issued? = some i → ¬ i.result.isOk)
    (isResolving : Bool) :
    c.begin isResolving = if isResolving then (.reentrant, c)
      else (.start c.generation c.raw c.last, match c.state with
        | .resolving _ => c
        | _ => { c with state := .resolving c.generation }) := by
  unfold begin
  cases hissued : c.issued? with
  | none => rfl
  | some i => exact if_neg (h i hissued)

/-- How a resolution begins: with a result that counts, with one of a project that is being resolved, or
from the start. -/
theorem begin_cases (c : Cell) (isResolving : Bool) :
    (∃ i, c.issued? = some i ∧ i.result.isOk ∧ c.begin isResolving = (.cached i, c)) ∨
      isResolving = true ∧ c.begin isResolving = (.reentrant, c) ∨
      isResolving = false ∧ (∀ i, c.issued? = some i → ¬ i.result.isOk) ∧
        ∃ generation, c.begin isResolving = (.start c.generation c.raw c.last,
          { c with state := .resolving generation }) := by
  by_cases hstale : ∀ i, c.issued? = some i → ¬ i.result.isOk
  · have hbegin := begin_of_stale hstale isResolving
    cases isResolving with
    | true => exact .inr (.inl ⟨rfl, hbegin⟩)
    | false =>
      refine .inr (.inr ⟨rfl, hstale, ?_⟩)
      rw [hbegin, if_neg Bool.false_ne_true]
      split
      · next generation h => exact ⟨generation, by rw [← h]⟩
      · exact ⟨_, rfl⟩
  · obtain ⟨i, hi, hok⟩ : ∃ i, c.issued? = some i ∧ i.result.isOk := by simpa using hstale
    refine .inl ⟨i, hi, hok, ?_⟩
    rw [begin, hi]
    exact if_pos hok

/-- A result that began in another generation is not kept. -/
theorem complete_of_ne {c : Cell} {generation : Nat} (h : c.generation ≠ generation)
    (result : Issued) : c.complete generation result = c := if_neg h

end Cell

/-! ### Steps -/

/-- A call with the cell that it found. -/
structure CellStep where
  before : Cell
  call : CellCall

namespace CellStep

variable {s : CellStep} {r : Issued}

/-- The cell after the step. -/
def after (s : CellStep) : Cell := s.before.after s.call

/-- Whether the step began a resolution, in a generation and with a raw buildpath. -/
def Begins (s : CellStep) (generation : Nat) (raw : Option RawBuildpath) : Prop :=
  ∃ isResolving last, s.call = .begin isResolving ∧
    (s.before.begin isResolving).1 = .start generation raw last

/-- Whether the step completed a resolution of the generation of the moment. -/
def Publishes (s : CellStep) (r : Issued) : Prop := s.call = .complete s.before.generation r

/-- Whether the step changed what resolutions start from: the raw buildpath was set, read for the first
time, or is to be resolved again. -/
def Invalidates (s : CellStep) : Prop :=
  match s.call with
  | .setRaw _ | .reset => True
  | .storeRaw .. => s.before.raw = none
  | _ => False

/-- Whether the step neither published a result nor invalidated one. -/
structure IsQuiet (s : CellStep) : Prop where
  unpublished : ∀ r, ¬ s.Publishes r
  valid : ¬ s.Invalidates

theorem begins_eq {generation : Nat} {raw : Option RawBuildpath} (h : s.Begins generation raw) :
    generation = s.before.generation ∧ raw = s.before.raw := by
  obtain ⟨isResolving, last, -, hb⟩ := h
  rcases s.before.begin_cases isResolving with ⟨i, -, -, he⟩ | ⟨-, he⟩ | ⟨-, -, g, he⟩
  · rw [he] at hb
    cases hb
  · rw [he] at hb
    cases hb
  · rw [he] at hb
    cases hb
    exact ⟨rfl, rfl⟩

/-- A step that invalidates drops all that was computed. -/
theorem after_of_invalidates (h : s.Invalidates) :
    s.after.generation = s.before.generation + 1 ∧ s.after.state = .unresolved ∧
      s.after.fragments = none ∧ s.after.roots = none := by
  obtain ⟨c, call⟩ := s
  cases call with
  | setRaw entries => exact ⟨rfl, rfl, rfl, rfl⟩
  | reset => exact ⟨rfl, rfl, rfl, rfl⟩
  | storeRaw raw stamp =>
    have hraw : c.raw = none := h
    rw [after, Cell.after, Cell.storeRaw, hraw]
    exact ⟨rfl, rfl, rfl, rfl⟩
  | setStamp | begin | complete | storeFragments | storeRoots | clearRoots => exact h.elim

/-- A result that is published is the valid one, and nothing was computed from it yet. -/
theorem after_of_publishes (h : s.Publishes r) :
    s.after = { s.before with
      state := .resolved r, last := some r, fragments := none, roots := none } := by
  rw [after, h]
  exact if_pos rfl

/-- What a quiet step can make of its cell. -/
inductive QuietChange (s : CellStep) : Cell → Prop where
  | stamped (stamp : Option Nat) : QuietChange s { s.before with stamp }
  | begun (generation : Nat) : QuietChange s { s.before with state := .resolving generation }
  | fragments {result : Issued} {fragments : List Fragment}
    (call : s.call = .storeFragments result fragments) (current : s.before.isCurrent result) :
    QuietChange s { s.before with fragments := some fragments }
  | roots {result : Issued} {roots : VisibleRoots}
    (call : s.call = .storeRoots result roots) (current : s.before.isCurrent result) :
    QuietChange s { s.before with roots := some roots }
  | cleared : QuietChange s { s.before with roots := none }

theorem quietChange_after (h : s.IsQuiet) : s.QuietChange s.after := by
  have same : s.QuietChange s.before := .stamped s.before.stamp
  obtain ⟨c, call⟩ := s
  cases call with
  | setRaw | reset => exact absurd trivial h.valid
  | storeRaw raw stamp =>
    obtain ⟨held, hraw⟩ := Option.ne_none_iff_exists'.mp (show c.raw ≠ none from h.valid)
    rw [after, Cell.after, Cell.storeRaw, hraw]
    exact same
  | setStamp stamp => exact .stamped stamp
  | begin isResolving =>
    rw [after, Cell.after]
    rcases c.begin_cases isResolving with ⟨i, -, -, he⟩ | ⟨-, he⟩ | ⟨-, -, generation, he⟩
    · rw [he]
      exact same
    · rw [he]
      exact same
    · rw [he]
      exact .begun generation
  | complete generation result =>
    have hne : c.generation ≠ generation := by
      rintro rfl
      exact h.unpublished result rfl
    rw [after, Cell.after, Cell.complete_of_ne hne]
    exact same
  | storeFragments result fragments =>
    rw [after, Cell.after, Cell.storeFragments]
    split
    · next hcurrent => exact .fragments rfl hcurrent
    · exact same
  | storeRoots result roots =>
    rw [after, Cell.after, Cell.storeRoots]
    split
    · next hcurrent => exact .roots rfl hcurrent
    · exact same
  | clearRoots => exact .cleared

/-- A step that invalidates nothing leaves the generation and the raw buildpath as they are. -/
theorem after_of_not_invalidates (h : ¬ s.Invalidates) :
    s.after.generation = s.before.generation ∧ s.after.raw = s.before.raw := by
  by_cases hp : ∃ r, s.Publishes r
  · obtain ⟨r, hr⟩ := hp
    rw [after_of_publishes hr]
    exact ⟨rfl, rfl⟩
  · have hchange := quietChange_after ⟨not_exists.mp hp, h⟩
    generalize s.after = c at hchange ⊢
    cases hchange <;> exact ⟨rfl, rfl⟩

/-- A valid result outlives quiet steps only; no quiet step gives a cell a result. -/
theorem issued?_of_isQuiet (h : s.IsQuiet) (hr : s.after.issued? = some r) :
    s.before.issued? = some r := by
  have hchange := quietChange_after h
  generalize s.after = c at hchange hr
  cases hchange with
  | begun generation => cases hr
  | stamped | fragments | roots | cleared => exact hr

/-- The fragments after a quiet step were there, or were stored for the valid result. -/
theorem fragments_of_isQuiet (h : s.IsQuiet) {fragments : List Fragment}
    (hf : s.after.fragments = some fragments) : s.before.fragments = some fragments ∨
      ∃ result, s.call = .storeFragments result fragments ∧ s.before.isCurrent result := by
  have hchange := quietChange_after h
  generalize s.after = c at hchange hf
  cases hchange with
  | fragments call current => exact .inr ⟨_, Option.some.inj hf ▸ call, current⟩
  | stamped | begun | roots | cleared => exact .inl hf

/-- The visible roots after a quiet step were there, or were stored for the valid result. -/
theorem roots_of_isQuiet (h : s.IsQuiet) {roots : VisibleRoots}
    (hv : s.after.roots = some roots) : s.before.roots = some roots ∨
      ∃ result, s.call = .storeRoots result roots ∧ s.before.isCurrent result := by
  have hchange := quietChange_after h
  generalize s.after = c at hchange hv
  cases hchange with
  | roots call current => exact .inr ⟨_, Option.some.inj hv ▸ call, current⟩
  | cleared => cases hv
  | stamped | begun | fragments => exact .inl hv

/-- A raw buildpath that was stored is replaced by setting another one only. -/
theorem raw_after {raw : RawBuildpath} (h : s.before.raw = some raw) :
    s.after.raw = some raw ∨ ∃ entries, s.call = .setRaw entries ∧
      s.after.raw = some { entries, foreign := raw.foreign } := by
  by_cases hi : s.Invalidates
  · obtain ⟨c, call⟩ := s
    have hraw : c.raw = some raw := h
    cases call with
    | setRaw entries =>
      refine .inr ⟨entries, rfl, ?_⟩
      rw [after, Cell.after, Cell.setRaw, hraw]
      rfl
    | reset => exact .inl h
    | storeRaw raw' stamp => exact absurd (hraw.symm.trans hi) nofun
    | setStamp | begin | complete | storeFragments | storeRoots | clearRoots => exact hi.elim
  · exact .inl ((after_of_not_invalidates hi).2.trans h)

end CellStep

/-! ### Runs -/

/-- Whether a call can follow some steps: a resolution is completed in a generation in which one
began. -/
def CellCall.Follows (steps : List CellStep) : CellCall → Prop
  | .complete generation _ => ∃ s ∈ steps, ∃ raw, s.Begins generation raw
  | _ => True

/-- The steps that led to a cell, the last one first. -/
inductive Cell.Run : List CellStep → Cell → Prop where
  | new : Run [] {}
  | step {steps : List CellStep} {c : Cell} (run : Run steps c) (call : CellCall)
    (follows : call.Follows steps) : Run (⟨c, call⟩ :: steps) (c.after call)

/-- The last step that was not quiet, among the steps of a run. -/
structure LastChange (steps : List CellStep) (s : CellStep) (later earlier : List CellStep) :
    Prop where
  split : steps = later ++ s :: earlier
  quiet : ∀ s' ∈ later, s'.IsQuiet

theorem LastChange.cons {steps later earlier : List CellStep} {s s' : CellStep}
    (h : LastChange steps s later earlier) (hq : s'.IsQuiet) :
    LastChange (s' :: steps) s (s' :: later) earlier := by
  refine ⟨by rw [h.split, List.cons_append], fun s'' hs ↦ ?_⟩
  rcases List.mem_cons.mp hs with rfl | hs
  · exact hq
  · exact h.quiet s'' hs

theorem LastChange.head (s : CellStep) (steps : List CellStep) :
    LastChange (s :: steps) s [] steps :=
  ⟨rfl, fun _ h ↦ absurd h List.not_mem_nil⟩

namespace Cell

/-- Whether the last change published a result, for which a step since then did something. -/
def KeptSince (steps : List CellStep) (Keeps : Issued → CellStep → Prop) : Prop :=
  ∃ s later earlier r, LastChange steps s later earlier ∧ s.Publishes r ∧ ∃ s' ∈ later, Keeps r s'

/-- What a cell owes to the steps that led to it. -/
structure Sound (steps : List CellStep) (c : Cell) : Prop where
  /-- A resolution of the generation of the cell began with the raw buildpath of the cell. -/
  begun : ∀ s ∈ steps, ∀ generation raw, s.Begins generation raw →
    generation ≤ c.generation ∧ (generation = c.generation → raw = c.raw)
  issued : ∀ r, c.issued? = some r → ∃ s later earlier, LastChange steps s later earlier ∧
    s.Publishes r ∧ s.before.generation = c.generation ∧
      ∃ s' ∈ earlier, ∃ raw, s'.Begins c.generation raw
  fragments : ∀ fragments, c.fragments = some fragments → KeptSince steps fun r s ↦
    ∃ result, s.call = .storeFragments result fragments ∧ result.number = r.number
  roots : ∀ roots, c.roots = some roots → KeptSince steps fun r s ↦
    ∃ result, s.call = .storeRoots result roots ∧ result.number = r.number

theorem KeptSince.cons {steps : List CellStep} {Keeps : Issued → CellStep → Prop} {s : CellStep}
    (h : KeptSince steps Keeps) (hq : s.IsQuiet) : KeptSince (s :: steps) Keeps := by
  obtain ⟨p, later, earlier, r, hlast, hr, s', hs', hk⟩ := h
  exact ⟨p, s :: later, earlier, r, hlast.cons hq, hr, s', List.mem_cons_of_mem s hs', hk⟩

/-- What is stored for the valid result is stored for the one that was published last. -/
theorem Sound.keptSince {steps : List CellStep} {s : CellStep} (h : Sound steps s.before)
    (hq : s.IsQuiet) {result : Issued} (hcurrent : s.before.isCurrent result)
    {Keeps : Issued → CellStep → Prop} (hk : ∀ r, result.number = r.number → Keeps r s) :
    KeptSince (s :: steps) Keeps := by
  rw [isCurrent, Option.any_eq_true] at hcurrent
  obtain ⟨r, hr, hnumber⟩ := hcurrent
  obtain ⟨p, later, earlier, hlast, hp, -⟩ := h.issued r hr
  exact ⟨p, s :: later, earlier, r, hlast.cons hq, hp, s, List.mem_cons_self,
    hk r (of_decide_eq_true hnumber).symm⟩

/-- One more step keeps what a cell owes to the steps. -/
theorem Sound.step {steps : List CellStep} {s : CellStep} (h : Sound steps s.before)
    (hfollows : s.call.Follows steps) : Sound (s :: steps) s.after := by
  by_cases hi : s.Invalidates
  · -- everything is dropped, and the resolutions that began are of an older generation now
    obtain ⟨hgeneration, hstate, hfragments, hroots⟩ := CellStep.after_of_invalidates hi
    refine ⟨fun s' hs' generation raw hb ↦ ?_, fun r hr ↦ ?_, fun f hf ↦ ?_, fun v hv ↦ ?_⟩
    · have hle : generation ≤ s.before.generation := by
        rcases List.mem_cons.mp hs' with rfl | hs'
        · exact Nat.le_of_eq (CellStep.begins_eq hb).1
        · exact (h.begun s' hs' generation raw hb).1
      exact ⟨by omega, by omega⟩
    · rw [issued?, hstate] at hr
      cases hr
    · exact absurd (hfragments.symm.trans hf) nofun
    · exact absurd (hroots.symm.trans hv) nofun
  obtain ⟨hgeneration, hraw⟩ := CellStep.after_of_not_invalidates hi
  have hbegun : ∀ s' ∈ s :: steps, ∀ generation raw, s'.Begins generation raw →
      generation ≤ s.after.generation ∧
        (generation = s.after.generation → raw = s.after.raw) := by
    intro s' hs' generation raw hb
    rw [hgeneration, hraw]
    rcases List.mem_cons.mp hs' with rfl | hs'
    · obtain ⟨rfl, rfl⟩ := CellStep.begins_eq hb
      exact ⟨Nat.le_refl _, fun _ ↦ rfl⟩
    · exact h.begun s' hs' generation raw hb
  by_cases hp : ∃ r, s.Publishes r
  · obtain ⟨r, hr⟩ := hp
    have hafter := CellStep.after_of_publishes hr
    refine ⟨hbegun, fun r' hr' ↦ ?_, fun f hf ↦ ?_, fun v hv ↦ ?_⟩
    · rw [hafter] at hr'
      obtain rfl := Option.some.inj hr'
      rw [hr] at hfollows
      rw [hgeneration]
      exact ⟨s, [], steps, .head s steps, hr, rfl, hfollows⟩
    · rw [hafter] at hf
      cases hf
    · rw [hafter] at hv
      cases hv
  have hq : s.IsQuiet := ⟨not_exists.mp hp, hi⟩
  refine ⟨hbegun, fun r hr ↦ ?_, fun f hf ↦ ?_, fun v hv ↦ ?_⟩
  · obtain ⟨p, later, earlier, hlast, hpublish, hg, hb⟩ :=
      h.issued r (CellStep.issued?_of_isQuiet hq hr)
    rw [hgeneration]
    exact ⟨p, s :: later, earlier, hlast.cons hq, hpublish, hg, hb⟩
  · rcases CellStep.fragments_of_isQuiet hq hf with hf | ⟨result, hcall, hcurrent⟩
    · exact (h.fragments f hf).cons hq
    · exact h.keptSince hq hcurrent fun r hr ↦ ⟨result, hcall, hr⟩
  · rcases CellStep.roots_of_isQuiet hq hv with hv | ⟨result, hcall, hcurrent⟩
    · exact (h.roots v hv).cons hq
    · exact h.keptSince hq hcurrent fun r hr ↦ ⟨result, hcall, hr⟩

theorem Run.sound {steps : List CellStep} {c : Cell} (h : Run steps c) : Sound steps c := by
  induction h with
  | new =>
    refine ⟨fun s hs ↦ absurd hs List.not_mem_nil, fun r hr ↦ ?_, fun f hf ↦ ?_, fun v hv ↦ ?_⟩
    · cases hr
    · cases hf
    · cases hv
  | step run call follows ih => exact ih.step follows

/-- No step decreases the generation. -/
theorem generation_le_after (s : CellStep) : s.before.generation ≤ s.after.generation := by
  by_cases hi : s.Invalidates
  · exact (CellStep.after_of_invalidates hi).1 ▸ Nat.le_succ _
  · exact Nat.le_of_eq (CellStep.after_of_not_invalidates hi).1.symm

/-- A run passed through the cells of its steps. -/
theorem Run.through {later earlier : List CellStep} {s : CellStep} {c : Cell}
    (h : Run (later ++ s :: earlier) c) :
    Run earlier s.before ∧ s.after.generation ≤ c.generation := by
  induction later generalizing c with
  | nil =>
    cases h with
    | step run call follows => exact ⟨run, Nat.le_refl _⟩
  | cons s' later ih =>
    cases h with
    | @step _ c' run call follows =>
      obtain ⟨hrun, hle⟩ := ih run
      exact ⟨hrun, Nat.le_trans hle (generation_le_after ⟨c', call⟩)⟩

/-- A resolution that began before its cell was invalidated is of an older generation from then on. -/
theorem Run.lt_generation {later earlier : List CellStep} {s : CellStep} {c : Cell}
    (h : Run (later ++ s :: earlier) c) (hi : s.Invalidates) {s' : CellStep} (hs' : s' ∈ earlier)
    {generation : Nat} {raw : Option RawBuildpath} (hb : s'.Begins generation raw) :
    generation < c.generation := by
  obtain ⟨hrun, hle⟩ := h.through
  have hbegun := (hrun.sound.begun s' hs' generation raw hb).1
  have hafter := (CellStep.after_of_invalidates hi).1
  omega

end Cell

end Buildpath
