import Buildpath.Proofs.Model.Reachability
import Buildpath.Proofs.SourceNesting

/-!
# Entries restricted by those that pull them in

An entry that is pulled in gets the patterns of the one that pulls it in, and is exported if both are
(`Entry.combine`). One more exclusion pattern hides more, but one more inclusion pattern hides less: a
file that an entry hides only because its inclusion patterns do not name it (`Entry.Omits`) becomes
visible if a referring entry names it and no exclusion pattern matches it. In no other way does a chain
of references make anything visible (`Entry.combine_referrer_uncovers_iff`).
-/

namespace Buildpath

theorem matchesPattern_append {patterns more : List String} {relative : String} :
    matchesPattern (patterns ++ more) relative =
      (matchesPattern patterns relative || matchesPattern more relative) := by
  simp only [matchesPattern, List.flatMap_append, List.any_append]

theorem matchesPattern_flatMap {entries : List Entry} {patterns : Entry → List String}
    {relative : String} : matchesPattern (entries.flatMap patterns) relative ↔
      ∃ e ∈ entries, matchesPattern (patterns e) relative := by
  induction entries with
  | nil => simp [matchesPattern]
  | cons e entries ih =>
    rw [List.flatMap_cons, matchesPattern_append, Bool.or_eq_true, ih, List.exists_mem_cons_iff]

namespace Entry

variable {e r : Entry} {links : List Entry} {path : Path} {isFolder : Bool}

/-! ### Chains of references -/

/-- Whether an entry hides a file for no other reason than that its inclusion patterns do not name it. -/
structure Omits (e : Entry) (file : Path) : Prop where
  isAbove : e.path.isAbove file
  isNarrow : e.inclusions ≠ []
  isUnnamed : ¬ e.Names (e.relativeText file)
  isUnbarred : ¬ e.Bars (e.relativeText file)

/-- Patterns that a combination has of both entries are those of all entries of a chain. -/
theorem patterns_combine_referrer {patterns : Entry → List String}
    (hcombine : ∀ e r : Entry, patterns (e.combine (some r)) = patterns e ++ patterns r) :
    patterns (e.combine (referrer links)) = (e :: links).flatMap patterns := by
  induction links generalizing e with
  | nil => simp [referrer, combine]
  | cons link links ih =>
    rw [referrer, hcombine, ih]
    simp only [List.flatMap_cons]

theorem inclusions_combine_referrer :
    (e.combine (referrer links)).inclusions = (e :: links).flatMap Entry.inclusions :=
  patterns_combine_referrer fun _ _ ↦ rfl

theorem exclusions_combine_referrer :
    (e.combine (referrer links)).exclusions = (e :: links).flatMap Entry.exclusions :=
  patterns_combine_referrer fun _ _ ↦ rfl

/-- An entry with all that lead to it hides a path if one of them bars it; and a file also if there are
inclusion patterns at all and none of them names the file. -/
theorem isExcluded_combine_referrer : (e.combine (referrer links)).isExcluded path isFolder ↔
    e.path.isAbove path ∧
      ((∃ x ∈ e :: links, x.Bars (e.relativeText path)) ∨
        isFolder = false ∧ (∃ x ∈ e :: links, x.inclusions ≠ []) ∧
          ¬ ∃ x ∈ e :: links, x.Names (e.relativeText path)) := by
  have htext : (e.combine (referrer links)).relativeText path = e.relativeText path := by
    rw [relativeText, relativeText, path_combine]
  have hbars : (e.combine (referrer links)).Bars (e.relativeText path) ↔
      ∃ x ∈ e :: links, x.Bars (e.relativeText path) := by
    rw [Bars, exclusions_combine_referrer, matchesPattern_flatMap]
    rfl
  have hnames : (e.combine (referrer links)).Names (e.relativeText path) ↔
      ∃ x ∈ e :: links, x.Names (e.relativeText path) := by
    rw [Names, inclusions_combine_referrer, matchesPattern_flatMap]
    rfl
  have hnarrow : (e.combine (referrer links)).inclusions ≠ [] ↔
      ∃ x ∈ e :: links, x.inclusions ≠ [] := by
    rw [inclusions_combine_referrer, ne_eq, List.flatMap_eq_nil_iff]
    simp [imp_iff_not_or]
  rw [isExcluded_iff, path_combine, htext, hbars, hnames, hnarrow]

/-- A chain of references shows what an entry hides just if the entry leaves out a file that one of the
links names and none bars. -/
theorem combine_referrer_uncovers_iff :
    e.isExcluded path isFolder ∧ ¬ (e.combine (referrer links)).isExcluded path isFolder ↔
      isFolder = false ∧ e.Omits path ∧ (∃ link ∈ links, link.Names (e.relativeText path)) ∧
        ∀ link ∈ links, ¬ link.Bars (e.relativeText path) := by
  rw [isExcluded_iff, isExcluded_combine_referrer]
  constructor
  · rintro ⟨⟨habove, hhidden⟩, hshown⟩
    obtain ⟨hunbarred, hnamed⟩ := not_or.mp fun h ↦ hshown ⟨habove, h⟩
    have hlinks : ∀ link ∈ links, ¬ link.Bars (e.relativeText path) :=
      fun link hlink hbars ↦ hunbarred ⟨link, List.mem_cons_of_mem _ hlink, hbars⟩
    have hown : ¬ e.Bars (e.relativeText path) := fun hbars ↦ hunbarred ⟨e, List.mem_cons_self, hbars⟩
    obtain ⟨hfile, hnarrow, hunnamed⟩ := hhidden.resolve_left hown
    have hany : ∃ x ∈ e :: links, x.Names (e.relativeText path) := by
      by_contra hnone
      exact hnamed ⟨hfile, ⟨e, List.mem_cons_self, hnarrow⟩, hnone⟩
    obtain ⟨x, hx, hnames⟩ := hany
    have hlink : x ∈ links := (List.mem_cons.mp hx).resolve_left fun h ↦ hunnamed (h ▸ hnames)
    exact ⟨hfile, ⟨habove, hnarrow, hunnamed, hown⟩, ⟨x, hlink, hnames⟩, hlinks⟩
  · rintro ⟨hfile, homits, ⟨link, hlink, hnames⟩, hlinks⟩
    refine ⟨⟨homits.isAbove, .inr ⟨hfile, homits.isNarrow, homits.isUnnamed⟩⟩, ?_⟩
    rintro ⟨-, ⟨x, hx, hbars⟩ | ⟨-, -, hunnamed⟩⟩
    · rcases List.mem_cons.mp hx with rfl | hx
      · exact homits.isUnbarred hbars
      · exact hlinks x hx hbars
    · exact hunnamed ⟨link, List.mem_cons_of_mem _ hlink, hnames⟩

/-- References without inclusion patterns only hide. -/
theorem isExcluded_of_combine_referrer (h : e.isExcluded path isFolder)
    (hlinks : ∀ link ∈ links, link.inclusions = []) :
    (e.combine (referrer links)).isExcluded path isFolder := by
  by_contra hshown
  obtain ⟨-, -, ⟨link, hlink, hnames⟩, -⟩ := combine_referrer_uncovers_iff.mp ⟨h, hshown⟩
  rw [Names, hlinks link hlink] at hnames
  cases hnames

/-! ### One reference -/

/-- What combining does to an entry. The combination is exported if both entries are. It shows what the
entry hides just if the entry leaves out a file that the referring entry names and does not bar. It
hides what the entry shows just if the referring entry bars it, or has inclusion patterns that do not
name the file where the entry has none. -/
theorem combine_restricts_unless_named (e r : Entry) (path : Path) (isFolder : Bool) :
    ((e.combine (some r)).exported ↔ e.exported ∧ r.exported) ∧
    (e.isExcluded path isFolder ∧ ¬ (e.combine (some r)).isExcluded path isFolder ↔
      isFolder = false ∧ e.Omits path ∧ r.Names (e.relativeText path) ∧
        ¬ r.Bars (e.relativeText path)) ∧
    (¬ e.isExcluded path isFolder ∧ (e.combine (some r)).isExcluded path isFolder ↔
      ¬ e.isExcluded path isFolder ∧ e.path.isAbove path ∧
        (r.Bars (e.relativeText path) ∨ isFolder = false ∧ e.inclusions = [] ∧ r.inclusions ≠ [] ∧
          ¬ r.Names (e.relativeText path))) := by
  have hchain : e.combine (some r) = e.combine (referrer [r]) := rfl
  refine ⟨?_, ?_, ?_⟩
  · simp [combine]
  · rw [hchain, combine_referrer_uncovers_iff]
    simp
  · rw [hchain, isExcluded_combine_referrer, isExcluded_iff]
    have hnil : e.inclusions = [] → ¬ e.Names (e.relativeText path) := by
      intro h
      simp [Names, h, matchesPattern]
    simp only [List.mem_cons, List.not_mem_nil, or_false, exists_eq_or_imp, exists_eq_left]
    tauto

/-- A source folder of one file, pulled in by a container that names another file of the folder. -/
theorem combine_uncovers_named_file :
    let e : Entry := { source (Path.parse "/p/src") with inclusions := ["a.tcl"] }
    let r : Entry := { kind := .container, path := Path.parse "X/x", inclusions := ["b.tcl"] }
    e.isExcluded (Path.parse "/p/src/b.tcl") false ∧
      ¬ (e.combine (some r)).isExcluded (Path.parse "/p/src/b.tcl") false := by
  decide +kernel

end Entry

end Buildpath
