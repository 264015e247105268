import Buildpath.Proofs.Glob
import Buildpath.Proofs.Model.SourceFolders

/-!
# Source folders inside source folders

A source folder may stand inside another one whose exclusion patterns match its path. That they match
everything below it too is only sure of patterns of folders: those that end with a slash, as the refusal
of a buildpath asks for, or with two stars as a whole component (`FolderPattern.below`). With such
patterns every file belongs to at most one source folder of an accepted buildpath
(`owners_of_validate`); with others it may belong to two.
-/

namespace Buildpath

/-! ### Texts of paths below a folder -/

private theorem joinWith_cons {sep : Char} (field : List Char) {fields : List (List Char)}
    (h : fields ≠ []) :
    Text.joinWith sep (field :: fields) = field ++ sep :: Text.joinWith sep fields := by
  rw [Text.joinWith]
  exact h

theorem Text.joinWith_append {sep : Char} {above below : List (List Char)} (ha : above ≠ [])
    (hb : below ≠ []) :
    joinWith sep (above ++ below) = joinWith sep above ++ sep :: joinWith sep below := by
  induction above with
  | nil => exact absurd rfl ha
  | cons field above ih =>
    by_cases habove : above = []
    · subst habove
      exact joinWith_cons field hb
    · rw [List.cons_append, joinWith_cons field (List.append_ne_nil_of_right_ne_nil above hb),
        ih habove, joinWith_cons field habove, List.append_assoc, List.cons_append]

private theorem toListLoop_eq (b : ByteArray) (i : Nat) (read : List UInt8) :
    ByteArray.toList.loop b i read = read.reverse ++ b.data.toList.drop i := by
  fun_induction ByteArray.toList.loop b i read with
  | case1 i read h ih =>
    have hi : i < b.data.toList.length := h
    rw [ih, List.drop_eq_getElem_cons hi, List.reverse_cons, List.append_assoc,
      List.singleton_append, ByteArray.get!, Array.getElem_toList, getElem!_pos b.data i h]
  | case2 i read h =>
    rw [List.drop_eq_nil_of_le (Nat.le_of_not_lt h), List.append_nil]

/-- The bytes of a text. -/
def bytesOf (text : String) : List UInt8 := text.toUTF8.toList

theorem bytesOf_append (a b : String) : bytesOf (a ++ b) = bytesOf a ++ bytesOf b := by
  have hdata (b : ByteArray) : b.toList = b.data.toList := by
    rw [ByteArray.toList, toListLoop_eq]
    rfl
  simp only [bytesOf, hdata, String.toUTF8_eq_toByteArray, String.toByteArray_append,
    ByteArray.data_append, Array.toList_append]

namespace Path

variable {p q r : Path}

theorem isAbove_trans (h : p.isAbove q) (h' : q.isAbove r) : p.isAbove r := by
  rw [isAbove_iff_lt] at h h' ⊢
  exact ⟨isPrefixOf_trans h.1 h'.1, Nat.lt_trans h.2 h'.2⟩

/-- Of two paths above a third one, one is above the other. -/
theorem eq_or_isAbove (hp : p.isAbove r) (hq : q.isAbove r) : p = q ∨ p.isAbove q ∨ q.isAbove p := by
  rw [isAbove_iff_lt] at hp hq
  rcases Nat.lt_trichotomy p.segmentCount q.segmentCount with hlt | heq | hgt
  · exact .inr (.inl (isAbove_iff_lt.mpr ⟨isPrefixOf_of_le hp.1 hq.1 (Nat.le_of_lt hlt), hlt⟩))
  · exact .inl (eq_of_isPrefixOf (isPrefixOf_of_le hp.1 hq.1 (Nat.le_of_eq heq)) heq)
  · exact .inr (.inr (isAbove_iff_lt.mpr ⟨isPrefixOf_of_le hq.1 hp.1 (Nat.le_of_lt hgt), hgt⟩))

/-- The text of a path from a folder above, by way of a folder in between. -/
theorem toString_dropFirst (h : p.isAbove q) (h' : q.isAbove r) :
    (r.dropFirst p.segmentCount).toString = (q.dropFirst p.segmentCount).toString ++ "/" ++
      (r.dropFirst q.segmentCount).toString := by
  obtain ⟨-, -, more, hmore, hs⟩ := isAbove_iff.mp h
  obtain ⟨-, -, more', hmore', hs'⟩ := isAbove_iff.mp h'
  have hq : q.segments.drop p.segments.length = more := by rw [hs, List.drop_left]
  have hr : r.segments.drop q.segments.length = more' := by rw [hs', List.drop_left]
  have hpr : r.segments.drop p.segments.length = more ++ more' := by
    rw [hs', hs, List.append_assoc, List.drop_left]
  have htext (segments : List String) : (Path.mk none false segments).toString =
      String.ofList (Text.joinWith '/' (segments.map String.toList)) := rfl
  rw [dropFirst, dropFirst, dropFirst, segmentCount, segmentCount, hq, hr, hpr, htext, htext, htext,
    List.map_append, Text.joinWith_append (by simpa using hmore) (by simpa using hmore')]
  apply String.toList_injective
  simp

end Path

/-! ### Patterns of folders -/

/-- A pattern of a folder and everything below it: it ends with a slash or with two stars as a whole
component. -/
def FolderPattern (pattern : String) : Prop :=
  (∃ folder, pattern.toList = folder ++ ['/'] ∨ pattern.toList = folder ++ Glob.below) ∨
    pattern.toList = ['*', '*']

theorem matchesPattern_iff {patterns : List String} {relative : String} :
    matchesPattern patterns relative ↔ ∃ pattern ∈ patterns, ∃ glob ∈ patternGlobs pattern,
      ∃ ts, Glob.parse? glob = some ts ∧ Glob.isMatch ts (bytesOf relative) := by
  simp only [matchesPattern, List.any_eq_true, List.mem_flatMap, Option.any_eq_true, bytesOf]
  constructor
  · rintro ⟨glob, ⟨pattern, hpattern, hglob⟩, ts, hts, hmatch⟩
    exact ⟨pattern, hpattern, glob, hglob, ts, hts, hmatch⟩
  · rintro ⟨pattern, hpattern, glob, hglob, ts, hts, hmatch⟩
    exact ⟨glob, ⟨pattern, hpattern, hglob⟩, ts, hts, hmatch⟩

theorem matchesPattern_singleton {patterns : List String} {relative : String} :
    matchesPattern patterns relative ↔ ∃ pattern ∈ patterns, matchesPattern [pattern] relative := by
  simp only [matchesPattern_iff, List.mem_singleton, exists_eq_left]

theorem bytesOf_below (relative rest : String) :
    bytesOf (relative ++ "/" ++ rest) = bytesOf relative ++ Glob.slash :: bytesOf rest := by
  have hslash : bytesOf "/" = [Glob.slash] := by decide +kernel
  rw [bytesOf_append, bytesOf_append, hslash, List.append_assoc, List.singleton_append]

/-- A pattern of a folder matches everything below what it matches. -/
theorem FolderPattern.below {pattern relative : String} (h : FolderPattern pattern)
    (hmatch : matchesPattern [pattern] relative) (rest : String) :
    matchesPattern [pattern] (relative ++ "/" ++ rest) := by
  obtain ⟨pattern, hpattern, glob, hglob, ts, hts, hread⟩ := matchesPattern_iff.mp hmatch
  obtain rfl := List.mem_singleton.mp hpattern
  -- a glob that matches everything below what it matches by itself
  have hits (hend : Glob.EndsBelow ts) : matchesPattern [pattern] (relative ++ "/" ++ rest) := by
    refine matchesPattern_iff.mpr ⟨pattern, hpattern, glob, hglob, ts, hts, ?_⟩
    rw [bytesOf_below]
    exact Glob.isMatch_of_endsBelow hend hread _
  obtain ⟨folder, hfolder | hfolder⟩ | hstars := h
  · have hglobs : patternGlobs pattern = [folder, folder ++ Glob.below] := by
      rw [patternGlobs, hfolder, List.reverse_append]
      simp [Glob.below]
    rw [hglobs] at hglob
    rcases List.mem_cons.mp hglob with rfl | hglob
    · rcases Glob.parse?_below hts with hend | hbelow
      · exact hits hend
      · by_cases hstart : ts = [.recursiveStart]
        · exact hits (.inl hstart)
        · refine matchesPattern_iff.mpr ⟨pattern, hpattern, _, ?_, _, hbelow, ?_⟩
          · rw [hglobs]
            exact List.mem_cons_of_mem _ List.mem_cons_self
          · rw [bytesOf_below]
            exact Glob.isMatch_below hread hstart _
    · rw [List.mem_singleton.mp hglob] at hts
      exact hits (Glob.endsBelow_of_parse?_below hts)
  · have hglobs : patternGlobs pattern = [folder ++ Glob.below] := by
      rw [patternGlobs, hfolder, List.reverse_append]
      rfl
    rw [hglobs, List.mem_singleton] at hglob
    rw [hglob] at hts
    exact hits (Glob.endsBelow_of_parse?_below hts)
  · have hglobs : patternGlobs pattern = [['*', '*']] := by
      rw [patternGlobs, hstars]
      rfl
    rw [hglobs, List.mem_singleton] at hglob
    rw [hglob] at hts
    have hstart : Glob.parse? ['*', '*'] = some [.recursiveStart] := by
      simp [Glob.parse?, Glob.readTokens, Glob.readStars, Glob.Draft.push, Glob.Draft.isFresh]
    exact hits (.inl (Option.some.inj (hts.symm.trans hstart)))

/-! ### Who owns a file -/

namespace Entry

variable {outer inner : Entry} {path : Path}

/-- Whether a source folder has a file: the file lies below it and is not hidden. -/
def holds (e : Entry) (file : Path) : Bool :=
  e.kind = .source && e.path.isAbove file && !e.isExcluded file false

/-- One of the exclusion patterns matches a path below the entry. -/
def Matches (e : Entry) (path : Path) (p : String → Prop) : Prop :=
  ∃ pattern ∈ e.exclusions, p pattern ∧
    matchesPattern [pattern] (path.dropFirst e.path.segmentCount).toString

theorem isExcluded_of_matches (h : outer.path.isAbove path) {p : String → Prop}
    (hm : outer.Matches path p) (isFolder : Bool) : outer.isExcluded path isFolder := by
  obtain ⟨pattern, hpattern, -, hm⟩ := hm
  exact isExcluded_iff.mpr ⟨h, .inl (matchesPattern_singleton.mpr ⟨pattern, hpattern, hm⟩)⟩

/-- A source folder that hides another one by a pattern of folders hides everything below it. -/
theorem isExcluded_below (h : outer.path.isAbove inner.path)
    (hm : outer.Matches inner.path FolderPattern) {file : Path} (hfile : inner.path.isAbove file)
    (isFolder : Bool) : outer.isExcluded file isFolder := by
  obtain ⟨pattern, hpattern, hfolder, hm⟩ := hm
  refine isExcluded_of_matches (Path.isAbove_trans h hfile) ⟨pattern, hpattern, hfolder, ?_⟩ isFolder
  rw [Path.toString_dropFirst h hfile]
  exact hfolder.below hm _

end Entry

/-- The source folders that have a file. -/
def owners (raw : List Entry) (file : Path) : List Entry := raw.filter (·.holds file)

section

variable {project : Path} {raw : List Entry}

/-- What a file belongs to lies above it. -/
theorem isAbove_of_holds {e : Entry} {file : Path} (h : e.holds file) :
    e.kind = .source ∧ e.path.isAbove file ∧ e.isExcluded file false = false := by
  simpa [Entry.holds, and_assoc] using h

/-- A file has at most one owner if no two source folders, one inside the other, have it. -/
theorem length_owners_le_one (h : validate project raw = .ok ()) {file : Path}
    (hn : ∀ outer ∈ raw, ∀ inner ∈ raw, outer.Nests inner →
      ¬ (outer.holds file ∧ inner.holds file)) : (owners raw file).length ≤ 1 := by
  have hnodup : ((owners raw file).map Entry.path).Nodup :=
    (nodup_of_validate h).sublist (List.filter_sublist.map Entry.path)
  have hmem {e : Entry} (he : e ∈ owners raw file) : e ∈ raw ∧ e.holds file := List.mem_filter.mp he
  match howners : owners raw file with
  | [] => exact Nat.zero_le 1
  | [e] => exact Nat.le_refl 1
  | o :: i :: rest =>
    exfalso
    have ho := hmem (e := o) (howners ▸ List.mem_cons_self)
    have hi := hmem (e := i) (howners ▸ List.mem_cons_of_mem _ List.mem_cons_self)
    obtain ⟨hso, hao, -⟩ := isAbove_of_holds ho.2
    obtain ⟨hsi, hai, -⟩ := isAbove_of_holds hi.2
    rw [howners, List.map_cons, List.map_cons] at hnodup
    have hne : o.path ≠ i.path := fun heq ↦
      (List.nodup_cons.mp hnodup).1 (heq ▸ List.mem_cons_self)
    rcases Path.eq_or_isAbove hao hai with heq | hoi | hio
    · exact hne heq
    · exact hn o ho.1 i hi.1 ⟨hso, hsi, hoi⟩ ⟨ho.2, hi.2⟩
    · exact hn i hi.1 o ho.1 ⟨hsi, hso, hio⟩ ⟨hi.2, ho.2⟩

/-- A file with at most one owner does not belong to two source folders, one inside the other. -/
theorem not_holds_of_length_owners_le_one {file : Path} (hone : (owners raw file).length ≤ 1)
    {outer inner : Entry} (ho : outer ∈ raw) (hi : inner ∈ raw) (hn : outer.Nests inner)
    (hho : outer.holds file) : inner.holds file = false := by
  refine Bool.eq_false_iff.mpr fun hhi ↦ ?_
  have hmo : outer ∈ owners raw file := List.mem_filter.mpr ⟨ho, hho⟩
  have hmi : inner ∈ owners raw file := List.mem_filter.mpr ⟨hi, hhi⟩
  have heq : outer = inner := by
    obtain ⟨e, he⟩ := List.length_eq_one_iff.mp (Nat.le_antisymm hone (List.length_pos_of_mem hmo))
    rw [he] at hmo hmi
    rw [List.mem_singleton.mp hmo, List.mem_singleton.mp hmi]
  obtain ⟨-, hne⟩ := (Bool.and_eq_true _ _).mp hn.2.2
  exact of_decide_eq_true hne (congrArg Entry.path heq)

/-- In an accepted buildpath every file belongs to at most one source folder exactly if of two, one
inside the other, one hides each file below the inner one. That is so if the outer one hides the inner
one by a pattern of folders, since it hides everything below it then. -/
theorem owners_of_validate (h : validate project raw = .ok ()) :
    ((∀ file, (owners raw file).length ≤ 1) ↔
      ∀ outer ∈ raw, ∀ inner ∈ raw, outer.Nests inner → ∀ file, inner.path.isAbove file →
        outer.isExcluded file false ∨ inner.isExcluded file false) ∧
    (∀ outer ∈ raw, ∀ inner ∈ raw, outer.Nests inner → outer.Matches inner.path FolderPattern →
      ∀ file, inner.path.isAbove file → ∀ isFolder, outer.isExcluded file isFolder) ∧
    ((∀ outer ∈ raw, ∀ inner ∈ raw, outer.Nests inner → outer.Matches inner.path FolderPattern) →
      ∀ file, (owners raw file).length ≤ 1) := by
  refine ⟨⟨fun hone outer ho inner hi hn file hfile ↦ ?_, fun hhide file ↦ ?_⟩, ?_, ?_⟩
  · refine Decidable.or_iff_not_imp_left.mpr fun hshown ↦ ?_
    have hho : outer.holds file := by
      simp [Entry.holds, hn.1, Path.isAbove_trans hn.2.2 hfile, hshown]
    simpa [Entry.holds, hn.2.1, hfile] using not_holds_of_length_owners_le_one (hone file) ho hi hn hho
  · refine length_owners_le_one h fun outer ho inner hi hn ⟨hho, hhi⟩ ↦ ?_
    obtain ⟨-, -, hshown⟩ := isAbove_of_holds hho
    obtain ⟨-, hfile, hshown'⟩ := isAbove_of_holds hhi
    rcases hhide outer ho inner hi hn file hfile with hex | hex
    · exact absurd (hshown.symm.trans hex) Bool.false_ne_true
    · exact absurd (hshown'.symm.trans hex) Bool.false_ne_true
  · exact fun outer ho inner hi hn hm file hfile ↦ Entry.isExcluded_below hn.2.2 hm hfile
  · intro hm file
    refine length_owners_le_one h fun outer ho inner hi hn ⟨hho, hhi⟩ ↦ ?_
    obtain ⟨-, -, hshown⟩ := isAbove_of_holds hho
    obtain ⟨-, hfile, -⟩ := isAbove_of_holds hhi
    have hex := Entry.isExcluded_below hn.2.2 (hm outer ho inner hi hn) hfile false
    exact absurd (hshown.symm.trans hex) Bool.false_ne_true

end

/-! ### A folder inside the project folder -/

/-- The project folder and a folder in it as source folders, with an exclusion pattern for the second. -/
def nestedSources (pattern : String) : List Entry :=
  [{ kind := .source, path := .parse "/p", exclusions := [pattern] }, .source (.parse "/p/src")]

/-- A pattern with a slash at its end leaves a file in the inner folder to that folder. -/
theorem owners_hidden_by_folder : validate (.parse "/p") (nestedSources "src/") = .ok () ∧
    (owners (nestedSources "src/") (.parse "/p/src/a.tcl")).length ≤ 1 := by
  have hvalid : validate (.parse "/p") (nestedSources "src/") = .ok () := by decide +kernel
  refine ⟨hvalid, (owners_of_validate hvalid).2.2 ?_ (.parse "/p/src/a.tcl")⟩
  intro outer ho inner hi hn
  have habove := hn.2.2
  rcases List.mem_pair.mp ho with rfl | rfl <;> rcases List.mem_pair.mp hi with rfl | rfl
  · exact absurd habove (by decide +kernel)
  · exact ⟨"src/", List.mem_singleton.mpr rfl, .inl ⟨['s', 'r', 'c'], .inl rfl⟩, by decide +kernel⟩
  · exact absurd habove (by decide +kernel)
  · exact absurd habove (by decide +kernel)

/-- A pattern without one hides the inner folder, but not the files in it: they have two owners. -/
theorem owners_hidden_by_name : validate (.parse "/p") (nestedSources "src") = .ok () ∧
    owners (nestedSources "src") (.parse "/p/src/a.tcl") = nestedSources "src" := by
  decide +kernel

end Buildpath
