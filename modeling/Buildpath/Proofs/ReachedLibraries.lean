import Buildpath.Proofs.Chained
import Buildpath.Proofs.Resource.RelativePaths

/-!
# Libraries that references reach

What is chained from a library are the resources that some number of references lead to
(`Workspace.chainedLibraries_reaches`), for every path that was read. That the walk over them is deep enough
is known of absolute libraries. A relative one leads to relative paths only: those are in no directory of a
workspace, and outside there are no more of them than texts below the limit.
-/

namespace Buildpath

namespace Workspace

variable {w : Workspace} {external : Bool} {library target : Path}

/-- What the manifest of a library refers to: a word of the header in its main section, taken from the
folder of the library. -/
def ManifestNames (w : Workspace) (external : Bool) (library target : Path) : Prop :=
  ∃ manifest value folder word, w.manifest? external library = some manifest ∧
    Manifest.mainAttribute? manifest Manifest.referencesHeader = some value ∧
    library.parent? = some folder ∧ word ∈ Text.words value ∧ target = folder.append (Path.parse word)

/-- A step from a library: a reference of its manifest leads to a resource on its side. -/
def StepsTo (w : Workspace) (external : Bool) (library target : Path) : Prop :=
  w.ManifestNames external library target ∧ (w.kindOn? external target).isSome

theorem mem_libraryReferences_iff :
    target ∈ w.libraryReferences external library ↔ w.ManifestNames external library target := by
  unfold libraryReferences
  constructor
  · intro h
    split at h
    · next value folder hvalue hfolder =>
      obtain ⟨manifest, hmanifest, hvalue⟩ := Option.bind_eq_some_iff.mp hvalue
      obtain ⟨word, hword, htarget⟩ := List.mem_map.mp h
      exact ⟨manifest, value, folder, word, hmanifest, hvalue, hfolder, hword, htarget.symm⟩
    · cases h
  · rintro ⟨manifest, value, folder, word, hmanifest, hvalue, hfolder, hword, rfl⟩
    rw [hmanifest, Option.bind_some, hvalue, hfolder]
    exact List.mem_map.mpr ⟨word, hword, rfl⟩

/-- The references that lead to a resource are the steps. -/
theorem stepsTo_eq_refers : w.StepsTo external = w.Refers external :=
  funext fun _ ↦ funext fun _ ↦ propext (and_congr_left' mem_libraryReferences_iff.symm)

/-- No relative path leads to a resource of a directory. -/
theorem kind?_relative {d : Directory} {path : Path} (h : path.absolute = false) : d.kind? path = none := by
  rw [Directory.kind?, Directory.filePath?, if_pos (by simp [h]), Option.bind_none]

/-- Every library that was read leads to few paths. -/
theorem leadsToFew_of_isRead (hl : library.IsRead) : w.LeadsToFew external library := by
  cases habsolute : library.absolute with
  | true => exact leadsToFew_of_absolute ⟨hl.canonical, habsolute⟩
  | false =>
    cases w with
    | memory m =>
      obtain ⟨paths, hlength, hpaths⟩ := exists_keys m external
      exact leadsToFew_of_paths hl.canonical (Nat.le_succ_of_le hlength) fun path _ _ _ hkind ↦
        hpaths path hkind
    | directory d =>
      cases external with
      | false =>
        have hlength : ([] : List Path).length ≤ (directory d).pathBound + 1 := Nat.zero_le _
        refine leadsToFew_of_paths hl.canonical hlength fun path _ _ hrelative hkind ↦ ?_
        change (d.kind? path).isSome at hkind
        rw [kind?_relative (hrelative.trans habsolute)] at hkind
        cases hkind
      | true =>
        obtain ⟨paths, hlength, hpaths⟩ := d.tree.exists_relativePaths library.device
        refine leadsToFew_of_paths hl.canonical (Nat.le_succ_of_le hlength)
          fun path hcanonical hdevice hrelative hkind ↦ ?_
        rw [kindOn?, if_pos rfl, externalKind?] at hkind
        exact hpaths path ⟨hcanonical, hdevice ▸ hl.device⟩ (hrelative.trans habsolute) hdevice hkind

/-- What is chained from a library that was read are the resources on its side, apart from itself, that one
step or more lead to, each once, and no walk that is deeper finds anything else. -/
theorem chainedLibraries_reaches (w : Workspace) (external : Bool) {library : Path} (hl : library.IsRead) :
    (∀ depth, w.pathBound < depth →
      (w.followReferences external depth library { visited := [library] }).found =
        w.chainedLibraries library external) ∧
    ((w.chainedLibraries library external).map ChainedLibrary.path).Nodup ∧
    (∀ chained ∈ w.chainedLibraries library external, chained.external = external) ∧
    ∀ path, path ∈ (w.chainedLibraries library external).map ChainedLibrary.path ↔
      path ≠ library ∧ Relation.TransGen (w.StepsTo external) library path := by
  have hfew : w.LeadsToFew external library := leadsToFew_of_isRead hl
  obtain ⟨hnodup, hmem⟩ := chainedLibraries_of_leadsToFew hfew
  refine ⟨fun depth hdepth ↦ found_followReferences hfew hdepth, hnodup,
    fun chained hchained ↦ ((hmem chained).mp hchained).1, fun path ↦ ⟨fun h ↦ ?_, fun ⟨hne, hsteps⟩ ↦ ?_⟩⟩
  · obtain ⟨chained, hchained, rfl⟩ := List.mem_map.mp h
    rw [stepsTo_eq_refers]
    exact ((hmem chained).mp hchained).2
  · rw [stepsTo_eq_refers] at hsteps
    exact List.mem_map.mpr ⟨⟨path, external⟩, (hmem _).mpr ⟨rfl, hne, hsteps⟩, rfl⟩

/-- A directory with a library that refers to itself, to a missing library and to one beside the current
directory, which refers back to it by another path. -/
def besideEachOther : Directory where
  root := "/w"
  tree.current := ["w"]
  tree.nodes := ⟨[
    (["w"], .directory 0), (["w", "a"], .directory 0), (["w", "a", "META-INF"], .directory 0),
    (["w", "a", "META-INF", "MANIFEST.MF"], .file "Class-Path: a missing ../b\n".toUTF8 0),
    (["b"], .directory 0), (["b", "META-INF"], .directory 0),
    (["b", "META-INF", "MANIFEST.MF"], .file "Class-Path: w/a\n".toUTF8 0)]⟩

/-- The library by its relative path chains the other one and itself by its path from there. -/
theorem besideEachOther_chained :
    (Path.parse "a").IsRead ∧
    ((directory besideEachOther).chainedLibraries (Path.parse "a") true).map ChainedLibrary.path =
      [Path.parse "../b", Path.parse "../w/a"] ∧
    Relation.TransGen ((directory besideEachOther).StepsTo true) (Path.parse "a") (Path.parse "../w/a") := by
  have hread := Path.isRead_parse "a"
  have hchained : ((directory besideEachOther).chainedLibraries (Path.parse "a") true).map
      ChainedLibrary.path = [Path.parse "../b", Path.parse "../w/a"] := by decide +kernel
  obtain ⟨-, -, -, hreaches⟩ := chainedLibraries_reaches (directory besideEachOther) true hread
  exact ⟨hread, hchained, ((hreaches _).mp (hchained ▸ by simp)).2⟩

end Workspace

end Buildpath
