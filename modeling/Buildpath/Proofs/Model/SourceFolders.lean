import Buildpath.Proofs.Model.Saving
import Buildpath.Proofs.Origins
import Buildpath.Proofs.Validation

/-!
# Source folders in resolutions

An accepted buildpath has one entry for each path, but what its entries stand for may have more. A
source folder is an entry of the result unless a variable, a container or a library before it brings in
another entry at its path (`resolve_keeps_source`), which then stands there instead.
-/

namespace Buildpath

open ResolutionPass

/-! ### Accepted buildpaths -/

/-- The entries of an accepted buildpath have different paths. -/
theorem nodup_of_validate {project : Path} {raw : List Entry} (h : validate project raw = .ok ()) :
    (raw.map Entry.path).Nodup :=
  (validate_eq_ok_iff.mp h).distinct

theorem eq_of_path_eq {raw : List Entry} (h : (raw.map Entry.path).Nodup) {i j : Nat} {o e : Entry}
    (ho : raw[i]? = some o) (he : raw[j]? = some e) (hpath : o.path = e.path) : i = j := by
  obtain ⟨hi, rfl⟩ := List.getElem?_eq_some_iff.mp ho
  obtain ⟨hj, rfl⟩ := List.getElem?_eq_some_iff.mp he
  have hsame : (raw.map Entry.path)[i]? = (raw.map Entry.path)[j]? := by
    rw [List.getElem?_map, List.getElem?_map, List.getElem?_eq_getElem hi, List.getElem?_eq_getElem hj,
      Option.map_some, Option.map_some, hpath]
  exact (List.getElem?_inj (by rwa [List.length_map]) h).mp hsame

/-! ### Entries that stand for themselves -/

section

variable {c : ResolutionContext} {listed : List Path} {o e : Entry}

theorem addAll_itself (p : ResolutionPass) (c : ResolutionContext) (listed : List Path) (raw : Entry)
    (h : e.kind ≠ .library) : p.addAll c listed raw [e] = p.add c raw e := by
  rw [addAll, List.foldl_cons, List.foldl_nil, decide_eq_false h]
  rfl

/-- What stands for itself brings in nothing else. -/
theorem eq_of_broughtIn (h : o.kind = .source ∨ o.kind = .project) (hb : BroughtIn c listed o [o] e) :
    e = o := by
  cases hb with
  | behind mem => exact List.mem_singleton.mp mem
  | chained mem isLibrary =>
    rw [List.mem_singleton.mp mem] at isLibrary
    rcases h with h | h <;> cases h.symm.trans isLibrary

end

/-! ### Source folders -/

variable {σ : Type} {b : Bindings (StateM σ)} {c : ResolutionContext} {raw : List Entry} {s : σ}

/-- A source folder gives its path an entry, unless one of the raw entries before it does. -/
theorem exists_origin_le {n : Nat} {e : Entry} (he : raw[n]? = some e) (hkind : e.kind = .source) :
    ∃ origins, ((resolve b c raw).run s).1.result.Traced raw (BringsIn b c raw s) raw.length origins ∧
      ∃ x ∈ origins, x.1.path = e.path ∧ x.2 ≤ n := by
  have hn : n < raw.length := (List.getElem?_eq_some_iff.mp he).1
  suffices h : ∃ origins,
      ((resolve b c raw).run s).1.result.Traced raw (BringsIn b c raw s) raw.length origins ∧
        (n < raw.length → ∃ x ∈ origins, x.1.path = e.path ∧ x.2 ≤ n) by
    obtain ⟨origins, htraced, hx⟩ := h
    exact ⟨origins, htraced, hx hn⟩
  refine resolve_induction (motive := fun k p ↦ ∃ origins,
    p.result.Traced raw (BringsIn b c raw s) k origins ∧
      (n < k → ∃ x ∈ origins, x.1.path = e.path ∧ x.2 ≤ n))
    ⟨[], .empty, fun hk ↦ absurd hk (Nat.not_lt_zero n)⟩ ?_
  rintro k o p ho ⟨origins, h, hx⟩
  by_cases hk : n = k
  · subst hk
    obtain rfl := Option.some.inj (he.symm.trans ho)
    have hfound : found b c (reached b c s (raw.take n)) e = .ok [e] := found_itself b c _ (.inl hkind)
    have hb : BringsIn b c raw s n e := ⟨e, [e], he, hfound, .behind List.mem_cons_self⟩
    obtain ⟨origins', -, h', x, hx', hpath⟩ := (h.mono n.le_succ).add he hb c
    have hlibrary : e.kind ≠ .library := by
      rw [hkind]
      decide
    rw [hfound, addFound, addAll_itself p c _ e hlibrary]
    exact ⟨origins', h', fun _ ↦ ⟨x, hx', hpath, Nat.le_of_lt_succ (h'.before x hx')⟩⟩
  · obtain ⟨origins', hprefix, h'⟩ := traced_addFound h ho
    refine ⟨origins', h', fun hlt ↦ ?_⟩
    obtain ⟨x, hx', hrest⟩ := hx (Nat.lt_of_le_of_ne (Nat.le_of_lt_succ hlt) hk)
    exact ⟨x, hprefix.subset hx', hrest⟩

/-- A source folder of an accepted buildpath is an entry of the result unless a library, a variable or a
container before it brings in another entry at its path, which is in the result then. -/
theorem resolve_keeps_source (b : Bindings (StateM σ)) (s : σ)
    (hvalid : validate (projectPath c.project) raw = .ok ()) {n : Nat} {e : Entry}
    (he : raw[n]? = some e) (hkind : e.kind = .source) :
    e ∈ ((resolve b c raw).run s).1.result.entries ∨
      ∃ i o e', i < n ∧ raw[i]? = some o ∧ o.kind ∈ [.library, .variableRef, .container] ∧
        BringsIn b c raw s i e' ∧ e'.path = e.path ∧ e' ≠ e ∧
        e' ∈ ((resolve b c raw).run s).1.result.entries ∧
        ((resolve b c raw).run s).1.result.rawOf.find? e.path = some o := by
  obtain ⟨origins, h, x, hx, hpath, hle⟩ := exists_origin_le (b := b) (c := c) (s := s) he hkind
  have hmem : x.1 ∈ ((resolve b c raw).run s).1.result.entries :=
    h.entries ▸ List.mem_map.mpr ⟨x, hx, rfl⟩
  by_cases heq : x.1 = e
  · exact .inl (heq ▸ hmem)
  · obtain ⟨o, ho, hraw⟩ := h.rawOf x hx
    have hbrought := h.brought x hx
    -- what stands for itself would be the source folder, since no two raw entries have one path
    have hother : ¬ (o.kind = .source ∨ o.kind = .project) := by
      intro hitself
      obtain ⟨o', es, ho', hfound, hes⟩ := hbrought
      obtain rfl := Option.some.inj (ho.symm.trans ho')
      obtain rfl : [o] = es := Except.ok.inj ((found_itself b c _ hitself).symm.trans hfound)
      have hxo : x.1 = o := eq_of_broughtIn hitself hes
      have hi : x.2 = n := eq_of_path_eq (nodup_of_validate hvalid) ho he (hxo ▸ hpath)
      rw [hi, he] at ho
      exact heq (hxo.trans (Option.some.inj ho).symm)
    refine .inr ⟨x.2, o, x.1, Nat.lt_of_le_of_ne hle fun hi ↦ ?_, ho, ?_, hbrought, hpath, heq, hmem,
      hpath ▸ hraw⟩
    · rw [hi, he] at ho
      exact hother (.inl (Option.some.inj ho ▸ hkind))
    · cases hk : o.kind with
      | library => exact List.mem_cons_self
      | variableRef => exact List.mem_cons_of_mem _ List.mem_cons_self
      | container => exact List.mem_cons_of_mem _ (List.mem_cons_of_mem _ List.mem_cons_self)
      | source => exact absurd (.inl hk) hother
      | project => exact absurd (.inr hk) hother

/-! ### Source folders next to a container -/

namespace Model

/-- A container entry and a source folder. -/
def containerAndSource : List Entry :=
  [{ kind := .container, path := .parse "LIBS/core" }, .source (.parse "/p/src")]

/-- A library outside the workspace. -/
def outsideLibrary : Entry := { kind := .library, path := .parse "/ext/core.zip", external := true }

/-- A library at the path of the source folder. -/
def libraryAtSource : Entry := { kind := .library, path := .parse "/p/src" }

/-- A model of one project with a container of one library. -/
def withLibrary (library : Entry) : Model :=
  { ModelM.onlyProject with
    registry := Registry.put {} (.parse "LIBS/core")
      [("p", some (.ofEntries (.parse "LIBS/core") .application [library]))] }

/-- The result of a resolution of the container and the source folder. -/
def resolvedWith (library : Entry) : Resolved :=
  ((resolve (ModelM.bindings ModelM.findContainer "p") ((withLibrary library).resolutionContext "p" none)
    containerAndSource).run (withLibrary library)).1.result

/-- A library elsewhere leaves the source folder alone. -/
theorem source_next_to_library : validate (projectPath "p") containerAndSource = .ok () ∧
    containerAndSource[1]? = some (.source (.parse "/p/src")) ∧
    Entry.source (.parse "/p/src") ∈ (resolvedWith outsideLibrary).entries := by
  have hvalid : validate (projectPath "p") containerAndSource = .ok () := by rfl
  have hsource : containerAndSource[1]? = some (.source (.parse "/p/src")) := by rfl
  have hkept := resolve_keeps_source (ModelM.bindings ModelM.findContainer "p")
    (c := (withLibrary outsideLibrary).resolutionContext "p" none) (withLibrary outsideLibrary)
    hvalid hsource rfl
  refine ⟨hvalid, hsource, hkept.resolve_right ?_⟩
  rintro ⟨i, o, e', -, -, hkind, -, -, -, -, hraw⟩
  have horigin : (resolvedWith outsideLibrary).rawOf.find? (.parse "/p/src") =
      some (.source (.parse "/p/src")) := by decide +kernel
  obtain rfl := Option.some.inj (hraw.symm.trans horigin)
  revert hkind
  decide

/-- A library of a container stands in place of the source folder that comes after it. -/
theorem library_displaces_source : validate (projectPath "p") containerAndSource = .ok () ∧
    Entry.source (.parse "/p/src") ∈ containerAndSource ∧
    (resolvedWith libraryAtSource).entries = [libraryAtSource] ∧
    Entry.source (.parse "/p/src") ∉ (resolvedWith libraryAtSource).entries := by
  have hentries : (resolvedWith libraryAtSource).entries = [libraryAtSource] := by decide +kernel
  refine ⟨by rfl, List.mem_cons_of_mem _ List.mem_cons_self, hentries, ?_⟩
  rw [hentries]
  decide

end Model

end Buildpath
