import Buildpath.Proofs.Origins

/-!
# Exported entries

An entry of a result is exported only if the raw entry that brought it in is, or if it is a library that
another one brought along and that the last resolution had as an exported entry (`resolve_exports`).
-/

namespace Buildpath

open ResolutionPass

variable {σ : Type} {b : Bindings (StateM σ)} {c : ResolutionContext} {raw es : List Entry} {s : σ}
  {o e e' : Entry} {p : ResolutionPass} {listed : List Path} {r : Resolved}

/-- Whether an entry that a raw entry brought in may be exported: the raw entry is, or the entry is a
library that is not listed itself and that was exported before. -/
def MayExport (listed : List Path) (last : Table Path Entry) (o e : Entry) : Prop :=
  o.exported ∨ e.kind = .library ∧ e.path ∉ listed ∧ ∃ old, last.find? e.path = some old ∧ old.exported

/-- Whether each entry of a result has a raw entry that brought it in, and is exported only if it may
be. -/
structure Resolved.Exports (raw : List Entry) (listed : List Path) (last : Table Path Entry)
    (r : Resolved) : Prop where
  keyed : r.Keyed
  mayExport : ∀ e ∈ r.entries, ∃ o ∈ raw, r.rawOf.find? e.path = some o ∧
    (e.exported → MayExport listed last o e)

theorem exported_carryOver (e old : Entry) : (carryOver e old).exported = old.exported := by
  unfold carryOver
  split <;> split <;> rfl

namespace Resolved

theorem Exports.empty {last : Table Path Entry} : Exports raw listed last {} :=
  ⟨.empty, fun _ he ↦ absurd he List.not_mem_nil⟩

/-- Adding an entry that may be exported if it is. -/
theorem Exports.add {last : Table Path Entry} (h : p.result.Exports raw listed last) (ho : o ∈ raw)
    (he : e.exported → MayExport listed last o e) (c : ResolutionContext) :
    (p.add c o e).result.Exports raw listed last := by
  refine ⟨keyed_add h.keyed c o e, ?_⟩
  rw [result_add]
  split
  · exact h.mayExport
  · next hnew =>
    intro e' he'
    rcases List.mem_append.mp he' with he' | he'
    · have hother : e.path ≠ e'.path :=
        fun heq ↦ hnew ((h.keyed.contains_rawOf e.path).mpr ⟨e', he', heq.symm⟩)
      obtain ⟨o', ho', hraw, hmay⟩ := h.mayExport e' he'
      exact ⟨o', ho', (Table.find?_insert _ _ _ _).trans ((if_neg hother).trans hraw), hmay⟩
    · rw [List.mem_singleton.mp he']
      exact ⟨o, ho, (Table.find?_insert _ _ _ _).trans (if_pos rfl), he⟩

/-- Adding all that a raw entry brings in, if what is behind it is exported only if it is. -/
theorem Exports.addAll (h : p.result.Exports raw listed c.last) (ho : o ∈ raw)
    (hes : ∀ e ∈ es, e.exported → o.exported) :
    (p.addAll c listed o es).result.Exports raw listed c.last := by
  refine addAll_keeps_each h (fun p e he hp ↦ hp.add ho (fun hexported ↦ .inl (hes e he hexported)) c)
    fun p library reference hmem _ _ _ hunlisted hp ↦ ?_
  rw [result_addChained]
  refine hp.add ho ?_ c
  cases hlast : c.last.find? reference.path with
  | none => exact fun hexported ↦ .inl (hes library hmem hexported)
  | some old =>
    dsimp only [Option.elim]
    intro hexported
    rw [exported_carryOver] at hexported
    refine .inr ⟨kind_carryOver _ old, ?_, old, ?_, hexported⟩
    · rw [path_carryOver]
      exact hunlisted
    · rw [path_carryOver]
      exact hlast

end Resolved

/-- What is behind a raw entry is exported only if the raw entry is. -/
theorem exported_of_found (hv : ∀ s e', ((b.variableEntry? o).run s).1 = some e' → e'.exported →
    o.exported) (h : found b c s o = .ok es) (he : e ∈ es) (hexported : e.exported) : o.exported := by
  have hresolveFrom : ∀ e : Entry, (e.resolveFrom c.location).exported = e.exported := by
    intro e
    unfold Entry.resolveFrom
    cases c.location with
    | none => rfl
    | some base =>
      dsimp only
      split <;> rfl
  cases hkind : o.kind with
  | variableRef =>
    obtain ⟨entry, hentry, rfl⟩ := found_variable hkind h
    exact hv s e (List.mem_singleton.mp he ▸ hentry) hexported
  | container =>
    rw [found_container b c s hkind] at h
    split at h
    · obtain rfl := Except.ok.inj h
      obtain ⟨child, -, rfl⟩ := List.mem_map.mp he
      rw [hresolveFrom, Entry.combine] at hexported
      exact (Bool.and_eq_true_iff.mp hexported).2
    · cases h
  | library =>
    unfold found entriesBehind at h
    rw [hkind] at h
    cases h
    rw [List.mem_singleton.mp he, hresolveFrom] at hexported
    exact hexported
  | source =>
    obtain rfl := Except.ok.inj ((found_itself b c s (.inl hkind)).symm.trans h)
    exact List.mem_singleton.mp he ▸ hexported
  | project =>
    obtain rfl := Except.ok.inj ((found_itself b c s (.inr hkind)).symm.trans h)
    exact List.mem_singleton.mp he ▸ hexported

/-- However the look-ups change what is bound, each entry of a resolution has a raw entry that brought it
in. It is exported only if that raw entry is, or if it is a library that another one brought along and was
exported in the last resolution. -/
theorem resolve_exports (hv : ∀ o ∈ raw, ∀ s e', ((b.variableEntry? o).run s).1 = some e' →
    e'.exported → o.exported) (s : σ) :
    ((resolve b c raw).run s).1.result.Exports raw (listedLibraries c raw) c.last := by
  refine resolve_induction
    (motive := fun _ p ↦ p.result.Exports raw (listedLibraries c raw) c.last) .empty
    fun n o p ho hp ↦ ?_
  have hmem : o ∈ raw := List.mem_of_getElem? ho
  cases hfound : found b c (reached b c s (raw.take n)) o with
  | ok es => exact hp.addAll hmem fun e he ↦ exported_of_found (hv o hmem) hfound he
  | error problem => exact ⟨⟨hp.keyed.paths, hp.keyed.rawOf, hp.keyed.roots, hp.keyed.entry⟩, hp.mayExport⟩

end Buildpath
