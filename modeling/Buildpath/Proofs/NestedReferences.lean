import Buildpath.Proofs.Concrete
import Buildpath.Proofs.Model.SourceFolders

/-!
# References in containers

A resolution looks up the variables and containers of the raw buildpath, but not those that a container
lists: it takes them over as they are, restricted by the raw entry. So the entries of a result are concrete
apart from such references (`NestedReference`), which nobody reports, and they are all concrete just if each
of those gave way to another entry at its path. The raw entries themselves are expanded or reported.
-/

namespace Buildpath

open ResolutionPass

/-! ### Paths that get an entry -/

namespace ResolutionPass

variable {c : ResolutionContext} {listed : List Path} {o e : Entry} {es : List Entry} {path : Path}

theorem contains_add (p : ResolutionPass) (c : ResolutionContext) (o e : Entry) (path : Path) :
    (p.add c o e).result.rawOf.contains path ↔ p.result.rawOf.contains path ∨ e.path = path := by
  rw [result_add]
  by_cases hpath : e.path = path
  · subst hpath
    split
    · next hold => simp [hold]
    · simp [Table.contains, Table.find?_insert]
  · split
    · simp [hpath]
    · simp [Table.contains, Table.find?_insert, hpath]

theorem contains_addAll {p : ResolutionPass} (h : p.result.rawOf.contains path) :
    (p.addAll c listed o es).result.rawOf.contains path :=
  addAll_keeps (motive := fun r ↦ r.rawOf.contains path) h fun p e _ hp ↦
    (contains_add p c o e path).mpr (.inl hp)

theorem contains_addFound {p : ResolutionPass} (h : p.result.rawOf.contains path)
    (found : Except Status (List Entry)) :
    (p.addFound c listed o found).result.rawOf.contains path := by
  cases found with
  | ok es => exact contains_addAll h
  | error problem => exact h

theorem addAll_cons (p : ResolutionPass) (c : ResolutionContext) (listed : List Path) (o e : Entry)
    (es : List Entry) : p.addAll c listed o (e :: es) =
      ((if e.kind = .library && follows c o then p.addReferences c listed o e else p).add c o e).addAll
        c listed o es := rfl

/-- All entries behind a raw entry get an entry at their paths. -/
theorem contains_behind (p : ResolutionPass) (he : e ∈ es) :
    (p.addAll c listed o es).result.rawOf.contains e.path := by
  induction es generalizing p with
  | nil => cases he
  | cons first es ih =>
    rw [addAll_cons]
    rcases List.mem_cons.mp he with rfl | he
    · exact contains_addAll ((contains_add _ c o e e.path).mpr (.inr rfl))
    · exact ih _ he

end ResolutionPass

/-! ### Concrete entries and nested references -/

variable {σ : Type} {b : Bindings (StateM σ)} {c : ResolutionContext} {raw es : List Entry} {s : σ}
  {o e : Entry}

theorem Entry.isConcrete_congr {e e' : Entry} (h : e.kind = e'.kind) :
    e.IsConcrete ↔ e'.IsConcrete := by
  rw [IsConcrete, IsConcrete, h]

/-- A variable or a container that the container of a raw entry lists when a resolution reaches the raw
entry, restricted by it. -/
inductive NestedReference (b : Bindings (StateM σ)) (c : ResolutionContext) (raw : List Entry) (s : σ) :
    Nat → Entry → Prop where
  | intro {n : Nat} {o child : Entry} {container : Container} (isAt : raw[n]? = some o)
      (isContainer : o.kind = .container)
      (isBound : ((b.container? o.path).run (reached b c s (raw.take n))).1 = some container)
      (mem : child ∈ container.entries) (isReference : ¬ child.IsConcrete) :
      NestedReference b c raw s n (child.combine (some o))

/-- A variable stands for a project or a library. -/
theorem Variables.isConcrete_entry? {v : Variables} {w : Workspace} (h : o.kind = .variableRef)
    (he : v.entry? w o = some e) : e.IsConcrete := by
  unfold entry? at he
  rw [if_neg (by simp [h])] at he
  obtain ⟨path, -, he⟩ := Option.bind_eq_some_iff.mp he
  split at he
  · cases he
    exact .inr (.inr rfl)
  · cases he
    exact .inr (.inl rfl)

/-- What a container lists is the same reference behind the raw entry, since only libraries are taken from
a location. -/
theorem NestedReference.found {n : Nat} (h : NestedReference b c raw s n e) :
    ∃ o es, raw[n]? = some o ∧ Buildpath.found b c (reached b c s (raw.take n)) o = .ok es ∧ e ∈ es := by
  obtain ⟨isAt, isContainer, isBound, mem, isReference⟩ := h
  refine ⟨_, _, isAt, (found_container b c _ isContainer).trans (by rw [isBound]), ?_⟩
  refine List.mem_map.mpr ⟨_, mem, Entry.resolveFrom_of_ne (fun hlibrary ↦ isReference ?_) _⟩
  exact .inr (.inl hlibrary)

/-- What a raw entry brings in is concrete, or its container lists it as it is. -/
theorem isConcrete_or_nested (hv : ∀ s o e, o.kind = .variableRef →
      ((b.variableEntry? o).run s).1 = some e → e.IsConcrete) {n : Nat}
    (h : BringsIn b c raw s n e) : e.IsConcrete ∨ NestedReference b c raw s n e := by
  obtain ⟨o, es, ho, hfound, hbrought⟩ := h
  cases hbrought with
  | chained _ _ _ _ _ hkind _ => exact .inl (.inr (.inl hkind))
  | behind he =>
    have hitself (hconcrete : o.IsConcrete) : e.IsConcrete := by
      obtain rfl := Except.ok.inj ((found_concrete b c _ hconcrete).symm.trans hfound)
      rw [List.mem_singleton.mp he]
      exact (Entry.isConcrete_congr (Entry.kind_resolveFrom o _)).mpr hconcrete
    cases hkind : o.kind with
    | source => exact .inl (hitself (.inl hkind))
    | library => exact .inl (hitself (.inr (.inl hkind)))
    | project => exact .inl (hitself (.inr (.inr hkind)))
    | variableRef =>
      obtain ⟨entry, hentry, rfl⟩ := found_variable hkind hfound
      rw [List.mem_singleton.mp he]
      exact .inl (hv _ o entry hkind hentry)
    | container =>
      rw [found_container b c _ hkind] at hfound
      split at hfound
      · next container hbound =>
        obtain rfl := Except.ok.inj hfound
        obtain ⟨child, hchild, rfl⟩ := List.mem_map.mp he
        have hsame : ((child.combine (some o)).resolveFrom c.location).kind = child.kind :=
          Entry.kind_resolveFrom _ _
        by_cases hconcrete : child.IsConcrete
        · exact .inl ((Entry.isConcrete_congr hsame).mpr hconcrete)
        · right
          have hother : (child.combine (some o)).kind ≠ .library :=
            fun hlibrary ↦ hconcrete (.inr (.inl hlibrary))
          rw [Entry.resolveFrom_of_ne hother]
          exact .intro ho hkind hbound hchild hconcrete
      · cases hfound

/-- Each raw entry with a binding gives the entries behind it an entry at their paths. -/
theorem resolve_expands (b : Bindings (StateM σ)) (c : ResolutionContext) (raw : List Entry) (s : σ) :
    ∀ n o es, raw[n]? = some o → found b c (reached b c s (raw.take n)) o = .ok es → ∀ e ∈ es,
      ∃ e' ∈ ((resolve b c raw).run s).1.result.entries, e'.path = e.path := by
  intro n o es ho hes e he
  obtain ⟨origins, htraced⟩ := resolve_traced b c raw s
  rw [← htraced.keyed.contains_rawOf]
  have hn : n < raw.length := (List.getElem?_eq_some_iff.mp ho).1
  refine resolve_induction
    (motive := fun k p ↦ n < k → p.result.rawOf.contains e.path) nofun ?_ hn
  intro k o' p ho' hp hlt
  rcases Nat.lt_succ_iff_lt_or_eq.mp hlt with hlt | rfl
  · exact contains_addFound (hp hlt) _
  · obtain rfl := Option.some.inj (ho.symm.trans ho')
    rw [hes]
    exact contains_behind p he

/-! ### Resolutions of a model -/

namespace ModelM

variable (find : Path → String → ModelM (Option Container)) (project : String)

/-- However containers are looked up, the entries of a resolution are concrete apart from the variables and
containers that a container lists. Each raw entry is expanded or reported, and nothing else is reported, so
all entries are concrete just if another entry stands at the path of each nested reference. -/
theorem resolve_concrete_unless_nested (c : ResolutionContext) (raw : List Entry) (m : Model) :
    let b := bindings find project
    let r := ((resolve b c raw).run m).1.result
    (∀ e ∈ r.entries, e.IsConcrete ∨ ∃ n, NestedReference b c raw m n e) ∧
    (∀ n o, raw[n]? = some o →
      (∃ es, found b c (reached b c m (raw.take n)) o = .ok es ∧
        ∀ e ∈ es, ∃ e' ∈ r.entries, e'.path = e.path) ∨
      found b c (reached b c m (raw.take n)) o = .error (o.unbound c.project) ∧ r.unresolved.isSome) ∧
    (∀ problem, r.unresolved = some problem → ∃ n o, raw[n]? = some o ∧
      found b c (reached b c m (raw.take n)) o = .error problem) ∧
    ((∀ e ∈ r.entries, e.IsConcrete) ↔ ∀ n e, NestedReference b c raw m n e →
      ∃ e' ∈ r.entries, e'.path = e.path ∧ e'.IsConcrete) := by
  intro b r
  have haccounts := resolve_accounts b c raw m
  have hexpands := resolve_expands b c raw m
  have hall : ∀ e ∈ r.entries, e.IsConcrete ∨ ∃ n, NestedReference b c raw m n e := by
    intro e he
    obtain ⟨origins, htraced⟩ := resolve_traced b c raw m
    have horigin : e ∈ origins.map Prod.fst := htraced.entries ▸ he
    obtain ⟨x, hx, rfl⟩ := List.mem_map.mp horigin
    have hv : ∀ s o e, o.kind = .variableRef →
        ((b.variableEntry? o).run s).1 = some e → e.IsConcrete :=
      fun s o e hkind he ↦ Variables.isConcrete_entry? hkind he
    exact (isConcrete_or_nested hv (htraced.brought x hx)).imp_right fun h ↦ ⟨x.2, h⟩
  refine ⟨hall, fun n o ho ↦ ?_, fun problem hproblem ↦ ?_, fun h n e hnested ↦ ?_, fun h e he ↦ ?_⟩
  · rcases found_cases b c (reached b c m (raw.take n)) o with ⟨es, hes, -⟩ | ⟨herror, hunbound⟩
    · exact .inl ⟨es, hes, hexpands n o es ho hes⟩
    · refine .inr ⟨herror, Option.isSome_iff_ne_none.mpr fun hnone ↦ ?_⟩
      exact hunbound (haccounts.isOk.mp hnone n o ho)
  · obtain ⟨n, o, ho, hunbound, rfl, -⟩ := haccounts.unresolved problem hproblem
    rcases found_cases b c (reached b c m (raw.take n)) o with ⟨-, -, hbound⟩ | ⟨herror, -⟩
    · exact absurd hbound hunbound
    · exact ⟨n, o, ho, herror⟩
  · obtain ⟨o, es, ho, hes, hmem⟩ := hnested.found
    obtain ⟨e', he', hpath⟩ := hexpands n o es ho hes e hmem
    exact ⟨e', he', hpath, h e' he'⟩
  · rcases hall e he with hconcrete | ⟨n, hnested⟩
    · exact hconcrete
    · -- the entry at the path is the entry itself
      obtain ⟨e', he', hpath, hconcrete⟩ := h n e hnested
      have hsame := (haccounts.keyed.entry e' he').symm.trans (hpath ▸ haccounts.keyed.entry e he)
      exact Option.some.inj hsame ▸ hconcrete

end ModelM

/-- A container that lists another one, which is not bound: the other one is an entry of the result and
nothing is reported. -/
theorem Model.nested_container_remains :
    let r := resolvedWith { kind := .container, path := .parse "Y/y" }
    r.entries = [{ kind := .container, path := .parse "Y/y" }, .source (.parse "/p/src")] ∧
      r.unresolved.isNone ∧ ¬ ∀ e ∈ r.entries, e.IsConcrete := by
  have hentries : (resolvedWith { kind := .container, path := .parse "Y/y" }).entries =
      [{ kind := .container, path := .parse "Y/y" }, .source (.parse "/p/src")] := by
    decide +kernel
  refine ⟨hentries, by decide +kernel, fun hall ↦ ?_⟩
  rcases hall _ (hentries ▸ List.mem_cons_self) with h | h | h <;> cases h

end Buildpath
