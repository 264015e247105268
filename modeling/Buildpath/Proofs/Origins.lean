import Buildpath.Proofs.Resolution

/-!
# Origins of entries

A resolution looks up the bindings of its raw entries in order, and each look-up may change what the
next one finds: it may run an initializer. Whatever is found, each entry of the result has one raw
entry that brought it in, the parts of the result are about the same entries, and the problem that it
records is that of the first raw entry without a binding when it is reached (`resolve_accounts`).
-/

namespace Buildpath

open ResolutionPass

variable {σ : Type} {b : Bindings (StateM σ)} {c : ResolutionContext} {raw : List Entry} {s : σ}

/-! ### Raw entries with and without bindings -/

/-- Whether a raw entry has a binding in a state. Only variables and containers need one. -/
def Bindings.Binds (b : Bindings (StateM σ)) (s : σ) (e : Entry) : Prop :=
  match e.kind with
  | .variableRef => ((b.variableEntry? e).run s).1.isSome
  | .container => ((b.container? e.path).run s).1.isSome
  | .library | .source | .project => True

/-- The problem of a raw entry without a binding. -/
def Entry.unbound (project : String) (e : Entry) : Status :=
  if e.kind = .variableRef then .unboundVariable project e.path else .unboundContainer project e.path

/-- What the look-up for a raw entry comes to in a state. -/
def found (b : Bindings (StateM σ)) (c : ResolutionContext) (s : σ) (e : Entry) :
    Except Status (List Entry) :=
  ((entriesBehind b c e).run s).1

/-- The state that the look-ups for some raw entries lead to. -/
def reached (b : Bindings (StateM σ)) (c : ResolutionContext) (s : σ) (raw : List Entry) : σ :=
  raw.foldl (fun s e ↦ ((entriesBehind b c e).run s).2) s

/-- There are entries behind a raw entry if it has a binding, and its problem otherwise. -/
theorem found_cases (b : Bindings (StateM σ)) (c : ResolutionContext) (s : σ) (e : Entry) :
    (∃ entries, found b c s e = .ok entries ∧ b.Binds s e) ∨
      found b c s e = .error (e.unbound c.project) ∧ ¬ b.Binds s e := by
  unfold found entriesBehind Bindings.Binds Entry.unbound
  cases e.kind with
  | variableRef =>
    dsimp only
    rw [StateT.run_bind, if_pos rfl]
    rcases (b.variableEntry? e).run s with ⟨_ | entry, s'⟩
    · exact .inr ⟨rfl, nofun⟩
    · exact .inl ⟨[entry], rfl, rfl⟩
  | container =>
    dsimp only
    rw [StateT.run_bind, if_neg nofun]
    rcases (b.container? e.path).run s with ⟨_ | container, s'⟩
    · exact .inr ⟨rfl, nofun⟩
    · exact .inl ⟨_, rfl, rfl⟩
  | library => exact .inl ⟨_, rfl, trivial⟩
  | source => exact .inl ⟨_, rfl, trivial⟩
  | project => exact .inl ⟨_, rfl, trivial⟩

/-- Source folders and projects stand for themselves. -/
theorem found_itself (b : Bindings (StateM σ)) (c : ResolutionContext) (s : σ) {e : Entry}
    (h : e.kind = .source ∨ e.kind = .project) : found b c s e = .ok [e] := by
  unfold found entriesBehind
  rcases h with h | h <;> rw [h] <;> rfl

/-- The entries behind a container entry are those of its container. -/
theorem found_container (b : Bindings (StateM σ)) (c : ResolutionContext) (s : σ)
    {o : Entry} (h : o.kind = .container) : found b c s o =
      match ((b.container? o.path).run s).1 with
      | some container =>
        .ok (container.entries.map fun child ↦ (child.combine (some o)).resolveFrom c.location)
      | none => .error (.unboundContainer c.project o.path) := by
  unfold found entriesBehind
  rw [h]
  dsimp only
  rw [StateT.run_bind]
  rcases (b.container? o.path).run s with ⟨_ | container, s'⟩ <;> rfl

/-- What a variable entry stands for is what its variable is bound to. -/
theorem found_variable {o : Entry} {es : List Entry} (h : o.kind = .variableRef)
    (hes : found b c s o = .ok es) :
    ∃ e, ((b.variableEntry? o).run s).1 = some e ∧ es = [e] := by
  unfold found entriesBehind at hes
  rw [h] at hes
  dsimp only at hes
  rw [StateT.run_bind] at hes
  rcases hentry : (b.variableEntry? o).run s with ⟨_ | e, s'⟩
  · rw [hentry] at hes
    cases hes
  · rw [hentry] at hes
    cases hes
    exact ⟨e, rfl, rfl⟩

/-! ### Resolutions, entry by entry -/

/-- Takes a raw entry into a resolution, whose look-ups led to a state. -/
def takeOn (b : Bindings (StateM σ)) (c : ResolutionContext) (listed : List Path)
    (ps : ResolutionPass × σ) (e : Entry) : ResolutionPass × σ :=
  (ps.1.addFound c listed e (found b c ps.2 e), ((entriesBehind b c e).run ps.2).2)

/-- A resolution takes its raw entries in order, each in the state that those before it lead to. -/
theorem run_resolve_state (b : Bindings (StateM σ)) (c : ResolutionContext) (raw : List Entry) (s : σ) :
    (resolve b c raw).run s = raw.foldl (takeOn b c (listedLibraries c raw)) ({}, s) := by
  unfold resolve
  generalize listedLibraries c raw = listed
  generalize ({} : ResolutionPass) = p
  induction raw generalizing p s with
  | nil => rfl
  | cons e raw ih =>
    rw [List.foldlM_cons, StateT.run_bind, StateT.run_bind, List.foldl_cons, takeOn, ← ih]
    unfold found
    rcases (entriesBehind b c e).run s with ⟨_ | entries, s'⟩ <;> rfl

/-- What holds of the empty pass and is kept by each raw entry holds of a resolution. -/
theorem resolve_induction {motive : Nat → ResolutionPass → Prop} (start : motive 0 {})
    (step : ∀ n e p, raw[n]? = some e → motive n p → motive (n + 1)
      (p.addFound c (listedLibraries c raw) e (found b c (reached b c s (raw.take n)) e))) :
    motive raw.length ((resolve b c raw).run s).1 := by
  rw [run_resolve_state]
  suffices h : ∀ n ≤ raw.length, ∃ p, motive n p ∧
      (raw.take n).foldl (takeOn b c (listedLibraries c raw)) ({}, s) =
        (p, reached b c s (raw.take n)) by
    obtain ⟨p, hp, hrun⟩ := h raw.length (Nat.le_refl _)
    rw [List.take_length] at hrun
    rw [hrun]
    exact hp
  intro n hn
  induction n with
  | zero => exact ⟨{}, start, rfl⟩
  | succ n ih =>
    obtain ⟨p, hp, hrun⟩ := ih (Nat.le_of_succ_le hn)
    have hlt : n < raw.length := hn
    have he : raw[n]? = some raw[n] := List.getElem?_eq_getElem hlt
    refine ⟨_, step n _ p he hp, ?_⟩
    rw [List.take_add_one, he, Option.toList_some, List.foldl_append, hrun, reached, reached,
      List.foldl_append]
    rfl

/-! ### Where entries come from -/

/-- Whether each entry of a result is assigned a position in the raw buildpath, in order and before a
position `n`, such that the raw entry there is the one that the result has for it and brought it in. -/
structure Resolved.Traced (raw : List Entry) (brought : Nat → Entry → Prop) (n : Nat) (r : Resolved)
    (origins : List (Entry × Nat)) : Prop where
  keyed : r.Keyed
  entries : origins.map Prod.fst = r.entries
  ordered : (origins.map Prod.snd).Pairwise (· ≤ ·)
  before : ∀ x ∈ origins, x.2 < n
  rawOf : ∀ x ∈ origins, ∃ o, raw[x.2]? = some o ∧ r.rawOf.find? x.1.path = some o
  brought : ∀ x ∈ origins, brought x.2 x.1

namespace Resolved

variable {brought : Nat → Entry → Prop} {n : Nat} {r : Resolved} {p : ResolutionPass}
  {origins : List (Entry × Nat)}

theorem Traced.empty : Traced raw brought n {} [] :=
  have hnone : ∀ {q : Entry × Nat → Prop}, ∀ x ∈ [], q x := fun _ hx ↦ absurd hx List.not_mem_nil
  ⟨.empty, rfl, .nil, hnone, hnone, hnone⟩

theorem Traced.mono {n' : Nat} (h : r.Traced raw brought n origins) (hn : n ≤ n') :
    r.Traced raw brought n' origins :=
  { h with before := fun x hx ↦ Nat.lt_of_lt_of_le (h.before x hx) hn }

/-- An entry that the last raw entry brings in comes from it, unless its path has an entry. -/
theorem Traced.add {o e : Entry} (h : p.result.Traced raw brought (n + 1) origins) (ho : raw[n]? = some o)
    (hb : brought n e) (c : ResolutionContext) : ∃ origins', origins <+: origins' ∧
      (p.add c o e).result.Traced raw brought (n + 1) origins' ∧
      ∃ x ∈ origins', x.1.path = e.path := by
  have hkeyed := keyed_add h.keyed c o e
  rw [result_add] at hkeyed ⊢
  split at hkeyed
  · next hold =>
    rw [if_pos hold]
    obtain ⟨e', he', hpath⟩ := (h.keyed.contains_rawOf e.path).mp hold
    rw [← h.entries] at he'
    obtain ⟨x, hx, rfl⟩ := List.mem_map.mp he'
    exact ⟨origins, List.prefix_refl _, h, x, hx, hpath⟩
  · next hnew =>
    rw [if_neg hnew]
    refine ⟨origins ++ [(e, n)], List.prefix_append _ _, ?_,
      (e, n), List.mem_append_right _ List.mem_cons_self, rfl⟩
    have hlast : ∀ {q : Entry × Nat → Prop}, q (e, n) → (∀ x ∈ origins, q x) →
        ∀ x ∈ origins ++ [(e, n)], q x := by
      intro q hq hqs x hx
      rcases List.mem_append.mp hx with hx | hx
      · exact hqs x hx
      · exact List.mem_singleton.mp hx ▸ hq
    refine ⟨hkeyed, ?_, ?_, hlast (Nat.lt_succ_self n) h.before, hlast ⟨o, ho, ?_⟩ fun x hx ↦ ?_,
      hlast hb h.brought⟩
    · rw [List.map_append, h.entries]
      rfl
    · rw [List.map_append, List.pairwise_append]
      refine ⟨h.ordered, List.pairwise_singleton _ _, fun i hi j hj ↦ ?_⟩
      obtain ⟨x, hx, rfl⟩ := List.mem_map.mp hi
      rw [List.mem_singleton.mp hj]
      exact Nat.le_of_lt_succ (h.before x hx)
    · rw [Table.find?_insert, if_pos rfl]
    · obtain ⟨o', ho', hraw⟩ := h.rawOf x hx
      refine ⟨o', ho', ?_⟩
      rw [Table.find?_insert, if_neg, hraw]
      intro heq
      rw [heq, Table.contains, hraw] at hnew
      exact hnew rfl

/-- All that the last raw entry brings in comes from it or has an entry. -/
theorem Traced.addAll {o : Entry} {es : List Entry} (h : p.result.Traced raw brought n origins)
    (ho : raw[n]? = some o) (c : ResolutionContext) (listed : List Path)
    (hb : ∀ e, BroughtIn c listed o es e → brought n e) :
    ∃ origins', origins <+: origins' ∧
      (p.addAll c listed o es).result.Traced raw brought (n + 1) origins' := by
  refine addAll_keeps (motive := fun r ↦ ∃ origins', origins <+: origins' ∧
    r.Traced raw brought (n + 1) origins') ⟨origins, List.prefix_refl _, h.mono n.le_succ⟩ ?_
  rintro p e he ⟨origins₁, hprefix₁, h₁⟩
  obtain ⟨origins₂, hprefix₂, h₂, -⟩ := h₁.add ho (hb e he) c
  exact ⟨origins₂, hprefix₁.trans hprefix₂, h₂⟩

end Resolved

/-- Whether the raw entry at a position has a binding when a resolution reaches it and brings in an
entry. -/
def BringsIn (b : Bindings (StateM σ)) (c : ResolutionContext) (raw : List Entry) (s : σ) (n : Nat)
    (e : Entry) : Prop :=
  ∃ o es, raw[n]? = some o ∧ found b c (reached b c s (raw.take n)) o = .ok es ∧
    BroughtIn c (listedLibraries c raw) o es e

/-- One more raw entry assigns the entries that it adds to itself. -/
theorem traced_addFound {p : ResolutionPass} {n : Nat} {o : Entry} {origins : List (Entry × Nat)}
    (h : p.result.Traced raw (BringsIn b c raw s) n origins) (ho : raw[n]? = some o) :
    ∃ origins', origins <+: origins' ∧
      (p.addFound c (listedLibraries c raw) o
        (found b c (reached b c s (raw.take n)) o)).result.Traced raw (BringsIn b c raw s) (n + 1)
          origins' := by
  rcases found_cases b c (reached b c s (raw.take n)) o with ⟨es, hes, -⟩ | ⟨hproblem, -⟩
  · rw [hes]
    exact h.addAll ho c _ fun e he ↦ ⟨o, es, ho, hes, he⟩
  · rw [hproblem]
    obtain ⟨⟨hpaths, hrawOf, hroots, hentry⟩, hentries, hordered, hbefore, hraw, hbrought⟩ :=
      h.mono n.le_succ
    exact ⟨origins, List.prefix_refl _, ⟨hpaths, hrawOf, hroots, hentry⟩, hentries, hordered, hbefore,
      hraw, hbrought⟩

/-- Every resolution assigns its entries to raw entries that brought them in. -/
theorem resolve_traced (b : Bindings (StateM σ)) (c : ResolutionContext) (raw : List Entry) (s : σ) :
    ∃ origins,
      ((resolve b c raw).run s).1.result.Traced raw (BringsIn b c raw s) raw.length origins := by
  refine resolve_induction (motive := fun n p ↦ ∃ origins,
    p.result.Traced raw (BringsIn b c raw s) n origins) ⟨[], .empty⟩ ?_
  rintro n o p ho ⟨origins, h⟩
  obtain ⟨origins', -, h'⟩ := traced_addFound h ho
  exact ⟨origins', h'⟩

/-! ### The first raw entry without a binding -/

/-- Whether a problem is that of the first raw entry before a position without a binding; without a
problem, all of them have one. -/
def FirstUnbound (project : String) (raw : List Entry) (binds : Nat → Entry → Prop) (n : Nat) :
    Option Status → Prop
  | none => ∀ i o, i < n → raw[i]? = some o → binds i o
  | some problem => ∃ i o, i < n ∧ raw[i]? = some o ∧ ¬ binds i o ∧ problem = o.unbound project ∧
      ∀ j o', j < i → raw[j]? = some o' → binds j o'

namespace ResolutionPass

theorem unresolved_addAll (p : ResolutionPass) (c : ResolutionContext) (listed : List Path)
    (o : Entry) (es : List Entry) :
    (p.addAll c listed o es).result.unresolved = p.result.unresolved := by
  refine addAll_keeps (motive := fun r ↦ r.unresolved = p.result.unresolved) rfl fun p' e _ hp ↦ ?_
  rw [result_add]
  split <;> exact hp

end ResolutionPass

theorem firstUnbound_succ {project : String} {binds : Nat → Entry → Prop} {n : Nat}
    {problem? : Option Status} {o : Entry} (h : FirstUnbound project raw binds n problem?)
    (ho : raw[n]? = some o) (hbinds : problem? = none → binds n o) :
    FirstUnbound project raw binds (n + 1) problem? := by
  cases problem? with
  | none =>
    intro i o' hi ho'
    rcases Nat.lt_succ_iff_lt_or_eq.mp hi with hi | rfl
    · exact h i o' hi ho'
    · obtain rfl := Option.some.inj (ho.symm.trans ho')
      exact hbinds rfl
  | some problem =>
    obtain ⟨i, o', hi, hrest⟩ := h
    exact ⟨i, o', Nat.lt_succ_of_lt hi, hrest⟩

theorem resolve_firstUnbound (b : Bindings (StateM σ)) (c : ResolutionContext) (raw : List Entry)
    (s : σ) : FirstUnbound c.project raw (fun i o ↦ b.Binds (reached b c s (raw.take i)) o) raw.length
      ((resolve b c raw).run s).1.result.unresolved := by
  refine resolve_induction (motive := fun n p ↦ FirstUnbound c.project raw
    (fun i o ↦ b.Binds (reached b c s (raw.take i)) o) n p.result.unresolved)
    (fun i o hi ↦ absurd hi (Nat.not_lt_zero i)) fun n o p ho hp ↦ ?_
  rcases found_cases b c (reached b c s (raw.take n)) o with ⟨es, hes, hbinds⟩ | ⟨hproblem, hbinds⟩
  · rw [hes, addFound, unresolved_addAll]
    exact firstUnbound_succ hp ho fun _ ↦ hbinds
  · rw [hproblem]
    change FirstUnbound _ _ _ _ (some (p.result.unresolved.getD _))
    cases hfirst : p.result.unresolved with
    | none =>
      -- everything before has a binding, so this is the first entry without one
      rw [hfirst] at hp
      exact ⟨n, o, Nat.lt_succ_self n, ho, hbinds, rfl, hp⟩
    | some problem =>
      rw [hfirst] at hp
      exact firstUnbound_succ hp ho fun hnone ↦ absurd hnone (Option.some_ne_none _)

/-! ### Results as a whole -/

/-- Whether a result accounts for a raw buildpath, given at which positions of it there are bindings:
its tables are about the paths of its entries, the entries come from raw entries with bindings in
order, and the problem is that of the first raw entry without one. -/
structure Resolved.Accounts (project : String) (raw : List Entry) (binds : Nat → Entry → Prop)
    (r : Resolved) : Prop where
  keyed : r.Keyed
  rawOf : ∀ path o, r.rawOf.find? path = some o → o ∈ raw
  origins : ∃ origins : List (Entry × Nat), origins.map Prod.fst = r.entries ∧
    (origins.map Prod.snd).Pairwise (· ≤ ·) ∧
    ∀ x ∈ origins, ∃ o, raw[x.2]? = some o ∧ r.rawOf.find? x.1.path = some o ∧ binds x.2 o
  isOk : r.unresolved = none ↔ ∀ i o, raw[i]? = some o → binds i o
  unresolved : ∀ problem, r.unresolved = some problem → ∃ i o, raw[i]? = some o ∧ ¬ binds i o ∧
    problem = o.unbound project ∧ ∀ j o', j < i → raw[j]? = some o' → binds j o'

/-- Every resolution accounts for its raw buildpath, with the bindings that are there when it reaches
each of the raw entries. -/
theorem resolve_accounts (b : Bindings (StateM σ)) (c : ResolutionContext) (raw : List Entry) (s : σ) :
    ((resolve b c raw).run s).1.result.Accounts c.project raw
      fun i o ↦ b.Binds (reached b c s (raw.take i)) o := by
  obtain ⟨origins, h⟩ := resolve_traced b c raw s
  have hfirst := resolve_firstUnbound b c raw s
  generalize ((resolve b c raw).run s).1.result = r at h hfirst ⊢
  refine ⟨h.keyed, fun path o hpath ↦ ?_, ⟨origins, h.entries, h.ordered, fun x hx ↦ ?_⟩, ⟨?_, ?_⟩, ?_⟩
  · have hcontains : r.rawOf.contains path := Option.isSome_iff_exists.mpr ⟨o, hpath⟩
    obtain ⟨e, he, rfl⟩ := (h.keyed.contains_rawOf path).mp hcontains
    rw [← h.entries] at he
    obtain ⟨x, hx, rfl⟩ := List.mem_map.mp he
    obtain ⟨o', ho', hraw⟩ := h.rawOf x hx
    obtain rfl := Option.some.inj (hraw.symm.trans hpath)
    exact List.mem_of_getElem? ho'
  · obtain ⟨o, ho, hraw⟩ := h.rawOf x hx
    obtain ⟨o', es, ho', hfound, -⟩ := h.brought x hx
    obtain rfl := Option.some.inj (ho.symm.trans ho')
    refine ⟨o, ho, hraw, ?_⟩
    rcases found_cases b c (reached b c s (raw.take x.2)) o with ⟨-, -, hbinds⟩ | ⟨hproblem, -⟩
    · exact hbinds
    · rw [hfound] at hproblem
      cases hproblem
  · intro hnone i o ho
    rw [hnone] at hfirst
    exact hfirst i o (List.getElem?_eq_some_iff.mp ho).1 ho
  · intro hall
    cases hu : r.unresolved with
    | none => rfl
    | some problem =>
      rw [hu] at hfirst
      obtain ⟨i, o, -, ho, hbinds, -⟩ := hfirst
      exact absurd (hall i o ho) hbinds
  · intro problem hproblem
    rw [hproblem] at hfirst
    obtain ⟨i, o, -, hrest⟩ := hfirst
    exact ⟨i, o, hrest⟩

end Buildpath
