import Buildpath.Walk

/-!
# What walks reach

A walk over fixed buildpaths is a fold of folds (`walkOver`). What each turn keeps is kept by the whole
walk (`walkOver_keeps`), and a walk that enters each project once, and deep enough, deals with every
entry that is in sight: with those that it starts from, and with those that a project that it entered
exports (`Account.Kept.walk`). Walks in two monads are related as the readings of buildpaths are
(`walk_related`).
-/

namespace Buildpath

variable {σ : Type} {turn : String → Option Entry → σ → Entry → Turn σ} {res : String → List Entry}
  {project q q' : String} {referring : Option Entry} {es : List Entry} {e : Entry} {s s' s'' : σ}
  {depth : Nat}

/-- A walk where the buildpaths of all projects are known. -/
def walkOver (turn : String → Option Entry → σ → Entry → Turn σ) (res : String → List Entry)
    (depth : Nat) (project : String) (referring : Option Entry) (es : List Entry) (s : σ) : σ :=
  (walk (m := Id) turn (fun q ↦ pure (some (res q))) depth project referring es s).run

/-- What a walk makes of an entry, the projects below it included. -/
def stepOver (turn : String → Option Entry → σ → Entry → Turn σ) (res : String → List Entry)
    (depth : Nat) (project : String) (referring : Option Entry) (s : σ) (e : Entry) : σ :=
  match turn project referring s e with
  | .pass s => s
  | .enter q s => walkOver turn res depth q (some (e.combine referring)) (res q) s

theorem walkOver_succ : walkOver turn res (depth + 1) project referring es s =
    es.foldl (stepOver turn res depth project referring) s := by
  rw [walkOver, walk, List.idRun_foldlM]
  rfl

theorem stepOver_pass (h : turn project referring s e = .pass s') :
    stepOver turn res depth project referring s e = s' := by
  rw [stepOver, h]

theorem stepOver_enter (h : turn project referring s e = .enter q s') :
    stepOver turn res depth project referring s e =
      walkOver turn res depth q (some (e.combine referring)) (res q) s' := by
  rw [stepOver, h]

/-- What each turn of a walk keeps is kept by the walk, where `At` tells which projects are entered. -/
theorem walkOver_keeps {I : σ → Prop} {At : String → Option Entry → Prop}
    (pass : ∀ {q r s e s'}, At q r → e ∈ res q → I s → turn q r s e = .pass s' → I s')
    (enter : ∀ {q r s e q' s'}, At q r → e ∈ res q → I s → turn q r s e = .enter q' s' →
      I s' ∧ At q' (some (e.combine r)))
    (depth : Nat) (hat : At project referring) (hes : es ⊆ res project) (hs : I s) :
    I (walkOver turn res depth project referring es s) := by
  induction depth generalizing project referring es s with
  | zero => exact hs
  | succ depth ih =>
    rw [walkOver_succ]
    refine List.foldlRecOn (motive := I) _ _ hs fun s hs e he ↦ ?_
    cases hturn : turn project referring s e with
    | pass s' => exact stepOver_pass hturn ▸ pass hat (hes he) hs hturn
    | enter q s' =>
      obtain ⟨hs', hat'⟩ := enter hat (hes he) hs hturn
      rw [stepOver_enter hturn]
      exact ih hat' (List.Subset.refl _) hs'

/-- Walks are related if reading buildpaths is, by a relation that steps can be put together in. -/
theorem walk_related {σ : Type} {m m' : Type → Type} [Monad m] [Monad m']
    {turn : String → Option Entry → σ → Entry → Turn σ} {R : {α : Type} → m α → m' α → Prop}
    (hpure : ∀ {α : Type} (a : α), R (pure a) (pure a))
    (hbind : ∀ {α β : Type} {x : m α} {x' : m' α} {f : α → m β} {f' : α → m' β}, R x x' →
      (∀ a, R (f a) (f' a)) → R (x >>= f) (x' >>= f'))
    {entries? : String → m (Option (List Entry))} {entries?' : String → m' (Option (List Entry))}
    (h : ∀ q, R (entries? q) (entries?' q)) (depth : Nat) (project : String) (referring : Option Entry)
    (es : List Entry) (s : σ) : R (walk turn entries? depth project referring es s)
      (walk turn entries?' depth project referring es s) := by
  induction depth generalizing project referring es s with
  | zero => exact hpure s
  | succ depth ih =>
    unfold walk
    induction es generalizing s with
    | nil => exact hpure s
    | cons e es ihes =>
      rw [List.foldlM_cons, List.foldlM_cons]
      refine hbind ?_ ihes
      split
      · exact hpure _
      · exact hbind (h _) fun found ↦ by
          cases found with
          | none => exact hpure _
          | some found => exact ih _ _ _ _

/-- A walk that can read all it needs comes to the same where more can be read. -/
theorem walk_mono {entries? entries?' : String → Option (Option (List Entry))}
    (h : ∀ q x, entries? q = some x → entries?' q = some x) {w : σ}
    (hw : walk turn entries? depth project referring es s = some w) :
    walk turn entries?' depth project referring es s = some w := by
  refine walk_related (R := fun {α} (x y : Option α) ↦ ∀ a, x = some a → y = some a) (fun _ _ hb ↦ hb)
    (fun hx hf b hb ↦ ?_) h depth project referring es s w hw
  obtain ⟨a, ha, hb⟩ := Option.bind_eq_some_iff.mp hb
  exact Option.bind_eq_some_iff.mpr ⟨a, hx a ha, hf a b hb⟩

/-! ### Walks that miss nothing -/

/-- What a walk keeps account of: the identities that it marked, and the entries of projects that it
dealt with. Not every state need be one of a walk. -/
structure Account (σ : Type) where
  marks : σ → List String
  Done : σ → String → Entry → Prop
  Valid : σ → Prop

namespace Account

variable {a : Account σ} {required? : Entry → Option String} {sought : Bool → Entry → Prop}

/-- Whether a later state keeps what an earlier one marked and dealt with. -/
structure Grows (a : Account σ) (s s' : σ) : Prop where
  marks : a.marks s ⊆ a.marks s'
  done : ∀ {q e}, a.Done s q e → a.Done s' q e

theorem Grows.refl (s : σ) : a.Grows s s := ⟨List.Subset.refl _, id⟩

theorem Grows.trans (h : a.Grows s s') (h' : a.Grows s' s'') : a.Grows s s'' :=
  ⟨List.Subset.trans h.marks h'.marks, h'.done ∘ h.done⟩

/-- Whether the turns of a walk deal with the entries that are sought, where it matters whether the
project of the entry is below another one. A project is entered when its entry is met for the first
time, and only then an identity is marked that leads to a project. -/
structure Kept (a : Account σ) (turn : String → Option Entry → σ → Entry → Turn σ)
    (required? : Entry → Option String) (sought : Bool → Entry → Prop) : Prop where
  pass : ∀ {q r s e s'}, a.Valid s → turn q r s e = .pass s' → a.Valid s' ∧ a.Grows s s' ∧
    (sought r.isSome e → a.Done s' q e) ∧
    ∀ id ∈ a.marks s', id ∈ a.marks s ∨ ∀ e' q', required? e' = some q' → e'.rootId ≠ id
  enter : ∀ {q r s e q' s'}, a.Valid s → turn q r s e = .enter q' s' → a.Valid s' ∧ a.Grows s s' ∧
    a.Done s' q e ∧ required? e = some q' ∧ e.rootId ∉ a.marks s ∧
    ∀ id, id ∈ a.marks s' ↔ id = e.rootId ∨ id ∈ a.marks s

/-- Whether identities tell apart the projects that entries lead to, and lie in a list. -/
structure Identifies (required? : Entry → Option String) (res : String → List Entry)
    (ids : List String) : Prop where
  same : ∀ {p p' e e' q q'}, e ∈ res p → e' ∈ res p' → required? e = some q →
    required? e' = some q' → e.rootId = e'.rootId → q = q'
  mem : ∀ {p e q}, e ∈ res p → required? e = some q → e.rootId ∈ ids

/-- Whether everything below an identity is dealt with, if it leads to a project. -/
def Closed (a : Account σ) (required? : Entry → Option String) (sought : Bool → Entry → Prop)
    (res : String → List Entry) (s : σ) (id : String) : Prop :=
  ∀ {p e q}, e ∈ res p → required? e = some q → e.rootId = id →
    ∀ e' ∈ res q, sought true e' → a.Done s q e'

theorem Closed.mono {id : String} (h : a.Closed required? sought res s id) (hg : a.Grows s s') :
    a.Closed required? sought res s' id :=
  fun he hq hid e' he' hsought ↦ hg.done (h he hq hid e' he' hsought)

/-- What a walk owes once it went through some entries. -/
structure Covers (a : Account σ) (required? : Entry → Option String) (sought : Bool → Entry → Prop)
    (res : String → List Entry) (project : String) (below : Bool) (es : List Entry) (s s' : σ) : Prop where
  valid : a.Valid s'
  grows : a.Grows s s'
  done : ∀ e ∈ es, sought below e → a.Done s' project e
  closed : ∀ id ∈ a.marks s', id ∈ a.marks s ∨ a.Closed required? sought res s' id

/-- How many of some identities are not marked. -/
def remaining (a : Account σ) (ids : List String) (s : σ) : Nat := ids.countP (· ∉ a.marks s)

theorem remaining_le_of_grows {ids : List String} (h : a.Grows s s') :
    a.remaining ids s' ≤ a.remaining ids s := by
  apply List.countP_mono_left
  intro id _ hid
  simp only [decide_eq_true_eq] at hid ⊢
  exact fun hm ↦ hid (h.marks hm)

theorem remaining_lt_of_marked {ids : List String} {id : String} (hid : id ∈ ids)
    (hnew : id ∉ a.marks s) (hmarks : ∀ id', id' ∈ a.marks s' ↔ id' = id ∨ id' ∈ a.marks s) :
    a.remaining ids s' < a.remaining ids s := by
  have hfilter : ids.filter (· ∉ a.marks s') = (ids.filter (· ∉ a.marks s)).filter (· ≠ id) := by
    rw [List.filter_filter]
    congr 1
    funext id'
    simp [hmarks]
  rw [remaining, remaining, List.countP_eq_length_filter, List.countP_eq_length_filter, hfilter,
    List.length_filter_lt_length_iff_exists]
  exact ⟨id, by simp [hid, hnew], by simp⟩

theorem Covers.nil {below : Bool} (h : a.Valid s) :
    a.Covers required? sought res project below [] s s :=
  ⟨h, .refl s, fun _ he ↦ absurd he List.not_mem_nil, fun _ ↦ .inl⟩

theorem Covers.cons {below : Bool} (h : a.Covers required? sought res project below [e] s s')
    (h' : a.Covers required? sought res project below es s' s'') :
    a.Covers required? sought res project below (e :: es) s s'' := by
  refine ⟨h'.valid, h.grows.trans h'.grows, fun e' he' hsought ↦ ?_, fun id hid ↦ ?_⟩
  · rcases List.mem_cons.mp he' with rfl | he'
    · exact h'.grows.done (h.done _ List.mem_cons_self hsought)
    · exact h'.done _ he' hsought
  · rcases h'.closed id hid with hid | hclosed
    · exact (h.closed id hid).imp_right fun hclosed ↦ hclosed.mono h'.grows
    · exact .inr hclosed

/-- One entry is dealt with, and what is below it, if the walks below do what they owe. -/
private theorem Kept.step {ids : List String} (hk : a.Kept turn required? sought)
    (hi : Identifies required? res ids)
    (hwalk : ∀ {q r s}, a.Valid s → a.remaining ids s < depth →
      a.Covers required? sought res q r.isSome (res q) s (walkOver turn res depth q r (res q) s))
    (hs : a.Valid s) (hd : a.remaining ids s ≤ depth) (he : e ∈ res project) :
    a.Covers required? sought res project referring.isSome [e] s
      (stepOver turn res depth project referring s e) := by
  cases hturn : turn project referring s e with
  | pass s' =>
    obtain ⟨hs', hg, hdone, hmarks⟩ := hk.pass hs hturn
    rw [stepOver_pass hturn]
    refine ⟨hs', hg, fun e' he' ↦ List.mem_singleton.mp he' ▸ hdone, fun id hid ↦ ?_⟩
    refine (hmarks id hid).imp_right fun hno p e' q' _ hq' hid' ↦ ?_
    exact absurd hid' (hno e' q' hq')
  | enter q s' =>
    obtain ⟨hs', hg, hdone, hq, hnew, hmarks⟩ := hk.enter hs hturn
    have hlt := remaining_lt_of_marked (hi.mem he hq) hnew hmarks
    have hw : a.Covers required? sought res q true (res q) s' _ :=
      hwalk (r := some (e.combine referring)) hs' (by omega)
    rw [stepOver_enter hturn]
    refine ⟨hw.valid, hg.trans hw.grows,
      fun e' he' _ ↦ List.mem_singleton.mp he' ▸ hw.grows.done hdone, fun id hid ↦ ?_⟩
    rcases hw.closed id hid with hid | hclosed
    · rcases (hmarks id).mp hid with rfl | hold
      · -- the identity that was just marked leads nowhere but to the project that was entered
        refine .inr fun he' hq' hid' e'' he'' hsought ↦ ?_
        obtain rfl := hi.same he he' hq hq' hid'.symm
        exact hw.done e'' he'' hsought
      · exact .inl hold
    · exact .inr hclosed

/-- A walk that is deep enough deals with every entry that it starts from, and with every entry that a
project that it enters exports. -/
theorem Kept.walk {ids : List String} (hk : a.Kept turn required? sought)
    (hi : Identifies required? res ids) (hs : a.Valid s) (hd : a.remaining ids s < depth)
    (hes : es ⊆ res project) :
    a.Covers required? sought res project referring.isSome es s
      (walkOver turn res depth project referring es s) := by
  induction depth generalizing project referring es s with
  | zero => exact absurd hd (Nat.not_lt_zero _)
  | succ depth ih =>
    rw [walkOver_succ]
    induction es generalizing s with
    | nil => exact .nil hs
    | cons e es ihes =>
      obtain ⟨he, hes⟩ := List.cons_subset.mp hes
      have hstep : a.Covers required? sought res project referring.isSome [e] s
          (stepOver turn res depth project referring s e) :=
        hk.step hi (fun hs hd ↦ ih hs hd (List.Subset.refl _)) hs (Nat.le_of_lt_succ hd) he
      have hle : a.remaining ids _ ≤ a.remaining ids s := remaining_le_of_grows hstep.grows
      exact hstep.cons (ihes hstep.valid (Nat.lt_of_le_of_lt hle hd) hes)

end Account

end Buildpath
