import Buildpath.Proofs.Model.Steady
import Mathlib.Data.List.Induction

/-!
# Histories of bindings

What happens to the bindings of containers while scripts run: look-ups are answered, initializers begin
and end, one inside another, and calls change bindings. An event has to follow from what happened before
it (`Follows`); then a binding is in progress only while its initializer is running, and a container is
bound or frozen only under a key that it was put or made for (`Legal.sound`).
-/

namespace Buildpath

variable {r r' : Registry} {path : Path} {project : String} {key : BindingKey} {c : Container}

/-! ### Events -/

/-- What happens to the bindings of containers. -/
inductive RegistryEvent where
  /-- An initializer begins to make a container. -/
  | begun (path : Path) (project : String)
  /-- The initializer that began last ends with what it made. -/
  | ended (path : Path) (project : String) (made : Option Container)
  /-- A look-up is answered. -/
  | answered (path : Path) (project : String) (answer : Option Container)
  /-- Any other call is answered. -/
  | called (call : Call)

/-- What a look-up answers where there is a binding. -/
def Binding.answer (path : Path) : Binding → Container
  | inProgress => .placeholder path
  | bound c => c

/-- What a call other than a look-up or a resolution makes of the bindings. -/
def Call.effect (r : Registry) : Call → Registry
  | put path items => r.put path items
  | reset path project => r.reset path project
  | removeProject project => r.removeProject project
  | freeze => r.freeze
  | find .. | peek .. | previous .. | containers _ | resolve _ | setRaw .. | note _ => r

/-- Whether an answer to a call other than a look-up or a resolution is what the bindings tell. -/
def Call.Told (r : Registry) : (call : Call) → call.Answer → Prop
  | peek path project, answer => answer = r.peek? path project
  | previous path project, answer => answer = r.previous? path project
  | containers project, answer => answer = r.containersOf project
  | put .., _ | reset .., _ | removeProject _, _ | freeze, _ | setRaw .., _ | note _, _ => True
  | find .., _ | resolve _, _ => False

namespace Registry

/-- Binds what an initializer made, unless the key was bound while it ran. -/
def settle (r : Registry) (path : Path) (project : String) (made : Option Container) : Registry :=
  match r.peek? path project with
  | some _ => r
  | none => r.set path project made

/-- The first container that a key was bound to counts. -/
theorem peek?_settle (r : Registry) (path : Path) (project : String) (made : Option Container) :
    (r.settle path project made).peek? path project = (r.peek? path project).or made := by
  unfold settle
  cases h : r.peek? path project with
  | some c => exact h
  | none => exact peek?_set r path project made

/-- What an initializer that ends leaves under its key is not in progress, and the other keys keep what
they have. -/
theorem find?_settle_inProgress {made : Option Container}
    (h : (r.settle path project made).bindings.find? key = some .inProgress) :
    key ≠ (project, path) ∧ r.bindings.find? key = some .inProgress := by
  unfold settle at h
  cases hpeek : r.peek? path project with
  | some c =>
    rw [hpeek] at h
    refine ⟨?_, h⟩
    rintro rfl
    rw [find?_of_peek? hpeek] at h
    cases h
  | none =>
    rw [hpeek] at h
    dsimp only at h
    rw [find?_set] at h
    split at h
    · cases made <;> cases h
    · next hother => exact ⟨Ne.symm hother, h⟩

/-- What an initializer made is the only container that may be bound when it ends. -/
theorem mem_bindings_settle {made : Option Container} {binding : Binding}
    (h : (key, binding) ∈ (r.settle path project made).bindings.records) :
    (∃ c, made = some c ∧ key = (project, path) ∧ binding = .bound c) ∨
      (key, binding) ∈ r.bindings.records := by
  unfold settle at h
  split at h
  · exact .inr h
  · cases made with
    | none => exact .inr (List.mem_filter.mp h).1
    | some c =>
      rcases Table.mem_records_insert h with h | h
      · obtain ⟨rfl, rfl⟩ := Prod.mk.inj h
        exact .inl ⟨c, rfl, rfl, rfl⟩
      · exact .inr h

theorem previous_settle (r : Registry) (path : Path) (project : String) (made : Option Container) :
    (r.settle path project made).previous = r.previous := by
  unfold settle
  split
  · rfl
  · cases made <;> rfl

theorem find?_removeProject (r : Registry) (project : String) (key : BindingKey) :
    (r.removeProject project).bindings.find? key =
      if key.1 ≠ project then r.bindings.find? key else none := by
  rw [removeProject, Table.find?_filterKeys]
  simp

/-- A binding that is put is that of a container of the list, or was there before. -/
theorem mem_bindings_put {containers : List (String × Option Container)} {binding : Binding}
    (h : (key, binding) ∈ (r.put path containers).bindings.records) :
    (∃ c, binding = .bound c ∧ key.2 = path ∧ (key.1, some c) ∈ containers) ∨
      (key, binding) ∈ r.bindings.records := by
  induction containers generalizing r with
  | nil => exact .inr h
  | cons item containers ih =>
    rcases ih h with ⟨c, hc, hpath, hmem⟩ | h
    · exact .inl ⟨c, hc, hpath, List.mem_cons_of_mem item hmem⟩
    · obtain ⟨other, container⟩ := item
      cases container with
      | none => exact .inr (List.mem_filter.mp h).1
      | some c =>
        rcases Table.mem_records_insert h with h | h
        · obtain ⟨rfl, rfl⟩ := Prod.mk.inj h
          exact .inl ⟨c, rfl, rfl, List.mem_cons_self⟩
        · exact .inr h

/-- Putting containers leaves nothing in progress that was not. -/
theorem find?_put_inProgress {containers : List (String × Option Container)}
    (h : (r.put path containers).bindings.find? key = some .inProgress) :
    r.bindings.find? key = some .inProgress := by
  induction containers generalizing r with
  | nil => exact h
  | cons item containers ih =>
    have hset := ih h
    rw [find?_set] at hset
    split at hset
    · cases hcontainer : item.2 <;> rw [hcontainer] at hset <;> cases hset
    · exact hset

theorem previous_put (r : Registry) (path : Path) (containers : List (String × Option Container)) :
    (r.put path containers).previous = r.previous := by
  induction containers generalizing r with
  | nil => rfl
  | cons item containers ih =>
    refine (ih _).trans ?_
    obtain ⟨other, container⟩ := item
    cases container <;> rfl

theorem mem_boundRecords : (key, c) ∈ r.boundRecords ↔ (key, .bound c) ∈ r.bindings.records := by
  simp only [boundRecords, List.mem_filterMap, Option.map_eq_some_iff]
  constructor
  · rintro ⟨⟨key', binding⟩, hmem, c', hc', hkey⟩
    obtain ⟨rfl, rfl⟩ := Prod.mk.inj hkey
    cases binding with
    | inProgress => cases hc'
    | bound c => exact Option.some.inj hc' ▸ hmem
  · exact fun h ↦ ⟨_, h, c, rfl, rfl⟩

end Registry

namespace RegistryEvent

/-- The bindings after an event. -/
def apply (r : Registry) : RegistryEvent → Registry
  | begun path project => r.start path project
  | ended path project made => r.settle path project made
  | answered .. => r
  | called call => call.effect r

/-- The keys whose initializers run after an event, the one that began last first. -/
def stack (keys : List BindingKey) : RegistryEvent → List BindingKey
  | begun path project => (project, path) :: keys
  | ended .. => keys.tail
  | answered .. | called _ => keys

end RegistryEvent

/-- Events in the order in which they happen, from the creation of a registry on. -/
abbrev History := List RegistryEvent

namespace History

variable {h before after : History} {e : RegistryEvent}

/-- The bindings after a history. -/
def registry (h : History) : Registry := h.foldl RegistryEvent.apply {}

/-- The keys whose initializers are on the call stack after a history. -/
def running (h : History) : List BindingKey := h.foldl RegistryEvent.stack []

/-- Whether a container was put for a key, or returned by an initializer that ran for it. -/
def Offers (h : History) (key : BindingKey) (c : Container) : Prop :=
  (∃ containers, .called (.put key.2 containers) ∈ h ∧ (key.1, some c) ∈ containers) ∨
    .ended key.2 key.1 (some c) ∈ h

@[simp]
theorem registry_snoc (h : History) (e : RegistryEvent) : registry (h ++ [e]) = e.apply h.registry := by
  rw [registry, List.foldl_append]
  rfl

@[simp]
theorem running_snoc (h : History) (e : RegistryEvent) : running (h ++ [e]) = e.stack h.running := by
  rw [running, List.foldl_append]
  rfl

theorem Offers.mono (ho : Offers h key c) {h' : History} (hsub : h ⊆ h') : Offers h' key c :=
  ho.imp (fun ⟨containers, hcall, hmem⟩ ↦ ⟨containers, hsub hcall, hmem⟩) fun hended ↦ hsub hended

/-! ### What follows from what -/

/-- Whether an event can happen next: the initializer that ends is the one that began last, and a
container that a look-up answers is what stands under the key. -/
def Follows (h : History) : RegistryEvent → Prop
  | .ended path project _ => (running h).head? = some (project, path)
  | .answered path project answer => ∀ c ∈ answer, ∃ binding,
      (registry h).bindings.find? (project, path) = some binding ∧ c = binding.answer path
  | .begun .. | .called _ => True

/-- A history in which each event can happen after those before it. -/
def Legal (h : History) : Prop := ∀ before e after, h = before ++ e :: after → Follows before e

theorem legal_nil : Legal [] := fun before e after h ↦ by simp at h

theorem Legal.snoc (hl : Legal h) (he : Follows h e) : Legal (h ++ [e]) := by
  intro before e' after heq
  rcases List.eq_nil_or_concat after with rfl | ⟨after, last, rfl⟩
  · obtain ⟨rfl, hlast⟩ := List.append_inj' heq rfl
    exact List.singleton_inj.mp hlast ▸ he
  · rw [List.concat_eq_append, ← List.cons_append, ← List.append_assoc] at heq
    exact hl before e' after (List.append_inj' heq rfl).1

theorem Legal.of_append (hl : Legal (before ++ after)) : Legal before :=
  fun first e rest heq ↦ hl first e (rest ++ after) (by rw [heq, List.append_assoc, List.cons_append])

/-- What is in progress is being made, and what is bound or frozen was offered. -/
structure Sound (h : History) : Prop where
  inProgress : ∀ key, h.registry.bindings.find? key = some .inProgress → key ∈ h.running
  bound : ∀ key c, (key, .bound c) ∈ h.registry.bindings.records → h.Offers key c
  frozen : ∀ key c, (key, c) ∈ h.registry.previous.records → h.Offers key c

/-- What an event leaves sound: a key in progress is still being made, a container that is bound was so
before or is offered by the event, and one that is frozen was frozen or bound before. -/
private theorem Sound.step (hs : Sound h)
    (hprogress : ∀ key, (e.apply h.registry).bindings.find? key = some .inProgress →
      key ∈ e.stack h.running)
    (hbound : ∀ key c, (key, .bound c) ∈ (e.apply h.registry).bindings.records →
      (key, .bound c) ∈ h.registry.bindings.records ∨ Offers [e] key c)
    (hfrozen : ∀ key c, (key, c) ∈ (e.apply h.registry).previous.records →
      (key, c) ∈ h.registry.previous.records ∨ (key, .bound c) ∈ h.registry.bindings.records) :
    Sound (h ++ [e]) where
  inProgress key hkey := by
    rw [registry_snoc] at hkey
    rw [running_snoc]
    exact hprogress key hkey
  bound key c hkey := by
    rw [registry_snoc] at hkey
    rcases hbound key c hkey with hkey | hoffers
    · exact (hs.bound key c hkey).mono (List.subset_append_left h [e])
    · exact hoffers.mono (List.subset_append_right h [e])
  frozen key c hkey := by
    rw [registry_snoc] at hkey
    rcases hfrozen key c hkey with hkey | hkey
    · exact (hs.frozen key c hkey).mono (List.subset_append_left h [e])
    · exact (hs.bound key c hkey).mono (List.subset_append_left h [e])

/-- An event that leaves the bindings and the initializers as they are. -/
private theorem Sound.step_same (hs : Sound h) (hregistry : e.apply h.registry = h.registry)
    (hrunning : e.stack h.running = h.running) : Sound (h ++ [e]) := by
  refine hs.step ?_ ?_ ?_ <;> rw [hregistry]
  · exact fun key hkey ↦ hrunning.symm ▸ hs.inProgress key hkey
  · exact fun _ _ ↦ .inl
  · exact fun _ _ ↦ .inl

/-- An initializer that begins puts its own key in progress. -/
private theorem Sound.begun (hs : Sound h) (path : Path) (project : String) :
    Sound (h ++ [.begun path project]) := by
  refine hs.step (fun key hkey ↦ ?_) (fun key c hkey ↦ .inl ?_) fun _ _ ↦ .inl
  · rw [RegistryEvent.apply, Registry.find?_start] at hkey
    split at hkey
    · next heq => exact heq ▸ List.mem_cons_self
    · exact List.mem_cons_of_mem _ (hs.inProgress key hkey)
  · refine (Table.mem_records_insert hkey).resolve_left fun heq ↦ ?_
    cases heq

/-- An initializer that ends leaves its own key bound or unbound, so only the keys of the initializers
around it are in progress. -/
private theorem Sound.ended (hs : Sound h) {made : Option Container}
    (hlast : h.running.head? = some (project, path)) : Sound (h ++ [.ended path project made]) := by
  obtain ⟨outer, hrunning⟩ : ∃ outer, h.running = (project, path) :: outer :=
    List.head?_eq_some_iff.mp hlast
  refine hs.step (fun key hkey ↦ ?_) (fun key c hkey ↦ ?_) fun key c hkey ↦ .inl ?_
  · obtain ⟨hother, hkey⟩ := Registry.find?_settle_inProgress hkey
    have hmem := hs.inProgress key hkey
    rw [RegistryEvent.stack, hrunning] at *
    exact (List.mem_cons.mp hmem).resolve_left hother
  · rcases Registry.mem_bindings_settle hkey with ⟨c', rfl, rfl, hc⟩ | hkey
    · obtain rfl := Binding.bound.inj hc
      exact .inr (.inr (List.mem_singleton_self _))
    · exact .inl hkey
  · exact h.registry.previous_settle path project made ▸ hkey

/-- Calls bind what they put, and freeze what is bound. -/
private theorem Sound.called (hs : Sound h) (call : Call) : Sound (h ++ [.called call]) := by
  cases call with
  | put path containers =>
    refine hs.step (fun key hkey ↦ hs.inProgress key (Registry.find?_put_inProgress hkey))
      (fun key c hkey ↦ ?_) fun key c hkey ↦ .inl ?_
    · rcases Registry.mem_bindings_put hkey with ⟨c', hc, rfl, hmem⟩ | hkey
      · obtain rfl := Binding.bound.inj hc
        exact .inr (.inl ⟨containers, List.mem_singleton_self _, hmem⟩)
      · exact .inl hkey
    · exact h.registry.previous_put path containers ▸ hkey
  | reset path project =>
    refine hs.step (fun key hkey ↦ ?_) (fun key c hkey ↦ .inl (List.mem_filter.mp hkey).1)
      fun _ _ ↦ .inl
    have hreset := h.registry.find?_set path project none key
    rw [show (h.registry.set path project none).bindings.find? key = _ from hkey] at hreset
    split at hreset
    · cases hreset
    · exact hs.inProgress key hreset.symm
  | removeProject project =>
    refine hs.step (fun key hkey ↦ ?_) (fun key c hkey ↦ .inl (List.mem_filter.mp hkey).1)
      fun _ _ ↦ .inl
    have hremoved := h.registry.find?_removeProject project key
    rw [show (h.registry.removeProject project).bindings.find? key = _ from hkey] at hremoved
    split at hremoved
    · exact hs.inProgress key hremoved.symm
    · cases hremoved
  | freeze =>
    exact hs.step hs.inProgress (fun _ _ ↦ .inl) fun key c hkey ↦
      .inr (Registry.mem_boundRecords.mp hkey)
  | find path project => exact hs.step_same rfl rfl
  | peek path project => exact hs.step_same rfl rfl
  | previous path project => exact hs.step_same rfl rfl
  | containers project => exact hs.step_same rfl rfl
  | resolve project => exact hs.step_same rfl rfl
  | setRaw project entries => exact hs.step_same rfl rfl
  | note value => exact hs.step_same rfl rfl

/-- An event that can happen keeps the bindings sound. -/
theorem Sound.snoc (hs : Sound h) (he : Follows h e) : Sound (h ++ [e]) := by
  cases e with
  | begun path project => exact hs.begun path project
  | ended path project made => exact hs.ended he
  | called call => exact hs.called call
  | answered path project answer => exact hs.step_same rfl rfl

/-- After every legal history the bindings are sound. -/
theorem Legal.sound (hl : Legal h) : Sound h := by
  induction h using List.reverseRecOn with
  | nil => exact ⟨nofun, nofun, nofun⟩
  | append_singleton h e ih => exact (ih hl.of_append).snoc (hl h e [] rfl)

/-- Whether the empty containers that stand for those being made stay with their initializers. At any time,
a look-up is answered the container that is bound, or the empty one while the initializer for that very key
is running; without a running initializer nothing is in progress; and what is bound or frozen was put for its
key, or made for it. -/
structure Clean (h : History) : Prop where
  answered : ∀ (before after : History) path project c,
    h = before ++ .answered path project (some c) :: after →
    (before.registry.bindings.find? (project, path) = some (.bound c) ∧ before.Offers (project, path) c) ∨
    (before.registry.bindings.find? (project, path) = some .inProgress ∧ c = .placeholder path ∧
      (project, path) ∈ before.running)
  idle : ∀ before after : History, h = before ++ after → before.running = [] →
    ∀ key, before.registry.bindings.find? key ≠ some .inProgress
  offered : ∀ before after : History, h = before ++ after → ∀ key c,
    before.registry.bindings.find? key = some (.bound c) ∨ before.registry.previous.find? key = some c →
      before.Offers key c

theorem Legal.clean (hl : Legal h) : Clean h where
  answered before after path project c heq := by
    obtain ⟨binding, hbinding, hc⟩ := hl before _ after heq c rfl
    have hs : Sound before := (heq ▸ hl : Legal (before ++ _)).of_append.sound
    cases binding with
    | inProgress => exact .inr ⟨hbinding, hc, hs.inProgress _ hbinding⟩
    | bound c' =>
      obtain rfl : c = c' := hc
      exact .inl ⟨hbinding, hs.bound _ _ (Table.mem_of_find? hbinding)⟩
  idle before after heq hidle key hkey := by
    have hs : Sound before := (heq ▸ hl : Legal (before ++ after)).of_append.sound
    have hmem := hs.inProgress key hkey
    rw [hidle] at hmem
    cases hmem
  offered before after heq key c hkey := by
    have hs : Sound before := (heq ▸ hl : Legal (before ++ after)).of_append.sound
    rcases hkey with hkey | hkey
    · exact hs.bound key c (Table.mem_of_find? hkey)
    · exact hs.frozen key c (Table.mem_of_find? hkey)

end History

end Buildpath
