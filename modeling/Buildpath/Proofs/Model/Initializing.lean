import Buildpath.Proofs.BindingHistories
import Buildpath.Proofs.Model.Frames
import Buildpath.Proofs.Model.Lookups

/-!
# Initializers that look up containers

A look-up may run an initializer, which may look up containers in turn, also the one that it makes, and
change any binding meanwhile. How a script goes is a history (`Script.Runs`), and what a model does is such
a run (`runScript_runs`). Since runs make legal histories only (`Runs.continues`), the empty container that
stands for one that is being made is found only while that is being made, and nothing stays in progress
(`runScript_leaves_no_placeholder`).
-/

namespace Buildpath

variable {r r' : Registry} {g h : History} {path : Path} {project : String}

/-! ### Runs -/

/-- How look-ups go: from which bindings a history leads to an answer and to other bindings. -/
abbrev Finding := Path → String → Registry → History → Option Container → Registry → Prop

/-- Look-ups one after another. -/
inductive Finding.Series (finds : Finding) : Registry → History → Registry → Prop where
  | nil (r : Registry) : Series finds r [] r
  | cons {path : Path} {project : String} {answer : Option Container} {r r₁ r₂ : Registry}
      {h₁ h₂ : History} (found : finds path project r h₁ answer r₁) (rest : Series finds r₁ h₂ r₂) :
      Series finds r (h₁ ++ h₂) r₂

/-- How a script goes, given how its look-ups go. To resolve a project, containers are looked up one after
another; whatever is answered then, the script goes on. -/
inductive Script.Runs (finds : Finding) :
    Script → Registry → History → Option Container → Registry → Prop where
  | done (made : Option Container) (r : Registry) : Runs finds (.done made) r [] made r
  | found {path : Path} {project : String} {next : Option Container → Script}
      {answer made : Option Container} {r r₁ r₂ : Registry} {h₁ h₂ : History}
      (found : finds path project r h₁ answer r₁) (rest : Runs finds (next answer) r₁ h₂ made r₂) :
      Runs finds (.ask (.find path project) next) r (h₁ ++ h₂) made r₂
  | resolved {project : String} {next : Except Failure Resolved → Script}
      {answer : Except Failure Resolved} {made : Option Container} {r r₁ r₂ : Registry} {h₁ h₂ : History}
      (looked : finds.Series r h₁ r₁) (rest : Runs finds (next answer) r₁ h₂ made r₂) :
      Runs finds (.ask (.resolve project) next) r (h₁ ++ h₂) made r₂
  | told {call : Call} {next : call.Answer → Script} {answer : call.Answer} {made : Option Container}
      {r r' : Registry} {h : History} (told : call.Told r answer)
      (rest : Runs finds (next answer) (call.effect r) h made r') :
      Runs finds (.ask call next) r (.called call :: h) made r'

namespace Finding

theorem Series.append {finds : Finding} {r r₁ r₂ : Registry} {h₁ h₂ : History}
    (hfirst : finds.Series r h₁ r₁) (hrest : finds.Series r₁ h₂ r₂) : finds.Series r (h₁ ++ h₂) r₂ := by
  induction hfirst with
  | nil => exact hrest
  | cons found _ ih => exact List.append_assoc .. ▸ .cons found (ih hrest)

/-- Look-ups that find nothing. -/
inductive Nothing : Finding where
  | mk (path : Path) (project : String) (r : Registry) :
      Nothing path project r [.answered path project none] none r

/-- Look-ups where the initializers' own look-ups go as `finds` says. -/
inductive Nested (make : Path → Option Initializer) (finds : Finding) : Finding where
  | known {path : Path} {project : String} {r : Registry} {binding : Binding}
      (known : r.bindings.find? (project, path) = some binding) :
      Nested make finds path project r [.answered path project (some (binding.answer path))]
        (some (binding.answer path)) r
  | unmade {path : Path} {project : String} {r : Registry}
      (unknown : r.bindings.find? (project, path) = none) (unmade : make path = none) :
      Nested make finds path project r [.answered path project none] none r
  | made {path : Path} {project : String} {r r₁ : Registry} {initializer : Initializer} {h : History}
      {made : Option Container} (unknown : r.bindings.find? (project, path) = none)
      (initialized : make path = some initializer)
      (runs : (initializer path project).Runs finds (r.start path project) h made r₁) :
      Nested make finds path project r
        (.begun path project :: h ++ [.ended path project made,
          .answered path project ((r₁.peek? path project).or made)])
        ((r₁.peek? path project).or made) (r₁.settle path project made)

/-- Look-ups that may nest `depth` times. One that is nested deeper finds nothing. -/
def within (make : Path → Option Initializer) : Nat → Finding
  | 0 => Nothing
  | depth + 1 => Nested make (within make depth)

end Finding

/-! ### Runs make legal histories -/

/-- Whether something can happen after a history, and leads to bindings while no other initializers run
than before. -/
structure History.Continues (g h : History) (r : Registry) : Prop where
  legal : Legal (g ++ h)
  registry : (g ++ h).registry = r
  running : (g ++ h).running = g.running

namespace History

theorem Continues.refl (hl : g.Legal) : Continues g [] g.registry := by
  constructor <;> rw [List.append_nil]
  exact hl

theorem Continues.trans {h₁ h₂ : History} (hfirst : Continues g h₁ r)
    (hrest : Continues (g ++ h₁) h₂ r') : Continues g (h₁ ++ h₂) r' := by
  constructor <;> rw [← List.append_assoc]
  · exact hrest.legal
  · exact hrest.registry
  · exact hrest.running.trans hfirst.running

/-- A look-up that finds what stands under its key. -/
theorem Continues.answered {answer : Option Container} (hl : g.Legal)
    (ha : ∀ c ∈ answer, ∃ binding, g.registry.bindings.find? (project, path) = some binding ∧
      c = binding.answer path) : Continues g [.answered path project answer] g.registry :=
  ⟨hl.snoc ha, registry_snoc _ _, running_snoc _ _⟩

theorem Continues.called (hl : g.Legal) (call : Call) :
    Continues g [.called call] (call.effect g.registry) :=
  ⟨hl.snoc trivial, registry_snoc _ _, running_snoc _ _⟩

/-- An initializer that runs after its key was put in progress, and ends. -/
theorem Continues.initialized {made : Option Container}
    (hruns : Continues (g ++ [.begun path project]) h r) :
    Continues g (.begun path project :: h ++ [.ended path project made])
      (r.settle path project made) := by
  have hassoc : g ++ (.begun path project :: h ++ [.ended path project made]) =
      g ++ [.begun path project] ++ h ++ [.ended path project made] := by simp
  have hrunning : (g ++ [RegistryEvent.begun path project] ++ h).running =
      (project, path) :: g.running :=
    hruns.running.trans (running_snoc _ _)
  constructor <;> rw [hassoc]
  · exact hruns.legal.snoc (congrArg List.head? hrunning)
  · rw [registry_snoc, hruns.registry]
    rfl
  · rw [running_snoc, hrunning]
    rfl

end History

/-- Whether look-ups make legal histories. -/
def Finding.Legal (finds : Finding) : Prop :=
  ∀ ⦃path project r h answer r'⦄, finds path project r h answer r' →
    ∀ g : History, g.Legal → g.registry = r → g.Continues h r'

variable {finds : Finding}

theorem Finding.Series.continues (hfinds : finds.Legal) (hs : finds.Series r h r') (hl : g.Legal)
    (hr : g.registry = r) : g.Continues h r' := by
  induction hs generalizing g with
  | nil r => exact hr ▸ .refl hl
  | cons found _ ih =>
    have hfound := hfinds found g hl hr
    exact hfound.trans (ih hfound.legal hfound.registry)

theorem Script.Runs.continues (hfinds : finds.Legal) {script : Script} {made : Option Container}
    (hs : script.Runs finds r h made r') (hl : g.Legal) (hr : g.registry = r) : g.Continues h r' := by
  induction hs generalizing g with
  | done made r => exact hr ▸ .refl hl
  | found found _ ih =>
    have hfound := hfinds found g hl hr
    exact hfound.trans (ih hfound.legal hfound.registry)
  | resolved looked _ ih =>
    have hlooked := looked.continues hfinds hl hr
    exact hlooked.trans (ih hlooked.legal hlooked.registry)
  | @told call _ _ _ _ _ _ _ _ ih =>
    subst hr
    have hcalled := History.Continues.called hl call
    exact hcalled.trans (ih hcalled.legal hcalled.registry)

namespace Finding

theorem legal_nothing : Nothing.Legal := by
  rintro path project r _ _ _ ⟨⟩ g hl rfl
  exact .answered hl nofun

/-- Look-ups make legal histories if those of initializers do. -/
theorem Legal.nested (hfinds : finds.Legal) (make : Path → Option Initializer) :
    (finds.Nested make).Legal := by
  rintro path project r h answer r' hfound g hl rfl
  cases hfound with
  | known known => exact .answered hl fun c hc ↦ ⟨_, known, (Option.some.inj hc).symm⟩
  | unmade => exact .answered hl nofun
  | @made _ _ _ r₁ _ h made unknown initialized runs =>
    have hbegun : History.Legal (g ++ [.begun path project]) := hl.snoc trivial
    have hended : g.Continues (.begun path project :: h ++ [.ended path project made])
        (r₁.settle path project made) :=
      .initialized (runs.continues hfinds hbegun (History.registry_snoc _ _))
    -- what is answered stands under the key once the initializer ended
    have hanswered : History.Continues (g ++ (.begun path project :: h ++ [.ended path project made]))
        [.answered path project ((r₁.peek? path project).or made)] (r₁.settle path project made) := by
      rw [← hended.registry]
      refine .answered hended.legal fun c hc ↦ ?_
      rw [← Registry.peek?_settle] at hc
      exact ⟨.bound c, hended.registry ▸ Registry.find?_of_peek? hc, rfl⟩
    have hsplit : (.begun path project :: h ++ [.ended path project made,
        .answered path project ((r₁.peek? path project).or made)] : History) =
        (.begun path project :: h ++ [.ended path project made]) ++
          [.answered path project ((r₁.peek? path project).or made)] := by simp
    exact hsplit ▸ hended.trans hanswered

theorem legal_within (make : Path → Option Initializer) (depth : Nat) : (within make depth).Legal := by
  induction depth with
  | zero => exact legal_nothing
  | succ depth ih => exact ih.nested make

end Finding

/-! ### What a model does is a run -/

variable {make : Path → Option Initializer} {depth : Nat} {m m' : Model}

namespace Model

/-- Whether a model has the given initializers, and look-ups may nest `depth` times. -/
structure Hosts (make : Path → Option Initializer) (depth : Nat) (m : Model) : Prop where
  initializers : m.initializer? = make
  depth : m.depth = depth

/-- Whether what changed the bindings from a model to another one are look-ups. -/
def Looks (make : Path → Option Initializer) (depth : Nat) (finds : Finding) (m m' : Model) : Prop :=
  m.Hosts make depth → m'.Hosts make depth ∧ ∃ h, finds.Series m.registry h m'.registry

instance : StepFrame (Looks make depth finds) where
  refl _ hosts := ⟨hosts, [], .nil _⟩
  trans := by
    intro m m' m'' hlooks hlooks' hosts
    obtain ⟨hosts', h, hseries⟩ := hlooks hosts
    obtain ⟨hosts'', h', hseries'⟩ := hlooks' hosts'
    exact ⟨hosts'', h ++ h', hseries.append hseries'⟩
  unheld _ _ _ hosts := ⟨⟨hosts.1, hosts.2⟩, [], .nil _⟩
  closes _ _ hosts := ⟨⟨hosts.1, hosts.2⟩, [], .nil _⟩
  touched _ _ hosts := ⟨⟨hosts.1, hosts.2⟩, [], .nil _⟩
  clearRoots _ hosts := ⟨⟨hosts.1, hosts.2⟩, [], .nil _⟩
  steps _ _ _ _ hosts := ⟨⟨hosts.1, hosts.2⟩, [], .nil _⟩
  noted _ _ hosts := ⟨⟨hosts.1, hosts.2⟩, [], .nil _⟩
  issued _ _ hosts := ⟨⟨hosts.1, hosts.2⟩, [], .nil _⟩
  resolving _ _ _ hlooks hosts :=
    have ⟨hosts', hseries⟩ := hlooks ⟨hosts.1, hosts.2⟩
    ⟨⟨hosts'.1, hosts'.2⟩, hseries⟩

end Model

namespace ModelM

variable {find : Path → String → ModelM (Option Container)} {resolve : String → Action Issued}

/-- Whether looking up containers goes as `finds` says. -/
def FindsAs (make : Path → Option Initializer) (depth : Nat) (finds : Finding)
    (find : Path → String → ModelM (Option Container)) : Prop :=
  ∀ path project m, m.Hosts make depth → ∃ answer m' h, (find path project).run m = (answer, m') ∧
    m'.Hosts make depth ∧ finds path project m.registry h answer m'.registry

theorem FindsAs.moves (hfind : FindsAs make depth finds find) (path : Path) (project : String) :
    (find path project).Moves (Model.Looks make depth finds) := by
  intro m hosts
  obtain ⟨answer, m', h, hrun, hosts', hfound⟩ := hfind path project m hosts
  rw [hrun]
  exact ⟨hosts', h ++ [], .cons hfound (.nil _)⟩

/-- A call other than a look-up or a resolution changes and tells the bindings alone. -/
private theorem answer_told (find : Path → String → ModelM (Option Container))
    (resolve : String → Action Issued) (hosts : m.Hosts make depth) (call : Call)
    (hcall : ∀ path project, call ≠ .find path project) (hcall' : ∀ project, call ≠ .resolve project) :
    ∃ told m', (answer find resolve call).run m = (told, m') ∧ m'.Hosts make depth ∧
      call.Told m.registry told ∧ m'.registry = call.effect m.registry := by
  cases call with
  | find path project => exact absurd rfl (hcall path project)
  | resolve project => exact absurd rfl (hcall' project)
  | peek path project => exact ⟨_, _, rfl, hosts, rfl, rfl⟩
  | previous path project => exact ⟨_, _, rfl, hosts, rfl, rfl⟩
  | containers project => exact ⟨_, _, rfl, hosts, rfl, rfl⟩
  | put path containers => exact ⟨_, _, rfl, ⟨hosts.1, hosts.2⟩, trivial, rfl⟩
  | reset path project => exact ⟨_, _, rfl, ⟨hosts.1, hosts.2⟩, trivial, rfl⟩
  | removeProject project => exact ⟨_, _, rfl, ⟨hosts.1, hosts.2⟩, trivial, rfl⟩
  | freeze => exact ⟨_, _, rfl, ⟨hosts.1, hosts.2⟩, trivial, rfl⟩
  | setRaw project entries => exact ⟨_, _, rfl, ⟨hosts.1, hosts.2⟩, trivial, rfl⟩
  | note value => exact ⟨_, _, rfl, ⟨hosts.1, hosts.2⟩, trivial, rfl⟩

/-- A script runs as its look-ups go, where resolving a project changes no bindings but by look-ups. -/
theorem runScript_runs (hfind : FindsAs make depth finds find)
    (hresolve : ∀ project, Action.Moves (Model.Looks make depth finds) (resolve project))
    (script : Script) (hosts : m.Hosts make depth) : ∃ made m' h,
      (runScript find resolve script).run m = (made, m') ∧ m'.Hosts make depth ∧
        script.Runs finds m.registry h made m'.registry := by
  induction script generalizing m with
  | done made => exact ⟨made, m, [], rfl, hosts, .done made _⟩
  | ask call next ih =>
    have hrun : ∀ {told m₁}, (answer find resolve call).run m = (told, m₁) →
        (runScript find resolve (.ask call next)).run m =
          (runScript find resolve (next told)).run m₁ := by
      intro told m₁ htold
      rw [runScript, StateT.run_bind, htold]
      rfl
    by_cases hcall : ∃ path project, call = .find path project
    · obtain ⟨path, project, rfl⟩ := hcall
      obtain ⟨told, m₁, h₁, htold, hosts₁, hfound⟩ := hfind path project m hosts
      obtain ⟨made, m', h₂, hnext, hosts', hruns⟩ := ih told hosts₁
      exact ⟨made, m', h₁ ++ h₂, (hrun htold).trans hnext, hosts', .found hfound hruns⟩
    · by_cases hcall' : ∃ project, call = .resolve project
      · obtain ⟨project, rfl⟩ := hcall'
        obtain ⟨hosts₁, h₁, hlooked⟩ := hresolve project m hosts
        obtain ⟨made, m', h₂, hnext, hosts', hruns⟩ :=
          ih (((resolve project).run.run m).1.map Issued.result) hosts₁
        exact ⟨made, m', h₁ ++ h₂, hnext, hosts', .resolved hlooked hruns⟩
      · push Not at hcall hcall'
        obtain ⟨told, m₁, htold, hosts₁, htells, heffect⟩ :=
          answer_told find resolve hosts call hcall hcall'
        obtain ⟨made, m', h, hnext, hosts', hruns⟩ := ih told hosts₁
        exact ⟨made, m', .called call :: h, (hrun htold).trans hnext, hosts',
          .told htells (heffect ▸ hruns)⟩

/-- What an initializer made is bound, and answered, unless its key was bound while it ran. -/
private theorem finish_settles (path : Path) (project : String) (made : Option Container) (m : Model) :
    (finish path project made).run m = ((m.registry.peek? path project).or made,
      { m with registry := m.registry.settle path project made }) := by
  rw [finish_run_eq, Registry.settle]
  cases m.registry.peek? path project <;> rfl

/-- Where nothing is bound, the initializer runs. -/
private theorem makeContainer_runs (hfind : FindsAs make depth finds find)
    (hresolve : ∀ project, Action.Moves (Model.Looks make depth finds) (resolve project))
    (hosts : m.Hosts make depth) (path : Path) (project : String) (script : Script) :
    ∃ made r₁ m' h, (makeContainer find resolve path project script).run m =
        ((r₁.peek? path project).or made, m') ∧ m'.Hosts make depth ∧
      script.Runs finds (m.registry.start path project) h made r₁ ∧
        m'.registry = r₁.settle path project made := by
  obtain ⟨made, m₁, h, hrun, hosts₁, hruns⟩ := runScript_runs hfind hresolve script
    (m := { m with registry := m.registry.start path project }) ⟨hosts.1, hosts.2⟩
  have hmake : (makeContainer find resolve path project script).run m =
      (finish path project ((runScript find resolve script).run
        { m with registry := m.registry.start path project }).1).run
          ((runScript find resolve script).run
            { m with registry := m.registry.start path project }).2 := rfl
  rw [hrun, finish_settles] at hmake
  exact ⟨made, m₁.registry, _, h, hmake, ⟨hosts₁.1, hosts₁.2⟩, hruns, rfl⟩

/-- A look-up goes as deep as it may nest. -/
theorem findsAs_findContainerWithin (make : Path → Option Initializer) (depth n : Nat) :
    FindsAs make depth (.within make n) (findContainerWithin n) := by
  induction n with
  | zero => exact fun path project m hosts ↦ ⟨none, m, _, rfl, hosts, .mk path project m.registry⟩
  | succ n ih =>
    intro path project m hosts
    rw [findContainerWithin_run]
    cases hb : m.registry.bindings.find? (project, path) with
    | some binding =>
      refine ⟨some (binding.answer path), m, _, ?_, hosts, .known hb⟩
      cases binding <;> rfl
    | none =>
      rw [hosts.initializers]
      cases hi : make path with
      | none => exact ⟨none, m, _, rfl, hosts, .unmade hb hi⟩
      | some initializer =>
        obtain ⟨made, r₁, m', h, hrun, hosts', hruns, hsettled⟩ :=
          makeContainer_runs ih (fun _ ↦ moves_resolutionWithin (moves_resolutionBy ih.moves _)) hosts
            path project (initializer path project)
        exact ⟨_, m', _, hrun, hosts', hsettled.symm ▸ Finding.Nested.made hb hi hruns⟩

theorem findsAs_findContainer (make : Path → Option Initializer) (depth : Nat) :
    FindsAs make depth (.within make depth) findContainer := by
  intro path project m hosts
  have hrun : (findContainer path project).run m = (findContainerWithin depth path project).run m := by
    rw [← hosts.depth]
    rfl
  exact hrun ▸ findsAs_findContainerWithin make depth depth path project m hosts

/-- In a new registry, a script that looks up containers makes a clean history, whatever the initializers
do meanwhile, and in the end none of them is running. -/
theorem runScript_leaves_no_placeholder (m : Model) (hnew : m.registry = {}) (script : Script) :
    ∃ made m' h, (runScript findContainer resolution script).run m = (made, m') ∧
      script.Runs (.within m.initializer? m.depth) {} h made m'.registry ∧
      h.registry = m'.registry ∧ h.running = [] ∧ h.Clean := by
  have hfind := findsAs_findContainer m.initializer? m.depth
  obtain ⟨made, m', h, hrun, -, hruns⟩ :=
    runScript_runs hfind (fun _ ↦ moves_resolutionBy hfind.moves _) script (m := m) ⟨rfl, rfl⟩
  rw [hnew] at hruns
  have hcontinues : History.Continues [] h m'.registry :=
    hruns.continues (Finding.legal_within _ _) History.legal_nil rfl
  exact ⟨made, m', h, hrun, hruns, hcontinues.registry, hcontinues.running, hcontinues.legal.clean⟩

/-- An initializer that looks up the container that it makes, and makes one of a library where it finds an
empty one. -/
def lookingBack : Initializer := fun path project ↦
  .ask (.find path project) fun found ↦ .done <| found.bind fun c ↦
    if c.entries = [] then
      some (.ofEntries path .application [{ kind := .library, path := .parse "/ext/a.zip", external := true }])
    else none

/-- A model with that initializer only. -/
def withLookingBack : Model :=
  { workspace := .memory {}, initializers := Table.empty.insert "RE" lookingBack, nesting := 2 }

/-- A script that looks up a container twice, drops it in between, and freezes the bindings. -/
def lookingTwice : Script :=
  .ask (.find (.parse "RE") "p") fun _ ↦ .ask (.reset (.parse "RE") "p") fun _ ↦
    .ask (.find (.parse "RE") "p") fun found ↦ .ask .freeze fun _ ↦ .done found

/-- The initializer finds the empty container while it makes the one that the script finds. -/
theorem runScript_leaves_no_placeholder_reentrant :
    withLookingBack.registry = {} ∧ ∃ made m' h,
      (runScript findContainer resolution lookingTwice).run withLookingBack = (made, m') ∧
      made.map (fun c ↦ c.entries.length) = some 1 ∧
      m'.registry.previous? (.parse "RE") "p" = made ∧
      lookingTwice.Runs (.within withLookingBack.initializer? withLookingBack.depth) {} h made
        m'.registry ∧
      h.registry = m'.registry ∧ h.running = [] ∧ h.Clean := by
  obtain ⟨made, m', h, hrun, hrest⟩ := runScript_leaves_no_placeholder withLookingBack rfl lookingTwice
  have hmade : made = ((runScript findContainer resolution lookingTwice).run withLookingBack).1 := by
    rw [hrun]
  have hmodel : m' = ((runScript findContainer resolution lookingTwice).run withLookingBack).2 := by
    rw [hrun]
  refine ⟨rfl, made, m', h, hrun, ?_, ?_, hrest⟩
  · rw [hmade]
    decide +kernel
  · rw [hmade, hmodel]
    decide +kernel

end ModelM

end Buildpath
