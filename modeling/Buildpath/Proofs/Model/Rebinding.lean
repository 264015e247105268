import Buildpath.Proofs.Model.Current

/-!
# Binding containers

Binding projects to a container resolves those anew that mention it and whose binding changes, one by
one and in the order that they are listed in, and no others. Where nothing but raw buildpaths and
bindings decides what projects are resolved to, that is enough: script projects whose results were
current have current results again (`setContainer_refreshes`).
-/

namespace Buildpath

variable {m m' : Model}

namespace ModelM

open Model

/-- Where nothing but raw buildpaths and bindings decides what projects are resolved to, binding
distinct projects to a container binds each as it is listed and nothing else. Script projects whose
results were current come to current results again, and there is a delta for each listed script project
that mentions the container and whose binding changed. -/
theorem setContainer_refreshes (hm : m.Plain) (path : Path)
    (containers : List (String × Option Container)) (hdistinct : (containers.map Prod.fst).Nodup) :
    ∃ deltas m', (setContainer path containers).runOn m = (.ok deltas, m') ∧
      (∀ item ∈ containers, m'.registry.peek? path item.1 = item.2) ∧
      (∀ key : BindingKey, (key.2 = path → key.1 ∉ containers.map Prod.fst) →
        m'.registry.bindings.find? key = m.registry.bindings.find? key) ∧
      ({ m with registry := m'.registry } : Model).Resembles m' ∧
      (∀ q, m.workspace.isScript q → m.workspace.projectExists q → m.Current q →
        ∃ i, ((resolution q).runOn m').1 = .ok i ∧ i.result = m'.fresh q) ∧
      deltas.map GeneratedDelta.project = (containers.filter (m.rebinds path)).map Prod.fst := by
  obtain ⟨projects, m₁, hsteps, hprojects, -, deltas, m₃, held, hrun, hrenewed⟩ :=
    setContainer_run (R := KeepsResults) hm.toBare path containers
  generalize hbound : containers.filter (!m.isBoundTo path ·) = bound at hrenewed
  have hupholds : m.Upholds m₁ := hsteps hm.toBare
  let m₂ : Model := { m₁ with registry := m₁.registry.put path bound }
  have hm₂ : m₂.Plain := (hupholds.plain hm).of_bindings
  obtain ⟨hdeltas, hrefreshes, -⟩ := current_of_renewed hm₂ hrenewed
  let m' : Model := { m₃ with held }
  have hend : m₃.Upholds m' := .of_held _
  have hregistry : m'.registry = m.registry.put path bound :=
    hrefreshes.registry.trans (congrArg (Registry.put · path bound) hupholds.registry)
  refine ⟨deltas, m', hrun, fun item hitem ↦ ?_, fun key hkey ↦ ?_, ?_,
    fun q hscript hexists hq ↦ ?_, hdeltas.trans hprojects⟩
  · rw [hregistry, ← hbound]
    exact peek?_put_unbound hdistinct hitem
  · rw [hregistry, ← hbound]
    exact Registry.find?_put_of_notMem fun hpath hmem ↦
      hkey hpath (List.map_subset _ (List.filter_subset_self _) hmem)
  · rw [hregistry]
    have hput := (hupholds.of_registry (m₁.registry.put path bound)).trans
      (hrefreshes.toResembles.trans hend.toResembles)
    rwa [hupholds.registry] at hput
  · have hexists₂ := (Workspace.projectExists_of_files hupholds.files q).trans hexists
    refine resolution_of_renewed hm₂ hrenewed held hexists₂ fun hout ↦ ?_
    -- a project that is not resolved anew does not mention what was bound
    refine (hupholds.current hm hq).of_bindings (hupholds.plain hm) (fun _ _ _ ↦ rfl)
      fun e he hkind ↦ Registry.find?_put_of_notMem fun hpath hput ↦ hout ?_
    rw [hupholds.raw] at he
    rw [← hbound] at hput
    rw [hprojects]
    exact mem_rebinds_of_mentions
      (mentions_of_mem hscript he (Entry.isContainerAt_iff.mpr ⟨hkind, hpath⟩)) hput

/-- Libraries of an interpreter. -/
def interpreterEntry : Entry := { kind := .container, path := .parse "TCL/core" }

def interpreterContainer : Container :=
  .ofEntries interpreterEntry.path .system
    [{ kind := .library, path := .parse "/ext/tcl.zip", external := true }]

/-- Two projects that mention the libraries, and one that does not. One of the two is bound to them. -/
def boundInterpreter : Model :=
  { Model.ofBuildpaths [("p", [interpreterEntry]), ("q", [interpreterEntry]), ("r", [])] with
    registry := ({} : Registry).set interpreterEntry.path "p" (some interpreterContainer) }

/-- The project that is bound was resolved. -/
def resolvedInterpreter : Model := ((resolution "p").runOn boundInterpreter).2

/-- Of three projects that are bound anew, one does not mention the container, one has the binding
already, and one is resolved anew. -/
theorem interpreter_is_dropped : resolvedInterpreter.Plain ∧
    (["r", "q", "p"] : List String).Nodup ∧ resolvedInterpreter.workspace.isScript "p" ∧
    resolvedInterpreter.workspace.projectExists "p" ∧ resolvedInterpreter.Current "p" ∧
    ((resolvedInterpreter.cell "p").issued?.any fun i ↦ i.result.isOk) ∧
    ∃ deltas m', (setContainer interpreterEntry.path
        [("r", some interpreterContainer), ("q", none), ("p", none)]).runOn resolvedInterpreter =
          (.ok deltas, m') ∧
      m'.registry.peek? interpreterEntry.path "r" = some interpreterContainer ∧
      deltas.map GeneratedDelta.project = ["p"] ∧
      ∃ i, ((resolution "p").runOn m').1 = .ok i ∧ i.result = m'.fresh "p" := by
  have hbegin : boundInterpreter.Plain := ⟨⟨rfl, rfl, by decide⟩, rfl⟩
  have hupholds : boundInterpreter.Upholds resolvedInterpreter :=
    keepsResults_resolution "p" boundInterpreter hbegin.toBare
  have hm := hupholds.plain hbegin
  have hcurrent : resolvedInterpreter.Current "p" := by
    refine hupholds.current hbegin fun i hi ↦ ?_
    obtain ⟨raw, hcell⟩ := cell_ofBuildpaths
      [("p", [interpreterEntry]), ("q", [interpreterEntry]), ("r", [])] "p"
    change (Model.cell (.ofBuildpaths _) "p").issued? = some i at hi
    rw [hcell] at hi
    cases hi
  have hdistinct : (["r", "q", "p"] : List String).Nodup := by decide
  have hscript : resolvedInterpreter.workspace.isScript "p" := by decide +kernel
  have hexists : resolvedInterpreter.workspace.projectExists "p" := by decide +kernel
  obtain ⟨deltas, m', hrun, hbound, -, -, hfresh, hdeltas⟩ := setContainer_refreshes hm
    interpreterEntry.path [("r", some interpreterContainer), ("q", none), ("p", none)] hdistinct
  refine ⟨hm, hdistinct, hscript, hexists, hcurrent, by decide +kernel, deltas, m', hrun,
    hbound _ List.mem_cons_self, hdeltas.trans ?_, hfresh "p" hscript hexists hcurrent⟩
  decide +kernel

end ModelM

end Buildpath
