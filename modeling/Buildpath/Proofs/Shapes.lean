import Buildpath.Proofs.Indexing
import Buildpath.Proofs.Resolution

/-!
# Shapes of entries

Of what kind the entries of a result are, and which paths and patterns they have, does not depend on the
last result, nor on what is attached to entries or exported, but on the shapes of the entries behind the raw
ones only (`shapes_outcome`).
-/

namespace Buildpath

/-- What an entry contributes, whatever is attached to it. -/
def Entry.site (e : Entry) : EntryKind × Path × Bool := (e.kind, e.path, e.external)

/-- An entry without what is attached to it, as if it were not exported. -/
def Entry.shape (e : Entry) : Entry :=
  { e with exported := false, attributes := [], attachmentPath := none, attachmentRoot := none }

@[simp] theorem Entry.kind_shape (e : Entry) : e.shape.kind = e.kind := rfl

@[simp] theorem Entry.path_shape (e : Entry) : e.shape.path = e.path := rfl

@[simp] theorem Entry.external_shape (e : Entry) : e.shape.external = e.external := rfl

/-- The shapes of a list of entries. -/
def shapes (es : List Entry) : List Entry := es.map Entry.shape

variable {e e' : Entry} {es es' : List Entry}

theorem shapes_append (es es' : List Entry) : shapes (es ++ es') = shapes es ++ shapes es' :=
  List.map_append

namespace Resolved

/-- Whether two results have entries of the same shapes. -/
structure SameShapes (r r' : Resolved) : Prop where
  entries : shapes r'.entries = shapes r.entries
  rawOf : ∀ path, r'.rawOf.contains path = r.rawOf.contains path

end Resolved

namespace ResolutionPass

open Resolved

variable {p p' : ResolutionPass} {c c' : ResolutionContext} {raw : Entry}

/-- Steps that come to the same shapes, one after the other. -/
theorem sameShapes_foldl {α : Type} {f f' : ResolutionPass → α → ResolutionPass} {as : List α}
    (hf : ∀ a ∈ as, ∀ p p' : ResolutionPass, p.result.SameShapes p'.result →
      (f p a).result.SameShapes (f' p' a).result) (h : p.result.SameShapes p'.result) :
    (as.foldl f p).result.SameShapes (as.foldl f' p').result := by
  induction as generalizing p p' with
  | nil => exact h
  | cons a as ih =>
    exact ih (fun a ha ↦ hf a (List.mem_cons_of_mem _ ha)) (hf a List.mem_cons_self p p' h)

theorem sameShapes_add (h : p.result.SameShapes p'.result) (he : e'.shape = e.shape) :
    (p.add c raw e).result.SameShapes (p'.add c' raw e').result := by
  have hpath : e'.path = e.path := by simpa using congrArg Entry.path he
  rw [result_add, result_add, hpath, h.rawOf]
  split
  · exact h
  · refine ⟨?_, fun path ↦ ?_⟩
    · change shapes (p'.result.entries ++ [e']) = shapes (p.result.entries ++ [e])
      rw [shapes_append, shapes_append, h.entries]
      exact congrArg (shapes p.result.entries ++ [·]) he
    · rw [Table.contains, Table.contains, Table.find?_insert, Table.find?_insert]
      split
      · rfl
      · exact h.rawOf path

private theorem shape_carryOver (e old : Entry) : (carryOver e old).shape = e.shape := by
  unfold carryOver
  split <;> split <;> rfl

private theorem sameShapes_addChained (h : p.result.SameShapes p'.result) (he : e'.shape = e.shape) :
    (p.addChained c raw e).result.SameShapes (p'.addChained c' raw e').result := by
  have hgiven : ∀ (c : ResolutionContext) (e : Entry),
      ((c.last.find? e.path).elim e (carryOver e)).shape = e.shape := by
    intro c e
    cases c.last.find? e.path with
    | none => rfl
    | some old => exact shape_carryOver e old
  rw [result_addChained, result_addChained]
  exact sameShapes_add h ((hgiven c' e').trans (he.trans (hgiven c e).symm))

private theorem sameShapes_addReferences (h : p.result.SameShapes p'.result) (he : e'.shape = e.shape)
    (hchained : c'.chained = c.chained) (listed : List Path) :
    (p.addReferences c listed raw e).result.SameShapes (p'.addReferences c' listed raw e').result := by
  have hpath : e'.path = e.path := by simpa using congrArg Entry.path he
  have hexternal : e'.external = e.external := by simpa using congrArg Entry.external he
  unfold addReferences
  rw [hpath, hexternal, hchained, h.rawOf]
  split
  · exact h
  · refine sameShapes_foldl (fun reference _ p p' h ↦ ?_) h
    split
    · exact h
    · exact sameShapes_addChained h rfl

private theorem sameShapes_addAll (h : p.result.SameShapes p'.result) (hc : c.Agree c')
    (hes : shapes es' = shapes es) (listed : List Path) (raw : Entry) :
    (p.addAll c listed raw es).result.SameShapes (p'.addAll c' listed raw es').result := by
  have hfollows : follows c' raw = follows c raw := by
    rw [follows, follows, hc.followsLibraries, hc.followsContainers]
  unfold addAll
  rw [hfollows]
  induction es generalizing es' p p' with
  | nil =>
    obtain rfl := List.map_eq_nil_iff.mp hes
    exact h
  | cons e es ih =>
    obtain ⟨e', rest', rfl, he, hrest⟩ := List.map_eq_cons_iff.mp hes
    have hkind : e'.kind = e.kind := by simpa using congrArg Entry.kind he
    rw [List.foldl_cons, List.foldl_cons]
    refine ih (sameShapes_add ?_ he) hrest
    rw [hkind]
    split
    · exact sameShapes_addReferences h he hc.chained listed
    · exact h

private theorem sameShapes_addFound (h : p.result.SameShapes p'.result) (hc : c.Agree c')
    {found found' : Except Status (List Entry)}
    (hfound : shapes (found'.toOption.getD []) = shapes (found.toOption.getD [])) (listed : List Path) :
    (p.addFound c listed raw found).result.SameShapes (p'.addFound c' listed raw found').result := by
  -- a look-up that fails adds as much as one that finds nothing
  have hnothing : ∀ (p : ResolutionPass) (c : ResolutionContext) found,
      (p.addFound c listed raw found).result.SameShapes
        (p.addAll c listed raw (found.toOption.getD [])).result := by
    intro p c found
    cases found <;> exact ⟨rfl, fun _ ↦ rfl⟩
  have hall := sameShapes_addAll h hc hfound listed raw
  exact ⟨(hnothing p' c' found').entries.symm.trans (hall.entries.trans (hnothing p c found).entries),
    fun path ↦ ((hnothing p' c' found').rawOf path).symm.trans
      ((hall.rawOf path).trans ((hnothing p c found).rawOf path))⟩

end ResolutionPass

/-- The shapes of what a buildpath stands for depend on the shapes of the entries behind the raw ones. -/
theorem shapes_outcome {b b' : Bindings Id} {c c' : ResolutionContext} {raw : List Entry}
    (hc : c.Agree c') (hb : ∀ e ∈ raw, shapes ((entriesBehind b' c' e).run.toOption.getD []) =
      shapes ((entriesBehind b c e).run.toOption.getD [])) :
    shapes (outcome b' c' raw).entries = shapes (outcome b c raw).entries := by
  have hlisted : listedLibraries c' raw = listedLibraries c raw := by
    rw [listedLibraries, listedLibraries, hc.followsLibraries, hc.location]
  rw [outcome, outcome, run_resolve, run_resolve, hlisted]
  generalize listedLibraries c raw = listed
  let pass (b : Bindings Id) (c : ResolutionContext) (p : ResolutionPass) (e : Entry) :=
    p.addFound c listed e (entriesBehind b c e).run
  have hall : (raw.foldl (pass b c) {}).result.SameShapes (raw.foldl (pass b' c') {}).result := by
    refine ResolutionPass.sameShapes_foldl (fun e he p p' h ↦ ?_) ⟨rfl, fun _ ↦ rfl⟩
    exact ResolutionPass.sameShapes_addFound h hc (hb e he) listed
  exact hall.entries

/-- What a variable entry stands for has no patterns, so where it stands tells its shape. -/
theorem shape_entry? {v v' : Variables} {w w' : Workspace} (hkind : e.kind = .variableRef)
    (h : (v'.entry? w' e).map Entry.site = (v.entry? w e).map Entry.site) :
    (v'.entry? w' e).map Entry.shape = (v.entry? w e).map Entry.shape := by
  have hshape : ∀ (v : Variables) (w : Workspace), (v.entry? w e).map Entry.shape =
      ((v.entry? w e).map Entry.site).map fun (kind, path, external) ↦ { kind, path, external } := by
    intro v w
    unfold Variables.entry?
    rw [if_neg (by simp [hkind])]
    cases v.path? e.path with
    | none => rfl
    | some path =>
      dsimp only [Option.bind_eq_bind, Option.bind_some]
      split <;> rfl
  rw [hshape, hshape, h]

/-- Entries that agree on everything but attributes and attachments have the same shapes. -/
theorem shapes_of_sameStructure (h : sameStructure es es') : shapes es = shapes es' := by
  induction es generalizing es' with
  | nil =>
    cases es' with
    | nil => rfl
    | cons => cases h
  | cons e es ih =>
    cases es' with
    | nil => cases h
    | cons e' es' =>
      obtain ⟨hfirst, hrest⟩ := Bool.and_eq_true_iff.mp h
      have hshape : e.shape = e'.shape := by
        simp only [Entry.sameStructure, Bool.and_eq_true, decide_eq_true_eq] at hfirst
        obtain ⟨⟨⟨⟨⟨hkind, hpath⟩, -⟩, hexternal⟩, hinclusions⟩, hexclusions⟩ := hfirst
        rw [Entry.shape, Entry.shape, hkind, hpath, hexternal, hinclusions, hexclusions]
      exact congrArg₂ List.cons hshape (ih hrest)

/-! ### Links -/

/-- The paths of the project entries of a buildpath. -/
def links (es : List Entry) : List Path := (es.filter (·.kind = .project)).map Entry.path

/-- Links are told by the shapes of entries. -/
@[simp] theorem links_shapes (es : List Entry) : links (shapes es) = links es := by
  rw [links, links, shapes, List.filter_map, List.map_map]
  rfl

theorem links_of_shapes (h : shapes es' = shapes es) : links es' = links es := by
  rw [← links_shapes es', h, links_shapes]

theorem mem_links {path : Path} : path ∈ links es ↔ ∃ e ∈ es, e.kind = .project ∧ e.path = path := by
  simp [links, and_assoc]

/-- Whether two lists of paths have the same texts. -/
def SameTexts (ps ps' : List Path) : Prop :=
  ∀ text, text ∈ ps.map Path.toString ↔ text ∈ ps'.map Path.toString

/-- Project entries are matched if there is a link of the same text. -/
theorem text_mem_of_matched (hkind : e.kind = .project) (h : ¬ e.Unmatched es) :
    e.path.toString ∈ (links es).map Path.toString := by
  obtain ⟨o, ho, hroot⟩ : ∃ o ∈ es, o.rootId = e.rootId := by simpa [Entry.Unmatched] using h
  exact List.mem_map.mpr ⟨o.path, mem_links.mpr ⟨o, ho, Entry.kind_eq_project_of_rootId hroot hkind, rfl⟩,
    (Entry.rootTag_eq_of_rootId hroot).2⟩

/-- Buildpaths whose project entries are matched have the same links. -/
theorem SameTexts.of_matched (h : ∀ e ∈ es, e.kind = .project → ¬ e.Unmatched es')
    (h' : ∀ e ∈ es', e.kind = .project → ¬ e.Unmatched es) : SameTexts (links es) (links es') := by
  have hsub : ∀ {es es' : List Entry}, (∀ e ∈ es, e.kind = .project → ¬ e.Unmatched es') →
      ∀ text ∈ (links es).map Path.toString, text ∈ (links es').map Path.toString := by
    intro es es' h text htext
    obtain ⟨path, hpath, rfl⟩ := List.mem_map.mp htext
    obtain ⟨e, he, hkind, rfl⟩ := mem_links.mp hpath
    exact text_mem_of_matched hkind (h e he hkind)
  exact fun text ↦ ⟨hsub h text, hsub h' text⟩

/-- The projects that a buildpath requires, in the order of its entries. -/
theorem filterMap_projectName? (es : List Entry) :
    es.filterMap Entry.projectName? = (links es).filterMap Path.firstSegment? := by
  induction es with
  | nil => rfl
  | cons e es ih =>
    by_cases hkind : e.kind = .project
    · have hlinks : links (e :: es) = e.path :: links es := by simp [links, hkind]
      have hname : e.projectName? = e.path.firstSegment? := if_pos hkind
      rw [hlinks, List.filterMap_cons, List.filterMap_cons, hname, ih]
    · have hlinks : links (e :: es) = links es := by simp [links, hkind]
      have hname : e.projectName? = none := if_neg hkind
      rw [hlinks, List.filterMap_cons, hname, ih]

end Buildpath
