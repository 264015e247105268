import Buildpath.Proofs.Document.Format
import Buildpath.Proofs.Path

/-!
# Reading undoes writing

An encoded buildpath without foreign content is read as the entries it was written from. Only the
texts of paths are at stake: the encoder cuts the project off the path of a resource of it, and the
decoder puts it in front of what is neither absolute nor leads to a parent folder.
-/

namespace Buildpath

variable {project : Path} {e : Entry}

/-! ### Paths of entries -/

/-- The path whose text is written for an entry: the part below the project for a resource of it. -/
def Entry.writtenPath (project : Path) (e : Entry) : Path :=
  if isProjectKind e.kind && !e.external && project.isPrefixOf e.path then
    e.path.dropFirst project.segmentCount
  else e.path

theorem encodePath_eq (project : Path) (e : Entry) :
    encodePath project e = (e.writtenPath project).toString :=
  (apply_ite Path.toString _ _ _).symm

/-- An entry that a document can hold: its path is in normal form, its texts can stand there, its
patterns can be joined, its paths read back from the texts written for them, and a resource of a
project is not relative to anything but a parent folder. -/
structure Entry.Encodable (project : Path) (e : Entry) : Prop where
  plain : e.Plain
  storable : Storable (encodePath project e)
  path : Path.parse (e.writtenPath project).toString = e.writtenPath project
  attachments : ∀ p ∈ e.attachmentPath.toList ++ e.attachmentRoot.toList,
    Path.parse p.toString = p
  placed : isProjectKind e.kind → e.external = false → e.path.absolute ∨ e.path.startsWithParent
  canonical : e.path.Canonical

/-- The path of an entry reads back. -/
theorem decodePath_encodePath (hp : project.absolute) (h : e.Encodable project) :
    decodePath project e.kind e.external (encodePath project e) = e.path := by
  rw [encodePath_eq, decodePath, h.path]
  by_cases hbelow : isProjectKind e.kind && !e.external && project.isPrefixOf e.path
  · have hwritten : e.writtenPath project = e.path.dropFirst project.segmentCount := if_pos hbelow
    obtain ⟨hresource, hprefix⟩ := (Bool.and_eq_true _ _).mp hbelow
    have habsolute : e.path.absolute := by
      obtain ⟨hroot, -⟩ := (Bool.and_eq_true _ _).mp hprefix
      rw [← of_decide_eq_true ((Bool.and_eq_true _ _).mp hroot).2]
      exact hp
    -- the part below the project is relative and leads to no parent folder
    rw [hwritten, Path.startsWithParent_dropFirst h.canonical habsolute, hresource]
    exact Path.append_dropFirst h.canonical hprefix
  · have hwritten : e.writtenPath project = e.path := if_neg hbelow
    rw [hwritten, if_neg]
    intro hrelative
    simp only [Bool.and_eq_true, Bool.not_eq_true'] at hrelative
    obtain ⟨⟨⟨hkind, hinternal⟩, habsolute⟩, hparent⟩ := hrelative
    rcases h.placed hkind hinternal with h' | h'
    · exact Bool.false_ne_true (habsolute.symm.trans h')
    · exact Bool.false_ne_true (hparent.symm.trans h')

/-- An entry that a document can hold comes back. -/
theorem reread_encodable (hp : project.absolute) (h : e.Encodable project) :
    e.reread project = e := by
  have attached : ∀ path : Option Path, (∀ p ∈ path.toList, Path.parse p.toString = p) →
      path.map (fun p ↦ Path.parse p.toString) = path := by
    rintro (_ | p) hread
    · rfl
    · exact congrArg some (hread p (List.mem_singleton_self p))
  rw [Entry.reread, decodePath_encodePath hp h,
    attached _ fun p hp ↦ h.attachments p (List.mem_append_left _ hp),
    attached _ fun p hp ↦ h.attachments p (List.mem_append_right _ hp)]

/-! ### Documents -/

/-- A document without foreign content is read without foreign content. -/
theorem foreign_reread_nil (project : Path) (es : List Entry) :
    (Document.reread project ⟨es, {}⟩).foreign = {} := by
  have blocks_nil : ∀ place, ∀ b ∈ blocks {} place es, ∃ e, b = .entry e := by
    rintro place (source | e) hb
    · obtain ⟨item, hi, -⟩ := mem_blocks_kept.mp hb
      cases hi
    · exact ⟨e, rfl⟩
  have content_nil : ∀ e : Entry, (ForeignContent.reread project e {}).isEmpty := by
    intro e
    have hknown : (encodeAttributes project e {}).filter (fun a ↦ a.1 ∉ knownAttributes) = [] := by
      rw [List.filter_eq_nil_iff]
      intro a ha hforeign
      have hmem := ((encodeAttributes_perm project e kept_empty).map Prod.fst).subset
        (List.mem_map_of_mem ha)
      rw [List.append_nil] at hmem
      exact of_decide_eq_true hforeign ((map_fst_knownPart project e).subset hmem)
    rw [ForeignContent.reread, hknown]
    rfl
  have keeps : ∀ (bs : List Block) (d : Document), (∀ b ∈ bs, ∃ e, b = .entry e) →
      d.foreign = {} → (bs.foldl (takeBlock project {}) d).foreign = {} := by
    intro bs
    induction bs with
    | nil => exact fun d _ hd ↦ hd
    | cons b bs ih =>
      intro d hentries hd
      refine ih _ (fun b' h' ↦ hentries b' (List.mem_cons_of_mem b h')) ?_
      obtain ⟨e, rfl⟩ := hentries b List.mem_cons_self
      exact (if_pos (content_nil e)).trans hd
  exact keeps _ {} (blocks_nil 0) rfl

/-- Reading undoes writing for entries that a document can hold: they are all that comes back, in
their order. -/
theorem decode_encode_encodable {es : List Entry} (hp : project.absolute)
    (h : ∀ e ∈ es, e.Encodable project) :
    Document.decode project (Document.encode project ⟨es, {}⟩) = .ok ⟨es, {}⟩ := by
  have survives : ∀ e ∈ es, e.Survives project :=
    fun e he ↦ ⟨(h e he).plain, (h e he).storable, reread_encodable hp (h e he)⟩
  obtain ⟨hdecode, hentries⟩ := decode_encode_survives (d := ⟨es, {}⟩) kept_nil survives
    ⟨nofun, fun _ _ ↦ List.nodup_nil, fun _ _ ↦ nofun⟩
  rw [hdecode]
  exact congrArg Except.ok (congrArg₂ Document.mk hentries (foreign_reread_nil project es))

/-- A source folder of the project, a library beside it with an attachment and an attribute, and an
exported container come back. -/
theorem source_library_container_read_back :
    let entries : List Entry := [
      { kind := .source, path := .parse "/p/src", exclusions := ["**/*.bak", "a b"] },
      { kind := .library, path := .parse "../lib/a.zip", attachmentPath := some (.parse "C:/src"),
        attributes := [⟨"doc", "<&>"⟩] },
      { kind := .container, path := .parse "LIBS/core", exported := true }]
    Document.decode (.parse "/p") (Document.encode (.parse "/p") ⟨entries, {}⟩) =
      .ok ⟨entries, {}⟩ := by
  refine decode_encode_encodable (by decide) fun e he ↦ ?_
  simp only [List.mem_cons, List.not_mem_nil, or_false] at he
  rcases he with rfl | rfl | rfl
  all_goals
    refine ⟨⟨by decide +kernel, by decide +kernel, by decide +kernel⟩, by decide +kernel,
      by decide +kernel, by decide +kernel, by decide +kernel, ?_⟩
    dsimp only
    exact Path.canonical_parse _

end Buildpath
