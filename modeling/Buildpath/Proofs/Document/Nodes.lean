import Buildpath.Document.Decode
import Buildpath.Proofs.Document.Layout

/-!
# The nodes of written documents

What a written document is read as. Its entry elements are read back unless foreign attributes share a
name, and its foreign content is where it can stand alone; otherwise the document is refused.
-/

namespace Buildpath

open Xml

/-! ### Foreign content of documents -/

/-- Foreign content of an entry as it is found in documents: attributes with local names that have no
meaning, and sources of elements other than groups of extra attributes. -/
structure ForeignContent.Kept (content : ForeignContent) : Prop where
  attributes : ∀ a ∈ content.attributes, LocalName a.1.toList ∧ a.1.toList ≠ declarationWord ∧
    (∀ c ∈ a.2.toList, isDocumentChar c) ∧ a.1 ∉ knownAttributes
  children : ∀ s ∈ content.children, ∃ n, Faithful n ∧ n.isElement ∧ isAttributeGroup n = false ∧
    s = String.ofList n.source

/-- Foreign content as it is found in documents. The items of the root are no entries. -/
structure Foreign.Kept (foreign : Foreign) : Prop where
  entries : ∀ path content, foreign.entries.find? path = some content → content.Kept
  topLevel : ∀ item ∈ foreign.topLevel, ∃ n, Faithful n ∧ n.isText = false ∧
    (n.isElement → n.name ≠ fileWords.entry) ∧ item.2 = String.ofList n.source

theorem kept_empty : ForeignContent.Kept {} := ⟨nofun, nofun⟩

theorem kept_nil : Foreign.Kept {} :=
  ⟨fun path content h ↦ absurd h (by simp [Table.find?, Table.empty]), fun item h ↦ nomatch h⟩

theorem Foreign.Kept.content {foreign : Foreign} (h : foreign.Kept) (e : Entry) :
    (foreign.content e).Kept := by
  unfold Foreign.content
  cases hc : foreign.entries.find? e.path with
  | none => exact kept_empty
  | some content => exact h.entries e.path content hc

theorem isText_of_isElement {n : Node} (h : n.isElement) : n.isText = false := by
  cases n with
  | element name attributes children source => rfl
  | comment source => rfl
  | instruction source => rfl
  | text source => cases h

/-- The foreign content of a faithful element. -/
theorem kept_decodeForeign {n : Node} (h : Faithful n) : (decodeForeign n).Kept := by
  constructor
  · intro a ha
    obtain ⟨b, hb, he⟩ := List.mem_filterMap.mp ha
    obtain ⟨hlocal, hdecl, hchars⟩ := h.attribute hb
    split at he
    · cases he
    · next hknown =>
      obtain rfl := Option.some.inj he
      exact ⟨hlocal, hdecl, hchars, hknown⟩
  · intro s hs
    obtain ⟨c, hc, rfl⟩ := List.mem_map.mp hs
    obtain ⟨hc, helement⟩ := List.mem_filter.mp hc
    obtain ⟨helement, hgroup⟩ := (Bool.and_eq_true _ _).mp helement
    exact ⟨c, h.child hc, helement, by simpa using hgroup, rfl⟩

/-! ### Reading the children of the root -/

/-- Whether a child of the root element is an entry. -/
def isEntryElement (n : Node) : Bool := n.isElement && n.name = fileWords.entry

theorem isText_of_isEntryElement {n : Node} (h : isEntryElement n) : n.isText = false :=
  isText_of_isElement ((Bool.and_eq_true _ _).mp h).1

/-- What a child of the root does to a document: a text is skipped, an entry is added with its foreign
content, and anything else is kept at its place. -/
inductive Document.Takes (project : Path) (d : Document) (n : Node) : Document → Prop
  | text (ht : n.isText) : Takes project d n d
  | kept (ht : n.isText = false) (hn : isEntryElement n = false) :
      Takes project d n { d with foreign := { d.foreign with
        topLevel := d.foreign.topLevel ++ [(d.entries.length, String.ofList n.source)] } }
  | entry {e : Entry} (hn : isEntryElement n) (he : decodeElement project n = .ok e) :
      Takes project d n
        { entries := d.entries ++ [e]
          foreign := { d.foreign with
            entries := if (decodeForeign n).isEmpty then d.foreign.entries
              else d.foreign.entries.insert e.path (decodeForeign n) } }

theorem takes_of_decodeChild {project : Path} {d d' : Document} {n : Node}
    (h : d.decodeChild project n = .ok d') : d.Takes project n d' := by
  cases n with
  | text source => exact Except.ok.inj h ▸ .text rfl
  | comment source => exact Except.ok.inj h ▸ .kept rfl rfl
  | instruction source => exact Except.ok.inj h ▸ .kept rfl rfl
  | element name attributes children source =>
    rw [Document.decodeChild] at h
    split at h
    · next hname =>
      obtain ⟨e, he, h⟩ := bind_eq_ok.mp h
      obtain rfl := Except.ok.inj h
      have hn : isEntryElement (.element name attributes children source) := decide_eq_true hname
      have hentry := @Document.Takes.entry project d _ e hn he
      dsimp only
      split
      · next hempty => rwa [if_pos hempty] at hentry
      · next hempty => rwa [if_neg hempty] at hentry
    · next hname => exact Except.ok.inj h ▸ .kept rfl (decide_eq_false hname)

/-- Reading a child of the root keeps the foreign content. -/
private theorem kept_decodeChild {project : Path} {d d' : Document} {n : Node}
    (hd : d.foreign.Kept) (hn : Faithful n) (h : d.decodeChild project n = .ok d') :
    d'.foreign.Kept := by
  cases takes_of_decodeChild h with
  | text ht => exact hd
  | kept ht hname =>
    refine ⟨hd.entries, fun item hi ↦ ?_⟩
    rcases List.mem_append.mp hi with hi | hi
    · exact hd.topLevel item hi
    · obtain rfl := List.mem_singleton.mp hi
      refine ⟨n, hn, ht, fun helement he ↦ Bool.false_ne_true (hname.symm.trans ?_), rfl⟩
      exact (Bool.and_eq_true _ _).mpr ⟨helement, decide_eq_true he⟩
  | entry hname he =>
    refine ⟨fun path content hc ↦ ?_, hd.topLevel⟩
    dsimp only at hc
    split at hc
    · exact hd.entries path content hc
    · rw [Table.find?_insert] at hc
      split at hc
      · exact Option.some.inj hc ▸ kept_decodeForeign hn
      · exact hd.entries path content hc

theorem decode_eq (project : Path) (text : String) :
    Document.decode project text =
      parseTree text >>= fun root ↦
        if asciiLower root.name ≠ asciiLower fileWords.root then .error (.unexpectedRoot root.name)
        else root.children.foldlM (Document.decodeChild project) {} :=
  rfl

/-- A document that was read is the children of a faithful root element taken one after another. -/
theorem exists_root_of_decode {project : Path} {text : String} {d : Document}
    (h : Document.decode project text = .ok d) :
    ∃ root, Faithful root ∧ root.children.foldlM (Document.decodeChild project) {} = .ok d := by
  rw [decode_eq] at h
  obtain ⟨root, hroot, h⟩ := bind_eq_ok.mp h
  unfold parseTree at hroot
  split at hroot
  · next hparse =>
    obtain rfl := Except.ok.inj hroot
    split at h
    · cases h
    · exact ⟨_, faithful_of_parse hparse, h⟩
  · cases hroot

/-- The foreign content of a document that was read. -/
theorem kept_of_decode {project : Path} {text : String} {d : Document}
    (h : Document.decode project text = .ok d) : d.foreign.Kept := by
  obtain ⟨root, hroot, h⟩ := exists_root_of_decode h
  exact foldlM_keeps (I := fun d : Document ↦ d.foreign.Kept)
    (fun n hn _ _ hd hs ↦ kept_decodeChild hd (hroot.child hn) hs) kept_nil h

end Buildpath
