import Buildpath.Proofs.Xml.Documents
import Mathlib.Data.List.Nodup

/-!
# Documents without namespaces

Where no name has a prefix and none is declared, nothing depends on what is declared around a node.
The source of every node of such a document is then read as that very node wherever it stands
(`Verbatim.alone`).
-/

namespace Buildpath.Xml

instance : DecidablePred QName.Plain := fun q ↦
  decidable_of_iff (q.space = [] ∧ q.name ≠ declarationWord) ⟨fun h ↦ ⟨h.1, h.2⟩, fun h ↦ ⟨h.1, h.2⟩⟩

/-- A token that has and declares no prefixes. -/
def Token.Unprefixed : Token → Prop
  | .openTag name written _ => name.space = [] ∧ ∀ w ∈ written, w.1.Plain
  | _ => True

instance : DecidablePred Token.Unprefixed := fun t ↦
  match t with
  | .openTag name written _ => inferInstanceAs (Decidable (name.space = [] ∧ ∀ w ∈ written, w.1.Plain))
  | .comment | .instruction | .text _ | .characterData | .closeTag _ => .isTrue trivial

/-- A text whose tags have and declare no prefixes. -/
def Unprefixed (text : List Char) : Prop :=
  ∀ ls, lexemes text = .ok ls → ∀ l ∈ ls, l.token.Unprefixed

instance (text : List Char) : Decidable (Unprefixed text) :=
  match h : lexemes text with
  | .ok ls => decidable_of_iff (∀ l ∈ ls, l.token.Unprefixed)
      ⟨fun hall _ he ↦ Except.ok.inj (h.symm.trans he) ▸ hall, fun ht ↦ ht ls h⟩
  | .error _ => .isTrue fun _ he ↦ nomatch h.symm.trans he

variable {scope : Scope} {n : Node}

/-! ### Runs without prefixes -/

/-- A tag without prefixes opens the same element wherever it stands. -/
private theorem frameIn_unprefixed {name : QName} {written : List (QName × List Char)}
    {attributes : List NodeAttribute} (ha : AttributesOf attributes written) (hn : name.space = [])
    (hw : ∀ w ∈ written, w.1.Plain) (scope : Scope) (source : List Char) :
    frameIn scope name written source = .ok ⟨name, attributes, scope, source, []⟩ := by
  obtain ⟨decoded, hdecoded, hresolved⟩ := ha.plain hw
  have hplain := plain_decodeAttributes hdecoded hw
  have hdeclaration : name.space ≠ declarationWord := by
    rw [hn]
    decide
  rw [frameIn, openFrame_eq, if_neg hdeclaration, hdecoded, bind_ok, declaredScope_plain hplain,
    bind_ok, filter_plain hplain, hresolved, bind_ok, hn]
  rfl

private theorem runs_each {parts : List (Node × List Lexeme)}
    (h : ∀ part ∈ parts, Runs scope part.2 (some [part.1])) :
    Runs scope (parts.flatMap Prod.snd) (some (parts.map Prod.fst)) := by
  induction parts with
  | nil => exact runs_nil
  | cons part parts ih =>
    exact (h part List.mem_cons_self).append (ih fun other ho ↦ h other (List.mem_cons_of_mem part ho))

/-- The run of a node without prefixes adds this node to every element. -/
theorem Sourced.runs_unprefixed {own : List Lexeme} (h : Sourced n own)
    (hp : ∀ l ∈ own, l.token.Unprefixed) (scope : Scope) : Runs scope own (some [n]) := by
  induction h generalizing scope with
  | comment h => exact runs_comment h
  | instruction h => exact runs_instruction h
  | characterData h => exact runs_characterData h
  | text h hd => exact runs_text h hd
  | @closed l name written attributes h ha =>
    have htag : Token.Unprefixed (.openTag name written true) := h ▸ hp l List.mem_cons_self
    exact runs_closed h (frameIn_unprefixed ha htag.1 htag.2 scope l.source)
  | @element l close name written attributes parts h ha hc _ ih =>
    have htag : Token.Unprefixed (.openTag name written false) := h ▸ hp l (by simp)
    have hparts : Runs scope (parts.flatMap Prod.snd) (some (parts.map Prod.fst)) := by
      refine runs_each fun part hpart ↦ ih part hpart (fun l' hl ↦ hp l' ?_) scope
      exact List.mem_append_left _ (List.mem_cons_of_mem _ (List.mem_flatMap.mpr ⟨part, hpart, hl⟩))
    exact hparts.element h hc (frameIn_unprefixed ha htag.1 htag.2 scope l.source)

/-! ### Nodes without prefixes -/

/-- A node that is said by lexemes without prefixes that read back, in characters of documents. -/
def Verbatim (n : Node) : Prop :=
  ∃ own rest, Sourced n own ∧ Lexed own rest ∧ (∀ c ∈ n.source, isDocumentChar c) ∧
    ∀ l ∈ own, l.token.Unprefixed

theorem Verbatim.faithful (h : Verbatim n) : Faithful n := by
  obtain ⟨own, rest, hn, hlexed, hchars, -⟩ := h
  exact ⟨own, rest, hn, hlexed, hchars⟩

/-- The root of a document without namespaces has no prefixes. -/
theorem verbatim_of_parse {text : List Char} {root : Node} (ht : Unprefixed text)
    (h : parse text = .ok root) : Verbatim root := by
  obtain ⟨ls, own, rest, hls, hown, hroot, hlexed, hchars⟩ := exists_lexed_of_parse h
  exact ⟨own, rest, hroot, hlexed, hchars, fun l hl ↦ ht ls hls l (hown hl)⟩

theorem Verbatim.child {c : Node} (h : Verbatim n) (hc : c ∈ n.children) : Verbatim c := by
  obtain ⟨own, rest, hn, hlexed, hchars, hp⟩ := h
  obtain ⟨part, rest', hpart, hlexed', hown, hsource⟩ := hn.child hlexed hc
  exact ⟨part, rest', hpart, hlexed', fun d hd ↦ hchars d (hsource hd), fun l hl ↦ hp l (hown hl)⟩

/-- The source of a node without prefixes is read as the node itself. -/
theorem Verbatim.alone (h : Verbatim n) (hn : n.isText = false) :
    nodesAlone (String.ofList n.source) = some [n] := by
  obtain ⟨own, rest, hs, hlexed, hchars, hp⟩ := h
  obtain ⟨l, ls, last, -, -, hlast, htext⟩ := hs.markup hn
  obtain ⟨ls', rfl⟩ := List.getLast?_eq_some_iff.mp hlast
  have hpiece : Piece [] n.source (some [n]) :=
    ⟨ls' ++ [last], hlexed.of_last htext, hs.source_eq, hs.runs_unprefixed hp []⟩
  apply nodesAlone_eq
  · rwa [String.toList_ofList]
  · rwa [String.toList_ofList]

/-- Attributes with plain names have no prefixes, and their names are different. -/
private theorem resolved_plain {seen attributes : List NodeAttribute}
    {decoded : List (QName × String)} (hd : ∀ d ∈ decoded, d.1.Plain)
    (hs : ∀ a ∈ seen, a.space = none) (hn : (seen.map NodeAttribute.name).Nodup)
    (h : resolveAttributes scope seen decoded = .ok attributes) :
    (∀ a ∈ attributes, a.space = none) ∧ (attributes.map NodeAttribute.name).Nodup := by
  induction decoded generalizing seen with
  | nil =>
    obtain rfl := Except.ok.inj h
    refine ⟨fun a ha ↦ hs a (List.mem_reverse.mp ha), ?_⟩
    rw [List.map_reverse]
    exact List.nodup_reverse.mpr hn
  | cons d decoded ih =>
    obtain ⟨name, value⟩ := d
    have hspace : name.space = [] := (hd (name, value) List.mem_cons_self).space
    rw [resolveAttributes_cons, hspace] at h
    change (if seen.any fun s ↦ s.space = none && s.name = String.ofList name.name then _ else _) = _
      at h
    split at h
    · cases h
    · next hnew =>
      refine ih (fun d hm ↦ hd d (List.mem_cons_of_mem _ hm)) ?_ ?_ h
      · intro a ha
        rcases List.mem_cons.mp ha with rfl | ha
        · rfl
        · exact hs a ha
      · refine List.nodup_cons.mpr ⟨fun hm ↦ hnew ?_, hn⟩
        obtain ⟨a, ha, hname⟩ := List.mem_map.mp hm
        exact List.any_eq_true.mpr ⟨a, ha, by simp [hs a ha, hname]⟩

/-- The attributes of a node without prefixes have none, and their names are different. -/
theorem Verbatim.attributes (h : Verbatim n) :
    (∀ a ∈ n.attributes, a.space = none) ∧ (n.attributes.map NodeAttribute.name).Nodup := by
  obtain ⟨own, rest, hs, -, -, hp⟩ := h
  have tag : ∀ {l : Lexeme} {name : QName} {isClosed : Bool} {written : List (QName × List Char)},
      l.token = .openTag name written isClosed → l.token.Unprefixed →
      AttributesOf n.attributes written →
      (∀ a ∈ n.attributes, a.space = none) ∧ (n.attributes.map NodeAttribute.name).Nodup := by
    intro l name isClosed written ht hl hof
    rw [ht] at hl
    obtain ⟨decoded, hdecoded, hresolved⟩ := hof.plain hl.2
    have hnone : ∀ a ∈ ([] : List NodeAttribute), a.space = none := fun a ha ↦ nomatch ha
    exact resolved_plain (plain_decodeAttributes hdecoded hl.2) hnone List.nodup_nil (hresolved [])
  cases hs with
  | comment h => exact ⟨nofun, List.nodup_nil⟩
  | instruction h => exact ⟨nofun, List.nodup_nil⟩
  | characterData h => exact ⟨nofun, List.nodup_nil⟩
  | text h hd => exact ⟨nofun, List.nodup_nil⟩
  | closed h hof => exact tag h (hp _ List.mem_cons_self) hof
  | element h hof hc hparts => exact tag h (hp _ (by simp)) hof

end Buildpath.Xml
