import Buildpath.Proofs.Xml.Written

/-!
# Documents put together from pieces

Written elements are pieces, and a document is read from the content of its root element
(`parse_written`). Whether a text can stand below an element without the prefixes declared where it
was read is a property of the text (`Embeds`).
-/

namespace Buildpath.Xml

variable {scope : Scope} {name cs : List Char} {as : List (String × String)}
  {r : Option (List Node)}

/-- Attributes that can be written: local names, and none that declares prefixes. -/
def Writable (as : List (String × String)) : Prop :=
  ∀ a ∈ as, LocalName a.1.toList ∧ a.1.toList ≠ declarationWord

/-- The element of a written tag that closes it. -/
def closedElement (name : List Char) (as : List (String × String)) : Node :=
  .element (String.ofList name) (as.map nodeAttribute) [] (openTagText name as true)

/-- The element of written tags with given children. -/
def writtenElement (name : List Char) (as : List (String × String)) (ns : List Node) : Node :=
  .element (String.ofList name) (as.map nodeAttribute) ns
    (openTagText name as false ++ ns.flatMap Node.source ++ closeTagText name)

/-- A written element without content. -/
theorem piece_written_closed (hn : LocalName name) (has : Writable as) :
    Piece scope (openTagText name as true)
      (if (as.map Prod.fst).Nodup then some [closedElement name as] else none) := by
  have hl := reads_openTag hn (fun a ha ↦ (has a ha).1) true
  have hf := frameIn_written scope name (openTagText name as true) fun a ha ↦ (has a ha).2
  split at hf
  · next hd =>
    rw [if_pos hd]
    exact piece_closed rfl hl hf
  · next hd =>
    rw [if_neg hd]
    obtain ⟨e, he⟩ := hf
    exact piece_closed_error rfl hl he

/-- A written element with content. -/
theorem Content.written (hn : LocalName name) (has : Writable as) (hi : Content scope cs r) :
    Piece scope (openTagText name as false ++ cs ++ closeTagText name)
      (if (as.map Prod.fst).Nodup then r.map fun ns ↦ [writtenElement name as ns] else none) := by
  have hl := reads_openTag hn (fun a ha ↦ (has a ha).1) false
  have hclose : Lexeme.token ⟨.closeTag ⟨[], name⟩, closeTagText name⟩ = _ := rfl
  have hf := frameIn_written scope name (openTagText name as false) fun a ha ↦ (has a ha).2
  split at hf
  · next hd =>
    rw [if_pos hd]
    exact hi.element rfl hclose hl (reads_closeTag hn) hf
  · next hd =>
    rw [if_neg hd]
    obtain ⟨e, he⟩ := hf
    exact hi.element_error rfl hclose hl (reads_closeTag hn) he

/-! ### Whole documents -/

/-- Reading a document after its declaration. -/
def parseBody (body : List Char) : Except XmlError Node :=
  lexAll (body.length + 1) body >>= fun ls ↦ ls.foldlM Builder.step {} >>= Builder.finish

theorem parse_eq {text body : List Char} (h : skipDeclaration (dropMark text) = .ok body) :
    parse text = if text.all isDocumentChar then parseBody body else .error .forbiddenChar := by
  have hlexemes : lexemes text = if !text.all isDocumentChar then .error .forbiddenChar else
      skipDeclaration (dropMark text) >>= fun body ↦ lexAll (body.length + 1) body := rfl
  change lexemes text >>= _ = _
  rw [hlexemes, h, bind_ok]
  by_cases ht : text.all isDocumentChar
  · rw [if_pos ht, if_neg (by simp [ht])]
    rfl
  · rw [if_neg ht, if_pos (by simpa using ht)]
    rfl

/-- The lexemes of a gap that may be empty. -/
private def gapLexemes (w : List Char) : List Lexeme := if w = [] then [] else [⟨.text w, w⟩]

private theorem flatMap_gapLexemes (w : List Char) : (gapLexemes w).flatMap Lexeme.source = w := by
  unfold gapLexemes
  split
  · next h => rw [h]; rfl
  · simp

private theorem lexed_gapLexemes {w rest : List Char} (hw : ∀ c ∈ w, isSpace c)
    (hr : Ends (· ≠ '<') rest) : Lexed (gapLexemes w) rest := by
  unfold gapLexemes
  split
  · trivial
  · next h => exact ⟨reads_blanks h hw, fun _ _ ↦ hr, trivial⟩

/-- Blanks outside the root change nothing. -/
private theorem foldlM_gapLexemes {w : List Char} (hw : ∀ c ∈ w, isSpace c) (root : Option Node) :
    (gapLexemes w).foldlM Builder.step ⟨[], root⟩ = .ok ⟨[], root⟩ := by
  unfold gapLexemes
  split
  · rfl
  · change (if (decodeValue w).isSome then _ else _) >>= pure = _
    rw [if_pos (decodeValue_blanks hw)]
    change (if w.all isSpace then _ else _) >>= pure = _
    rw [if_pos (List.all_eq_true.mpr hw)]
    rfl

/-- A document is read from the content of its root element, with blanks around it. -/
theorem parseBody_written {w w' : List Char} (hw : ∀ c ∈ w, isSpace c) (hw' : ∀ c ∈ w', isSpace c)
    (hn : LocalName name) (hi : Content [] cs r) :
    Yields (parseBody (w ++ (openTagText name [] false ++ cs ++ closeTagText name) ++ w'))
      (r.map (writtenElement name [])) := by
  obtain ⟨ls, hlexed, rfl, hr⟩ := hi
  let tag : Lexeme := ⟨.openTag ⟨[], name⟩ [] false, openTagText name [] false⟩
  let close : Lexeme := ⟨.closeTag ⟨[], name⟩, closeTagText name⟩
  let own : Frame := ⟨⟨[], name⟩, [], [], openTagText name [] false, []⟩
  have htag : tag.Reads := @reads_openTag name [] hn nofun false
  have hall : Lexed (gapLexemes w ++ (tag :: ls ++ [close]) ++ gapLexemes w') [] := by
    refine lexed_append.mpr ⟨lexed_append.mpr ⟨lexed_gapLexemes hw ?_, ?_⟩,
      lexed_gapLexemes hw' ends_nil⟩
    · exact ends_cons.mpr (by decide)
    · exact lexed_element rfl rfl htag (reads_closeTag hn) hlexed _
  have hsources : (gapLexemes w ++ (tag :: ls ++ [close]) ++ gapLexemes w').flatMap Lexeme.source =
      w ++ (tag.source ++ ls.flatMap Lexeme.source ++ close.source) ++ w' := by
    simp [flatMap_gapLexemes]
  have hfuel : ((gapLexemes w ++ (tag :: ls ++ [close]) ++ gapLexemes w').flatMap Lexeme.source ++
      []).length ≤ (w ++ (tag.source ++ ls.flatMap Lexeme.source ++ close.source) ++ w').length + 1 := by
    rw [hsources, List.append_nil]
    exact Nat.le_succ _
  have hlex := lexAll_append hall hfuel
  rw [hsources, List.append_nil] at hlex
  have hopen : Builder.step ⟨[], none⟩ tag = .ok ⟨[own], none⟩ := rfl
  have hrun := hr own [] none rfl
  rw [parseBody, hlex]
  change Yields (List.foldlM _ _ (_ ++ []) >>= Builder.finish) _
  rw [List.append_nil, List.foldlM_append, List.foldlM_append, foldlM_gapLexemes hw, bind_ok,
    List.cons_append, List.foldlM_cons, hopen, bind_ok, List.foldlM_append]
  cases r with
  | none =>
    obtain ⟨e, he⟩ := hrun
    exact ⟨e, by rw [he]; rfl⟩
  | some ns =>
    rw [show ls.foldlM Builder.step ⟨[own], none⟩ = .ok _ from hrun, bind_ok]
    have hclose : [close].foldlM Builder.step ⟨[{ own with children := ns.reverse ++ [] }], none⟩ =
        .ok ⟨[], some (writtenElement name [] ns)⟩ := by
      change (if (⟨[], name⟩ : QName) = ⟨[], name⟩ then _ else _) >>= pure = _
      rw [if_pos rfl]
      simp [Frame.close, Builder.add, own, close, writtenElement]
    change ([close].foldlM Builder.step _ >>= fun b ↦ (gapLexemes w').foldlM Builder.step b) >>=
      Builder.finish = _
    rw [hclose, bind_ok, foldlM_gapLexemes hw']
    rfl

/-! ### Texts that stand alone -/

/-- A text as the content of an element without declared prefixes. -/
def parseAlone (s : String) : Except XmlError Node := parse ("<x>" ++ s ++ "</x>").toList

/-- A text that is the content of some element without declared prefixes. -/
def Embeds (s : String) : Prop := ∃ root, parseAlone s = .ok root

/-- The nodes of a text that stands alone. -/
def nodesAlone (s : String) : Option (List Node) :=
  match parseAlone s with
  | .ok root => some root.children
  | .error _ => none

theorem embeds_iff_isSome {s : String} : Embeds s ↔ (nodesAlone s).isSome := by
  unfold Embeds nodesAlone
  cases parseAlone s with
  | error e => exact ⟨nofun, nofun⟩
  | ok root => exact ⟨fun _ ↦ rfl, fun _ ↦ ⟨root, rfl⟩⟩

/-- What a piece adds where no prefixes are declared are its nodes. -/
theorem nodesAlone_eq {s : String} (h : Piece [] s.toList r)
    (hs : ∀ c ∈ s.toList, isDocumentChar c) : nodesAlone s = r := by
  have hx : LocalName ['x'] := ⟨by decide, List.all_eq_true.mp (by decide), by decide⟩
  have htext : ("<x>" ++ s ++ "</x>").toList =
      openTagText ['x'] [] false ++ s.toList ++ closeTagText ['x'] := by
    rw [String.toList_append, String.toList_append]
    rfl
  have hall : ("<x>" ++ s ++ "</x>").toList.all isDocumentChar := by
    rw [htext, List.all_append, List.all_append, List.all_eq_true.mpr hs]
    decide
  have hbody := @parseBody_written ['x'] s.toList r [] [] nofun nofun hx h.content
  rw [List.nil_append, List.append_nil, ← htext] at hbody
  have hskip : skipDeclaration (dropMark ("<x>" ++ s ++ "</x>").toList) =
      .ok ("<x>" ++ s ++ "</x>").toList := by
    rw [htext]
    rfl
  rw [nodesAlone, parseAlone, parse_eq hskip, if_pos hall]
  cases r with
  | none =>
    obtain ⟨e, he⟩ := hbody
    rw [he]
  | some ns =>
    rw [show parseBody _ = .ok _ from hbody]
    rfl

/-- The source of a node of a document, other than a text, is a piece with its nodes; there is at most
one, and it is like that node. -/
theorem Faithful.alone {n : Node} (h : Faithful n) (hn : n.isText = false) :
    Piece [] n.source (nodesAlone (String.ofList n.source)) ∧
      ∀ ns ∈ nodesAlone (String.ofList n.source), ∃ n', ns = [n'] ∧ n.Alike n' := by
  obtain ⟨r, hr, hns⟩ := h.piece hn []
  have he : nodesAlone (String.ofList n.source) = r := by
    apply nodesAlone_eq
    · rwa [String.toList_ofList]
    · rw [String.toList_ofList]
      exact h.source_chars
  exact ⟨he ▸ hr, he ▸ hns⟩

end Buildpath.Xml
