import Buildpath.Proofs.Xml.Building

/-!
# Pieces of documents

A piece is a text that lexes the same wherever it stands and that adds known nodes to an open element,
or fails, depending only on the prefixes declared there (`Piece`). Documents are put together from
pieces, and the source of every node of a document is one (`Faithful.piece`).
-/

namespace Buildpath.Xml

/-- Whether the node is a text. -/
def Node.isText : Node → Bool
  | .text _ => true
  | _ => false

/-- Two nodes that differ only in attributes and below. -/
structure Node.Alike (n n' : Node) : Prop where
  isText : n'.isText = n.isText
  isElement : n'.isElement = n.isElement
  name : n'.name = n.name
  source : n'.source = n.source

theorem Node.Alike.refl (n : Node) : n.Alike n := ⟨rfl, rfl, rfl, rfl⟩

/-! ### Runs of lexemes below an open element -/

/-- The nodes of two runs, if neither fails. -/
def both (r r' : Option (List Node)) : Option (List Node) := r.bind fun ns ↦ r'.map (ns ++ ·)

/-- Taking in a run of lexemes in an element with some prefixes declared adds the given nodes, or
fails if there are none. -/
def Runs (scope : Scope) (ls : List Lexeme) (result : Option (List Node)) : Prop :=
  ∀ f fs root, f.scope = scope →
    Yields (ls.foldlM Builder.step ⟨f :: fs, root⟩)
      (result.map fun ns ↦ ⟨{ f with children := ns.reverse ++ f.children } :: fs, root⟩)

variable {scope : Scope} {ls ls' : List Lexeme} {r r' : Option (List Node)}

theorem runs_nil : Runs scope [] (some []) := fun _ _ _ _ ↦ rfl

theorem Runs.append (h : Runs scope ls r) (h' : Runs scope ls' r') :
    Runs scope (ls ++ ls') (both r r') := by
  intro f fs root hf
  have h₁ := h f fs root hf
  rw [List.foldlM_append]
  cases r with
  | none =>
    obtain ⟨e, he⟩ := h₁
    exact ⟨e, by rw [he, bind_error]⟩
  | some ns =>
    have h₂ := h' { f with children := ns.reverse ++ f.children } fs root hf
    rw [show ls.foldlM Builder.step ⟨f :: fs, root⟩ = .ok _ from h₁, bind_ok]
    cases r' with
    | none => exact h₂
    | some ns' => simpa [both] using h₂

/-- A single lexeme that adds a node. -/
private theorem runs_single {l : Lexeme} {n : Node}
    (h : ∀ f fs root, Builder.step ⟨f :: fs, root⟩ l = Builder.add ⟨f :: fs, root⟩ n) :
    Runs scope [l] (some [n]) := by
  intro f fs root _
  change (Builder.step _ l >>= pure) = _
  rw [h]
  rfl

theorem runs_text {l : Lexeme} {chars : List Char} (h : l.token = .text chars)
    (hd : (decodeValue chars).isSome) : Runs scope [l] (some [.text l.source]) := by
  refine runs_single fun f fs root ↦ ?_
  rw [Builder.step, h]
  exact if_pos hd

theorem runs_comment {l : Lexeme} (h : l.token = .comment) :
    Runs scope [l] (some [.comment l.source]) := by
  refine runs_single fun f fs root ↦ ?_
  rw [Builder.step, h]

theorem runs_instruction {l : Lexeme} (h : l.token = .instruction) :
    Runs scope [l] (some [.instruction l.source]) := by
  refine runs_single fun f fs root ↦ ?_
  rw [Builder.step, h]

theorem runs_characterData {l : Lexeme} (h : l.token = .characterData) :
    Runs scope [l] (some [.text l.source]) := by
  refine runs_single fun f fs root ↦ ?_
  rw [Builder.step, h]
  exact if_neg (by simp)

/-- The frame that a tag opens where some prefixes are declared. -/
def frameIn (scope : Scope) (name : QName) (written : List (QName × List Char))
    (source : List Char) : Except XmlError Frame :=
  Builder.openFrame ⟨[⟨name, [], scope, source, []⟩], none⟩ name written source

private theorem openFrame_eq_frameIn {f : Frame} (hf : f.scope = scope) (fs : List Frame)
    (root : Option Node) (name : QName) (written : List (QName × List Char)) (source : List Char) :
    Builder.openFrame ⟨f :: fs, root⟩ name written source = frameIn scope name written source := by
  subst hf
  rfl

/-- A tag that does not open an element makes the run fail. -/
theorem runs_openTag_error {l : Lexeme} {name : QName} {written : List (QName × List Char)}
    {isClosed : Bool} {e : XmlError} (h : l.token = .openTag name written isClosed)
    (hf : frameIn scope name written l.source = .error e) (ls : List Lexeme) :
    Runs scope (l :: ls) none := by
  intro f fs root hs
  refine ⟨e, ?_⟩
  rw [List.foldlM_cons, Builder.step, h]
  change (Builder.openFrame ⟨f :: fs, root⟩ name written l.source >>= _) >>= _ = _
  rw [openFrame_eq_frameIn hs, hf]
  rfl

/-- A tag that closes its element adds it. -/
theorem runs_closed {l : Lexeme} {name : QName} {written : List (QName × List Char)} {own : Frame}
    (h : l.token = .openTag name written true)
    (hf : frameIn scope name written l.source = .ok own) :
    Runs scope [l] (some [.element (String.ofList name.name) own.attributes [] l.source]) := by
  obtain ⟨hname, hsource, hchildren, -⟩ := openFrame_eq_ok hf
  intro f fs root hs
  change Builder.step ⟨f :: fs, root⟩ l >>= pure = _
  rw [Builder.step, h]
  change (Builder.openFrame ⟨f :: fs, root⟩ name written l.source >>= _) >>= _ = _
  rw [openFrame_eq_frameIn hs, hf, bind_ok, if_pos rfl]
  change Except.ok (Builder.mk ({ f with children := own.close [] :: f.children } :: fs) root) = _
  simp [Frame.close, hname, hsource, hchildren]

/-- An element whose children run adds it, and it fails if one of them does. -/
theorem Runs.element {l close : Lexeme} {name : QName} {written : List (QName × List Char)}
    {own : Frame} (h : l.token = .openTag name written false) (hc : close.token = .closeTag name)
    (hf : frameIn scope name written l.source = .ok own) (hr : Runs own.scope ls r) :
    Runs scope (l :: ls ++ [close]) (r.map fun ns ↦
      [.element (String.ofList name.name) own.attributes ns
        (l.source ++ ns.flatMap Node.source ++ close.source)]) := by
  obtain ⟨hname, hsource, hchildren, -⟩ := openFrame_eq_ok hf
  intro f fs root hs
  have hopen : Builder.step ⟨f :: fs, root⟩ l = .ok ⟨own :: f :: fs, root⟩ := by
    rw [Builder.step, h]
    change Builder.openFrame ⟨f :: fs, root⟩ name written l.source >>= _ = _
    rw [openFrame_eq_frameIn hs, hf, bind_ok, if_neg (by simp)]
    rfl
  have hrun := hr own (f :: fs) root rfl
  rw [List.cons_append, List.foldlM_cons, hopen, bind_ok, List.foldlM_append]
  cases r with
  | none =>
    obtain ⟨e, he⟩ := hrun
    exact ⟨e, by rw [he, bind_error]⟩
  | some ns =>
    rw [show ls.foldlM Builder.step ⟨own :: f :: fs, root⟩ = .ok _ from hrun, bind_ok]
    change (Builder.step _ close >>= pure) = _
    rw [Builder.step, hc]
    change ((if own.name = name then _ else _) >>= _) = _
    rw [if_pos hname, hchildren, List.append_nil]
    change Except.ok (Builder.mk ({ f with children := Frame.close _ close.source :: f.children } :: fs)
      root) = _
    simp [Frame.close, hname, hsource]

private theorem runs_parts {parts : List (Node × List Lexeme)}
    (h : ∀ part ∈ parts, ∀ scope, ∃ r, Runs scope part.2 r ∧
      ∀ ns ∈ r, ∃ n, ns = [n] ∧ part.1.Alike n) (scope : Scope) :
    ∃ r, Runs scope (parts.flatMap Prod.snd) r ∧
      ∀ ns ∈ r, ns.flatMap Node.source = (parts.map Prod.fst).flatMap Node.source := by
  induction parts with
  | nil => exact ⟨_, runs_nil, by simp⟩
  | cons part parts ih =>
    obtain ⟨r, hr, hn⟩ := h part List.mem_cons_self scope
    obtain ⟨r', hr', hns⟩ := ih fun other ho ↦ h other (List.mem_cons_of_mem part ho)
    refine ⟨both r r', hr.append hr', fun ns hm ↦ ?_⟩
    obtain ⟨ns₁, h₁, hm⟩ := Option.bind_eq_some_iff.mp hm
    obtain ⟨ns₂, h₂, rfl⟩ := Option.map_eq_some_iff.mp hm
    obtain ⟨n, rfl, hn⟩ := hn ns₁ h₁
    simp [hn.source, hns ns₂ h₂]

private theorem runs_alike {n : Node} (h : Runs scope ls (some [n])) :
    ∃ r, Runs scope ls r ∧ ∀ ns ∈ r, ∃ n', ns = [n'] ∧ n.Alike n' :=
  ⟨_, h, fun _ hm ↦ ⟨n, (Option.some.inj hm).symm, .refl n⟩⟩

/-- In any element the run of a node adds a node like it, or fails. -/
theorem Sourced.runs {n : Node} {own : List Lexeme} (h : Sourced n own) (scope : Scope) :
    ∃ r, Runs scope own r ∧ ∀ ns ∈ r, ∃ n', ns = [n'] ∧ n.Alike n' := by
  induction h generalizing scope with
  | comment h => exact runs_alike (runs_comment h)
  | instruction h => exact runs_alike (runs_instruction h)
  | characterData h => exact runs_alike (runs_characterData h)
  | text h hd => exact runs_alike (runs_text h hd)
  | @closed l name written attributes h ha =>
    cases hf : frameIn scope name written l.source with
    | error e => exact ⟨none, runs_openTag_error h hf [], fun _ hm ↦ absurd hm (Option.not_mem_none _)⟩
    | ok own =>
      refine ⟨_, runs_closed h hf, fun ns hm ↦ ⟨_, (Option.some.inj hm).symm, ?_⟩⟩
      exact ⟨rfl, rfl, rfl, rfl⟩
  | @element l close name written attributes parts h ha hc hp ih =>
    cases hf : frameIn scope name written l.source with
    | error e => exact ⟨none, runs_openTag_error h hf _, fun _ hm ↦ absurd hm (Option.not_mem_none _)⟩
    | ok own =>
      obtain ⟨r, hr, hns⟩ := runs_parts ih own.scope
      refine ⟨_, hr.element h hc hf, fun ns hm ↦ ?_⟩
      obtain ⟨ns', hns', rfl⟩ := Option.map_eq_some_iff.mp hm
      refine ⟨_, rfl, rfl, rfl, rfl, ?_⟩
      simp [Node.source, hns ns' hns']

/-! ### Pieces -/

/-- A text that lexes the same before every text, and what its run adds to an element. -/
def Piece (scope : Scope) (cs : List Char) (result : Option (List Node)) : Prop :=
  ∃ ls, (∀ rest, Lexed ls rest) ∧ ls.flatMap Lexeme.source = cs ∧ Runs scope ls result

/-- A text that lexes the same before all markup, and what its run adds to an element. -/
def Content (scope : Scope) (cs : List Char) (result : Option (List Node)) : Prop :=
  ∃ ls, (∀ rest, Ends (· ≠ '<') rest → Lexed ls rest) ∧ ls.flatMap Lexeme.source = cs ∧
    Runs scope ls result

variable {cs cs' w : List Char}

theorem Piece.content (h : Piece scope cs r) : Content scope cs r := by
  obtain ⟨ls, hl, hs, hr⟩ := h
  exact ⟨ls, fun rest _ ↦ hl rest, hs, hr⟩

theorem piece_nil : Piece scope [] (some []) := ⟨[], fun _ ↦ trivial, rfl, runs_nil⟩

theorem Piece.append (h : Piece scope cs r) (h' : Piece scope cs' r') :
    Piece scope (cs ++ cs') (both r r') := by
  obtain ⟨ls, hl, rfl, hr⟩ := h
  obtain ⟨ls', hl', rfl, hr'⟩ := h'
  exact ⟨ls ++ ls', fun rest ↦ lexed_append.mpr ⟨hl _, hl' rest⟩, by simp, hr.append hr'⟩

/-- Blanks are a text token before markup. -/
theorem reads_blanks (hne : w ≠ []) (hw : ∀ c ∈ w, isSpace c) :
    Lexeme.Reads ⟨.text w, w⟩ := by
  have plain : ∀ c ∈ w, c ≠ '<' ∧ c ≠ ']' ∧ c ≠ '&' := by
    intro c hc
    have h := hw c hc
    simp only [isSpace, Bool.or_eq_true, decide_eq_true_eq] at h
    rcases h with ((rfl | rfl) | rfl) | rfl <;> decide
  refine ⟨hne, fun hno ↦ absurd rfl (hno w), fun _ _ _ h ↦ (by cases h), fun rest hrest ↦ ?_⟩
  have hall : ∀ c ∈ w, decide (c ≠ '<') := fun c hc ↦ decide_eq_true (plain c hc).1
  have hstop := hrest w rfl
  have hmark : occursIn [']', ']', '>'] w = false := by
    refine Bool.eq_false_iff.mpr fun h ↦ ?_
    obtain ⟨⟨before, after⟩, hcut⟩ := Option.isSome_iff_exists.mp h
    have hmem : ']' ∈ w := by
      rw [(cutAt?_eq_some hcut).1]
      simp
    exact (plain ']' hmem).2.1 rfl
  cases w with
  | nil => exact absurd rfl hne
  | cons c w =>
    rw [List.cons_append, lexToken_text (plain c List.mem_cons_self).1, ← List.cons_append,
      takeWhile_of_ends hall hstop, dropWhile_of_ends hall hstop, hmark]
    rfl

/-- Blanks hold no reference. -/
theorem decodeValue_blanks (hw : ∀ c ∈ w, isSpace c) : (decodeValue w).isSome := by
  rw [decodeValue]
  induction w with
  | nil => rfl
  | cons c w ih =>
    have h := hw c List.mem_cons_self
    have hw' := ih fun d hd ↦ hw d (List.mem_cons_of_mem c hd)
    have hc : c ≠ '&' := by
      rintro rfl
      exact absurd h (by decide)
    rw [decodeFrom, if_neg hc]
    split
    · exact hw'
    · rw [Option.isSome_map]
      exact hw'

private theorem runs_blanks (hw : ∀ c ∈ w, isSpace c) :
    Runs scope [⟨.text w, w⟩] (some [.text w]) :=
  runs_text rfl (decodeValue_blanks hw)

/-- Blanks before a piece that begins with markup. -/
theorem Piece.gap (h : Piece scope cs r) (hcs : cs.head? = some '<') (hne : w ≠ [])
    (hw : ∀ c ∈ w, isSpace c) : Piece scope (w ++ cs) (both (some [.text w]) r) := by
  obtain ⟨ls, hl, rfl, hr⟩ := h
  refine ⟨⟨.text w, w⟩ :: ls, fun rest ↦ ⟨reads_blanks hne hw, fun _ _ ↦ ?_, hl rest⟩, rfl,
    (runs_blanks hw).append hr⟩
  cases hc : ls.flatMap Lexeme.source with
  | nil => rw [hc] at hcs; cases hcs
  | cons c cs =>
    rw [hc] at hcs
    obtain rfl := Option.some.inj hcs
    exact ends_cons.mpr (by decide)

/-- Blanks after a piece. -/
theorem Piece.trailing (h : Piece scope cs r) (hne : w ≠ []) (hw : ∀ c ∈ w, isSpace c) :
    Content scope (cs ++ w) (both r (some [.text w])) := by
  obtain ⟨ls, hl, rfl, hr⟩ := h
  refine ⟨ls ++ [⟨.text w, w⟩], fun rest hrest ↦ lexed_append.mpr ⟨hl _, ?_⟩, by simp,
    hr.append (runs_blanks hw)⟩
  exact ⟨reads_blanks hne hw, fun _ _ ↦ hrest, trivial⟩

theorem lexed_element {l close : Lexeme} {name : QName} {written : List (QName × List Char)}
    {isClosed : Bool} (h : l.token = .openTag name written isClosed)
    (hc : close.token = .closeTag name) (hl : l.Reads) (hclose : close.Reads)
    (hlexed : ∀ rest, Ends (· ≠ '<') rest → Lexed ls rest) (rest : List Char) :
    Lexed (l :: ls ++ [close]) rest := by
  have hnext : Ends (· ≠ '<') (close.source ++ rest) := by
    have hhead := hclose.head_source (by rw [hc]; nofun)
    cases hs : close.source with
    | nil => exact absurd hs hclose.source_ne_nil
    | cons c cs =>
      rw [hs] at hhead
      obtain rfl := Option.some.inj hhead
      exact ends_cons.mpr (by decide)
  rw [List.cons_append]
  refine ⟨hl, fun chars he ↦ ?_, lexed_append.mpr ⟨hlexed _ ?_, hclose, fun chars he ↦ ?_, trivial⟩⟩
  · rw [h] at he
    cases he
  · rw [List.flatMap_cons, List.flatMap_nil, List.append_nil]
    exact hnext
  · rw [hc] at he
    cases he

/-- An element with its content is a piece. -/
theorem Content.element {l close : Lexeme} {name : QName} {written : List (QName × List Char)}
    {own : Frame} (h : l.token = .openTag name written false) (hc : close.token = .closeTag name)
    (hl : l.Reads) (hclose : close.Reads) (hf : frameIn scope name written l.source = .ok own)
    (hi : Content own.scope cs r) :
    Piece scope (l.source ++ cs ++ close.source) (r.map fun ns ↦
      [.element (String.ofList name.name) own.attributes ns
        (l.source ++ ns.flatMap Node.source ++ close.source)]) := by
  obtain ⟨ls, hlexed, rfl, hr⟩ := hi
  exact ⟨l :: ls ++ [close], lexed_element h hc hl hclose hlexed, by simp, hr.element h hc hf⟩

/-- An element whose tag does not open makes a piece that fails. -/
theorem Content.element_error {l close : Lexeme} {name : QName}
    {written : List (QName × List Char)} {e : XmlError} {inner : Scope}
    (h : l.token = .openTag name written false) (hc : close.token = .closeTag name)
    (hl : l.Reads) (hclose : close.Reads) (hf : frameIn scope name written l.source = .error e)
    (hi : Content inner cs r) : Piece scope (l.source ++ cs ++ close.source) none := by
  obtain ⟨ls, hlexed, rfl, -⟩ := hi
  exact ⟨l :: ls ++ [close], lexed_element h hc hl hclose hlexed, by simp,
    runs_openTag_error h hf _⟩

/-- A tag that closes its element is a piece. -/
theorem piece_closed {l : Lexeme} {name : QName} {written : List (QName × List Char)} {own : Frame}
    (h : l.token = .openTag name written true) (hl : l.Reads)
    (hf : frameIn scope name written l.source = .ok own) :
    Piece scope l.source
      (some [.element (String.ofList name.name) own.attributes [] l.source]) := by
  refine ⟨[l], fun rest ↦ ⟨hl, fun chars he ↦ ?_, trivial⟩, by simp, runs_closed h hf⟩
  rw [h] at he
  cases he

/-- A tag that would close its element but does not open it makes a piece that fails. -/
theorem piece_closed_error {l : Lexeme} {name : QName} {written : List (QName × List Char)}
    {e : XmlError} (h : l.token = .openTag name written true) (hl : l.Reads)
    (hf : frameIn scope name written l.source = .error e) : Piece scope l.source none := by
  refine ⟨[l], fun rest ↦ ⟨hl, fun chars he ↦ ?_, trivial⟩, by simp, runs_openTag_error h hf []⟩
  rw [h] at he
  cases he

/-- The nodes of texts with a gap before each, if none of the texts fails. -/
def gathered {α : Type} (w : List Char) (result : α → Option (List Node)) :
    List α → Option (List Node)
  | [] => some []
  | x :: xs => both (both (some [.text w]) (result x)) (gathered w result xs)

theorem gathered_eq_some {α : Type} {w : List Char} {result : α → Option (List Node)} {xs : List α}
    {ns : List Node} (h : gathered w result xs = some ns) :
    (∀ x ∈ xs, (result x).isSome) ∧ ns = xs.flatMap fun x ↦ .text w :: (result x).getD [] := by
  induction xs generalizing ns with
  | nil =>
    obtain rfl := Option.some.inj h
    exact ⟨nofun, rfl⟩
  | cons x xs ih =>
    obtain ⟨ns₁, h₁, h⟩ := Option.bind_eq_some_iff.mp h
    obtain ⟨ns₂, h₂, rfl⟩ := Option.map_eq_some_iff.mp h
    obtain ⟨ns', hx, rfl⟩ := Option.map_eq_some_iff.mp h₁
    obtain ⟨hall, rfl⟩ := ih h₂
    refine ⟨fun y hy ↦ ?_, by rw [List.flatMap_cons, hx]; rfl⟩
    rcases List.mem_cons.mp hy with rfl | hy
    · rw [hx]
      rfl
    · exact hall y hy

theorem gathered_eq {α : Type} {w : List Char} {result : α → Option (List Node)} {xs : List α}
    (h : ∀ x ∈ xs, (result x).isSome) :
    gathered w result xs = some (xs.flatMap fun x ↦ .text w :: (result x).getD []) := by
  induction xs with
  | nil => rfl
  | cons x xs ih =>
    obtain ⟨ns, hx⟩ := Option.isSome_iff_exists.mp (h x List.mem_cons_self)
    rw [gathered, ih fun y hy ↦ h y (List.mem_cons_of_mem x hy), hx, List.flatMap_cons, hx]
    rfl

/-- Texts that begin with markup, with a gap before each, are a piece. -/
theorem piece_gathered {α : Type} {text : α → List Char} {result : α → Option (List Node)}
    (hne : w ≠ []) (hw : ∀ c ∈ w, isSpace c) {xs : List α}
    (h : ∀ x ∈ xs, Piece scope (text x) (result x) ∧ (text x).head? = some '<') :
    Piece scope (xs.flatMap fun x ↦ w ++ text x) (gathered w result xs) := by
  induction xs with
  | nil => exact piece_nil
  | cons x xs ih =>
    obtain ⟨hx, hhead⟩ := h x List.mem_cons_self
    exact (hx.gap hhead hne hw).append (ih fun y hy ↦ h y (List.mem_cons_of_mem x hy))

/-! ### The nodes of a document -/

/-- A node that is said by lexemes that read back, in characters of documents. -/
def Faithful (n : Node) : Prop :=
  ∃ own rest, Sourced n own ∧ Lexed own rest ∧ ∀ c ∈ n.source, isDocumentChar c

theorem Faithful.source_chars {n : Node} (h : Faithful n) : ∀ c ∈ n.source, isDocumentChar c := by
  obtain ⟨_, _, -, -, hchars⟩ := h
  exact hchars

/-- The root of a document is said by some of its lexemes. -/
theorem exists_lexed_of_parse {text : List Char} {root : Node} (h : parse text = .ok root) :
    ∃ ls own rest, lexemes text = .ok ls ∧ own ⊆ ls ∧ Sourced root own ∧ Lexed own rest ∧
      ∀ c ∈ root.source, isDocumentChar c := by
  obtain ⟨ls, before, own, after, hls, rfl, hroot⟩ := sourced_of_parse h
  obtain ⟨hlexed, hchars⟩ := lexemes_eq_ok hls
  have hown : own ⊆ before ++ own ++ after :=
    fun l hl ↦ List.mem_append_left _ (List.mem_append_right _ hl)
  refine ⟨_, own, _, hls, hown, hroot, (lexed_append.mp (lexed_append.mp hlexed).1).2, fun c hc ↦ ?_⟩
  rw [← hroot.source_eq] at hc
  obtain ⟨l, hl, hc⟩ := List.mem_flatMap.mp hc
  exact hchars c (List.mem_flatMap.mpr ⟨l, hown hl, hc⟩)

/-- The root of a document is faithful. -/
theorem faithful_of_parse {text : List Char} {root : Node} (h : parse text = .ok root) :
    Faithful root := by
  obtain ⟨_, own, rest, -, -, hroot, hlexed, hchars⟩ := exists_lexed_of_parse h
  exact ⟨own, rest, hroot, hlexed, hchars⟩

/-- A child of a node is said by a part of the run of the node. -/
theorem Sourced.child {n c : Node} {own : List Lexeme} {rest : List Char} (h : Sourced n own)
    (hlexed : Lexed own rest) (hc : c ∈ n.children) : ∃ part rest', Sourced c part ∧
      Lexed part rest' ∧ part ⊆ own ∧ c.source ⊆ n.source := by
  cases h with
  | comment h => cases hc
  | instruction h => cases hc
  | characterData h => cases hc
  | text h hd => cases hc
  | closed h ha => cases hc
  | @element l close name written attributes parts h ha hclose hp =>
    obtain ⟨part, hpart, rfl⟩ := List.mem_map.mp hc
    obtain ⟨first, last, rfl⟩ := List.append_of_mem hpart
    have hinner : Lexed (first.flatMap Prod.snd ++ (part.2 ++ last.flatMap Prod.snd))
        (close.source ++ rest) := by
      have := (lexed_append.mp hlexed).1.2.2
      simpa using this
    refine ⟨part.2, _, hp part hpart, (lexed_append.mp (lexed_append.mp hinner).2).1, ?_, ?_⟩
    · intro l' hl
      exact List.mem_append_left _ (List.mem_cons_of_mem _ (List.mem_flatMap.mpr ⟨part, hpart, hl⟩))
    · intro d hd
      simp only [Node.source, List.map_append, List.map_cons, List.flatMap_append,
        List.flatMap_cons, List.mem_append]
      exact .inl (.inr (.inr (.inl hd)))

/-- The children of a faithful node are faithful. -/
theorem Faithful.child {n c : Node} (h : Faithful n) (hc : c ∈ n.children) : Faithful c := by
  obtain ⟨own, rest, hn, hlexed, hchars⟩ := h
  obtain ⟨part, rest', hpart, hlexed', -, hsource⟩ := hn.child hlexed hc
  exact ⟨part, rest', hpart, hlexed', fun d hd ↦ hchars d (hsource hd)⟩

/-- The run of a node other than a text ends with markup, and its source begins with markup. -/
theorem Sourced.markup {n : Node} {own : List Lexeme} (h : Sourced n own)
    (hn : n.isText = false) :
    ∃ l ls last, own = l :: ls ∧ (∀ chars, l.token ≠ .text chars) ∧ own.getLast? = some last ∧
      ∀ chars, last.token ≠ .text chars := by
  have single : ∀ l : Lexeme, (∀ chars, l.token ≠ .text chars) →
      ∃ l' ls last, [l] = l' :: ls ∧ (∀ chars, l'.token ≠ .text chars) ∧
        [l].getLast? = some last ∧ ∀ chars, last.token ≠ .text chars :=
    fun l hl ↦ ⟨l, [], l, rfl, hl, rfl, hl⟩
  cases h with
  | comment h => exact single _ (by rw [h]; nofun)
  | instruction h => exact single _ (by rw [h]; nofun)
  | characterData h => cases hn
  | text h hd => cases hn
  | closed h ha => exact single _ (by rw [h]; nofun)
  | element h ha hc hp =>
    exact ⟨_, _, _, rfl, by rw [h]; nofun, List.getLast?_concat, by rw [hc]; nofun⟩

/-- The source of a node other than a text is a piece, of a node like it if of any. -/
theorem Faithful.piece {n : Node} (h : Faithful n) (hn : n.isText = false) (scope : Scope) :
    ∃ r, Piece scope n.source r ∧ ∀ ns ∈ r, ∃ n', ns = [n'] ∧ n.Alike n' := by
  obtain ⟨own, rest, hs, hlexed, -⟩ := h
  obtain ⟨l, ls, last, -, -, hlast, htext⟩ := hs.markup hn
  obtain ⟨ls', rfl⟩ := List.getLast?_eq_some_iff.mp hlast
  obtain ⟨r, hr, hns⟩ := hs.runs scope
  exact ⟨r, ⟨ls' ++ [last], hlexed.of_last htext, hs.source_eq, hr⟩, hns⟩

/-- The source of a node other than a text begins with markup. -/
theorem Faithful.head_source {n : Node} (h : Faithful n) (hn : n.isText = false) :
    n.source.head? = some '<' := by
  obtain ⟨own, rest, hs, hlexed, -⟩ := h
  obtain ⟨l, ls, last, rfl, htext, -⟩ := hs.markup hn
  rw [← hs.source_eq, List.flatMap_cons]
  have hhead := hlexed.1.head_source htext
  cases hl : l.source with
  | nil => rw [hl] at hhead; cases hhead
  | cons c cs => rw [hl] at hhead; exact hhead

end Buildpath.Xml
