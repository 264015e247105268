import Buildpath.Proofs.Results
import Buildpath.Proofs.Xml.Lexing
import Buildpath.Xml.Node

/-!
# What a node is built from

Every node of a document is built from a run of lexemes whose sources make up its source text
(`Sourced`). Taking in the same run below another open element adds the same kind of node there, with
the same source, or fails, as far as prefixes are declared there or not (`Sourced.runs`).
-/

namespace Buildpath.Xml

/-- A name without a prefix that declares none. -/
structure QName.Plain (q : QName) : Prop where
  space : q.space = []
  name : q.name ≠ declarationWord

/-- Attributes of a node that come from those of a tag. With plain names they are what the attributes
of the tag are wherever it stands. -/
structure AttributesOf (attributes : List NodeAttribute) (written : List (QName × List Char)) :
    Prop where
  mem : ∀ a ∈ attributes, ∃ w ∈ written, a.name = String.ofList w.1.name ∧
    decodeValue w.2 = some a.value.toList ∧ isDeclaration w.1 = false
  plain : (∀ w ∈ written, w.1.Plain) → ∃ decoded, decodeAttributes written = .ok decoded ∧
    ∀ scope, resolveAttributes scope [] decoded = .ok attributes

/-- A run of lexemes that says a node. -/
inductive Sourced : Node → List Lexeme → Prop
  | comment {l : Lexeme} (h : l.token = .comment) : Sourced (.comment l.source) [l]
  | instruction {l : Lexeme} (h : l.token = .instruction) : Sourced (.instruction l.source) [l]
  | characterData {l : Lexeme} (h : l.token = .characterData) : Sourced (.text l.source) [l]
  | text {l : Lexeme} {chars : List Char} (h : l.token = .text chars)
      (hd : (decodeValue chars).isSome) : Sourced (.text l.source) [l]
  | closed {l : Lexeme} {name : QName} {written : List (QName × List Char)}
      {attributes : List NodeAttribute} (h : l.token = .openTag name written true)
      (ha : AttributesOf attributes written) :
      Sourced (.element (String.ofList name.name) attributes [] l.source) [l]
  | element {l close : Lexeme} {name : QName} {written : List (QName × List Char)}
      {attributes : List NodeAttribute} {parts : List (Node × List Lexeme)}
      (h : l.token = .openTag name written false) (ha : AttributesOf attributes written)
      (hc : close.token = .closeTag name) (hp : ∀ part ∈ parts, Sourced part.1 part.2) :
      Sourced
        (.element (String.ofList name.name) attributes (parts.map Prod.fst)
          (l.source ++ (parts.map Prod.fst).flatMap Node.source ++ close.source))
        (l :: parts.flatMap Prod.snd ++ [close])

/-- The sources of the parts are the sources of their runs. -/
private theorem flatMap_source_parts {parts : List (Node × List Lexeme)}
    (h : ∀ part ∈ parts, part.2.flatMap Lexeme.source = part.1.source) :
    (parts.flatMap Prod.snd).flatMap Lexeme.source =
      (parts.map Prod.fst).flatMap Node.source := by
  induction parts with
  | nil => rfl
  | cons part parts ih =>
    rw [List.flatMap_cons, List.flatMap_append, h part List.mem_cons_self, List.map_cons,
      List.flatMap_cons, ih fun other ho ↦ h other (List.mem_cons_of_mem part ho)]

/-- The source of a node is what its run was read from. -/
theorem Sourced.source_eq {n : Node} {own : List Lexeme} (h : Sourced n own) :
    own.flatMap Lexeme.source = n.source := by
  induction h with
  | comment h => simp [Node.source]
  | instruction h => simp [Node.source]
  | characterData h => simp [Node.source]
  | text h hd => simp [Node.source]
  | closed h ha => simp [Node.source]
  | element h ha hc hp ih =>
    rw [Node.source, List.flatMap_append, List.flatMap_cons, flatMap_source_parts ih]
    simp

/-! ### Building keeps track of the sources -/

/-- An open element and the run that it was built from so far. -/
def FrameRead (f : Frame) (own : List Lexeme) : Prop :=
  ∃ (l : Lexeme) (written : List (QName × List Char)) (parts : List (Node × List Lexeme)),
    own = l :: parts.flatMap Prod.snd ∧ l.token = .openTag f.name written false ∧
    AttributesOf f.attributes written ∧ f.source = l.source ∧
    f.children = (parts.map Prod.fst).reverse ∧ ∀ part ∈ parts, Sourced part.1 part.2

/-- The open elements, innermost first, and the lexemes read so far. -/
def FramesRead : List Frame → List Lexeme → Prop
  | [], _ => True
  | f :: fs, ls => ∃ before own, ls = before ++ own ∧ FrameRead f own ∧ FramesRead fs before

/-- A state of the builder and the lexemes read so far. -/
structure BuilderRead (ls : List Lexeme) (b : Builder) : Prop where
  frames : FramesRead b.frames ls
  no_root : b.frames ≠ [] → b.root = none
  root : ∀ r ∈ b.root, ∃ before own after, ls = before ++ own ++ after ∧ Sourced r own

/-- Adding a node that was read last. -/
private theorem builderRead_add {ls own : List Lexeme} {b b' : Builder} {n : Node}
    (h : BuilderRead ls b) (hn : Sourced n own) (hb : b.add n = .ok b') :
    BuilderRead (ls ++ own) b' := by
  obtain ⟨frames, root⟩ := b
  cases frames with
  | cons f fs =>
    obtain rfl := Except.ok.inj hb
    obtain ⟨before, ownf, rfl, ⟨l, written, parts, rfl, hl, ha, hs, hc, hp⟩, hfs⟩ := h.frames
    have hnone : root = none := h.no_root (by simp)
    refine ⟨⟨before, l :: parts.flatMap Prod.snd ++ own, by simp,
      ⟨l, written, parts ++ [(n, own)], by simp, hl, ha, hs, ?_, ?_⟩, hfs⟩, fun _ ↦ hnone, ?_⟩
    · simp [hc]
    · intro part hm
      rcases List.mem_append.mp hm with hm | hm
      · exact hp part hm
      · obtain rfl := List.mem_singleton.mp hm
        exact hn
    · intro r hr
      change r ∈ root at hr
      rw [hnone] at hr
      cases hr
  | nil =>
    have keep : BuilderRead (ls ++ own) ⟨[], root⟩ := by
      refine ⟨trivial, fun hne ↦ absurd rfl hne, fun r hr ↦ ?_⟩
      obtain ⟨before, ownr, after, rfl, hr⟩ := h.root r hr
      exact ⟨before, ownr, after ++ own, by simp, hr⟩
    cases n with
    | comment source => exact Except.ok.inj hb ▸ keep
    | instruction source => exact Except.ok.inj hb ▸ keep
    | text source =>
      change (if source.all isSpace then _ else _) = _ at hb
      split at hb
      · exact Except.ok.inj hb ▸ keep
      · cases hb
    | element name attributes children source =>
      change (if root.isSome then _ else _) = _ at hb
      split at hb
      · cases hb
      · obtain rfl := Except.ok.inj hb
        refine ⟨trivial, fun hne ↦ absurd rfl hne, fun r hr ↦ ?_⟩
        obtain rfl := Option.some.inj hr
        exact ⟨ls, own, [], by simp, hn⟩

theorem resolveAttributes_cons (scope : Scope) (seen : List NodeAttribute) (name : QName)
    (value : String) (decoded : List (QName × String)) :
    resolveAttributes scope seen ((name, value) :: decoded) =
      spaceOf (("xml", xmlSpace) :: scope) name.space >>= fun space ↦
        if seen.any fun a ↦ a.space = space && a.name = String.ofList name.name then
          .error .duplicateAttribute
        else resolveAttributes scope (⟨space, String.ofList name.name, value⟩ :: seen) decoded :=
  rfl

theorem openFrame_eq (b : Builder) (name : QName) (written : List (QName × List Char))
    (source : List Char) :
    b.openFrame name written source =
      if name.space = declarationWord then .error .reservedPrefix
      else
        decodeAttributes written >>= fun decoded ↦
        declaredScope decoded >>= fun declared ↦
        resolveAttributes (declared ++ (b.frames.head?.map Frame.scope).getD []) []
          (decoded.filter fun a ↦ !isDeclaration a.1) >>= fun attributes ↦
        spaceOf (declared ++ (b.frames.head?.map Frame.scope).getD []) name.space >>= fun _ ↦
        .ok ⟨name, attributes, declared ++ (b.frames.head?.map Frame.scope).getD [], source, []⟩ :=
  rfl

/-- The attributes of a frame come from those of its tag. -/
private theorem mem_resolveAttributes {scope : Scope} {seen attributes : List NodeAttribute}
    {decoded : List (QName × String)}
    (h : resolveAttributes scope seen decoded = .ok attributes) :
    ∀ a ∈ attributes, a ∈ seen ∨ ∃ d ∈ decoded, a.name = String.ofList d.1.name ∧ a.value = d.2 := by
  induction decoded generalizing seen with
  | nil =>
    obtain rfl := Except.ok.inj h
    exact fun a ha ↦ .inl (List.mem_reverse.mp ha)
  | cons d decoded ih =>
    obtain ⟨name, value⟩ := d
    rw [resolveAttributes_cons] at h
    obtain ⟨space, hspace, h⟩ := bind_eq_ok.mp h
    split at h
    · cases h
    · intro a ha
      rcases ih h a ha with ha | ⟨d, hd, he⟩
      · rcases List.mem_cons.mp ha with rfl | ha
        · exact .inr ⟨(name, value), List.mem_cons_self, rfl, rfl⟩
        · exact .inl ha
      · exact .inr ⟨d, List.mem_cons_of_mem _ hd, he⟩

/-- Every decoded attribute of a tag stands in it. -/
theorem mem_decodeAttributes {written : List (QName × List Char)} {decoded : List (QName × String)}
    (h : decodeAttributes written = .ok decoded) :
    ∀ d ∈ decoded, ∃ w ∈ written, d.1 = w.1 ∧ decodeValue w.2 = some d.2.toList := by
  induction written generalizing decoded with
  | nil =>
    obtain rfl := Except.ok.inj h
    exact nofun
  | cons w written ih =>
    rw [decodeAttributes, List.mapM_cons] at h
    obtain ⟨first, hfirst, h⟩ := bind_eq_ok.mp h
    obtain ⟨rest, hrest, h⟩ := bind_eq_ok.mp h
    obtain rfl := Except.ok.inj h
    intro d hd
    rcases List.mem_cons.mp hd with rfl | hd
    · obtain ⟨name, text⟩ := w
      refine ⟨(name, text), List.mem_cons_self, ?_⟩
      dsimp only at hfirst
      cases hvalue : decodeValue text with
      | none =>
        rw [hvalue] at hfirst
        cases hfirst
      | some value =>
        rw [hvalue] at hfirst
        obtain rfl := Except.ok.inj hfirst
        exact ⟨rfl, by rw [String.toList_ofList]⟩
    · obtain ⟨w', hw, hd⟩ := ih hrest d hd
      exact ⟨w', List.mem_cons_of_mem w hw, hd⟩

/-- A plain name declares nothing. -/
theorem QName.Plain.isDeclaration {q : QName} (h : q.Plain) : isDeclaration q = false := by
  rw [Xml.isDeclaration, h.space, decide_eq_false h.name]
  rfl

/-- Plain names have no use for declared prefixes. -/
private theorem resolveAttributes_plain {decoded : List (QName × String)}
    (h : ∀ d ∈ decoded, d.1.Plain) (scope scope' : Scope) (seen : List NodeAttribute) :
    resolveAttributes scope seen decoded = resolveAttributes scope' seen decoded := by
  induction decoded generalizing seen with
  | nil => rfl
  | cons d decoded ih =>
    obtain ⟨name, value⟩ := d
    have hspace : name.space = [] := (h (name, value) List.mem_cons_self).space
    have hnone : ∀ scope, spaceOf scope name.space = .ok none := fun scope ↦ by rw [hspace]; rfl
    rw [resolveAttributes_cons, resolveAttributes_cons, hnone, hnone, bind_ok, bind_ok,
      ih fun d hd ↦ h d (List.mem_cons_of_mem _ hd)]

/-- Plain names declare no prefixes. -/
theorem declaredScope_plain {decoded : List (QName × String)} (h : ∀ d ∈ decoded, d.1.Plain) :
    declaredScope decoded = .ok [] := by
  induction decoded with
  | nil => rfl
  | cons d decoded ih =>
    obtain ⟨name, value⟩ := d
    rw [declaredScope, ih fun d hd ↦ h d (List.mem_cons_of_mem _ hd), bind_ok,
      (h (name, value) List.mem_cons_self).isDeclaration]
    rfl

theorem filter_plain {decoded : List (QName × String)} (h : ∀ d ∈ decoded, d.1.Plain) :
    (decoded.filter fun a ↦ !isDeclaration a.1) = decoded := by
  apply List.filter_eq_self.mpr
  intro d hd
  rw [(h d hd).isDeclaration]
  rfl

/-- The names of decoded attributes are plain if the written ones are. -/
theorem plain_decodeAttributes {written : List (QName × List Char)} {decoded : List (QName × String)}
    (h : decodeAttributes written = .ok decoded) (hw : ∀ w ∈ written, w.1.Plain) :
    ∀ d ∈ decoded, d.1.Plain := by
  intro d hd
  obtain ⟨w, hmem, he, -⟩ := mem_decodeAttributes h d hd
  exact he ▸ hw w hmem

/-- What `openFrame` makes of a tag. -/
theorem openFrame_eq_ok {b : Builder} {name : QName} {written : List (QName × List Char)}
    {source : List Char} {f : Frame} (h : b.openFrame name written source = .ok f) :
    f.name = name ∧ f.source = source ∧ f.children = [] ∧ AttributesOf f.attributes written := by
  rw [openFrame_eq] at h
  split at h
  · cases h
  · obtain ⟨decoded, hdecoded, h⟩ := bind_eq_ok.mp h
    obtain ⟨declared, -, h⟩ := bind_eq_ok.mp h
    obtain ⟨attributes, hattributes, h⟩ := bind_eq_ok.mp h
    obtain ⟨_, -, h⟩ := bind_eq_ok.mp h
    obtain rfl := Except.ok.inj h
    refine ⟨rfl, rfl, rfl, fun a ha ↦ ?_, fun hplain ↦ ⟨decoded, hdecoded, fun scope ↦ ?_⟩⟩
    · obtain hnil | ⟨d, hd, hname, hvalue⟩ := mem_resolveAttributes hattributes a ha
      · cases hnil
      obtain ⟨hd, hdecl⟩ := List.mem_filter.mp hd
      obtain ⟨w, hw, hwd⟩ := mem_decodeAttributes hdecoded d hd
      refine ⟨w, hw, ?_, ?_, ?_⟩
      · rw [hname, hwd.1]
      · rw [hwd.2, hvalue]
      · rw [← hwd.1]
        simpa using hdecl
    · have hnames := plain_decodeAttributes hdecoded hplain
      rw [filter_plain hnames] at hattributes
      exact (resolveAttributes_plain hnames _ _ _).trans hattributes

/-- Taking in an opening tag adds a node, or begins one. -/
private theorem builderRead_openTag {ls : List Lexeme} {l : Lexeme} {b b' : Builder} {name : QName}
    {written : List (QName × List Char)} {isClosed : Bool} (h : BuilderRead ls b)
    (ht : l.token = .openTag name written isClosed) (hb : b.step l = .ok b') :
    BuilderRead (ls ++ [l]) b' := by
  rw [Builder.step, ht] at hb
  obtain ⟨f, hf, hb⟩ := bind_eq_ok.mp hb
  obtain ⟨hname, hsource, hchildren, ha⟩ := openFrame_eq_ok hf
  cases isClosed with
  | true =>
    have hn : f.close [] = .element (String.ofList name.name) f.attributes [] l.source := by
      simp [Frame.close, hname, hsource, hchildren]
    rw [if_pos rfl, hn] at hb
    exact builderRead_add h (.closed ht ha) hb
  | false =>
    rw [if_neg (by simp)] at hb
    split at hb
    · cases hb
    · next hroot =>
      obtain rfl := Except.ok.inj hb
      have hnone : b.root = none := by
        by_cases hfs : b.frames = []
        · simpa [hfs] using hroot
        · exact h.no_root hfs
      refine ⟨⟨ls, [l], rfl, ⟨l, written, [], rfl, ?_, ha, hsource, ?_, by simp⟩, h.frames⟩,
        fun _ ↦ hnone, fun r hr ↦ ?_⟩
      · rw [ht, hname]
      · rw [hchildren]
        rfl
      · change r ∈ b.root at hr
        rw [hnone] at hr
        cases hr

/-- Taking in a closing tag adds the node that the last opening tag began. -/
private theorem builderRead_closeTag {ls : List Lexeme} {l : Lexeme} {b b' : Builder} {name : QName}
    (h : BuilderRead ls b) (ht : l.token = .closeTag name) (hb : b.step l = .ok b') :
    BuilderRead (ls ++ [l]) b' := by
  rw [Builder.step, ht] at hb
  obtain ⟨frames, root⟩ := b
  cases frames with
  | nil => cases hb
  | cons f fs =>
    change (if f.name = name then _ else _) = _ at hb
    split at hb
    · next hname =>
      obtain ⟨before, own, rfl, ⟨o, written, parts, rfl, ho, ha, hs, hc, hp⟩, hfs⟩ := h.frames
      have hnone : root = none := h.no_root (by simp)
      have hn : f.close l.source = .element (String.ofList name.name) f.attributes
          (parts.map Prod.fst)
          (o.source ++ (parts.map Prod.fst).flatMap Node.source ++ l.source) := by
        rw [Frame.close, hc, List.reverse_reverse, hname, hs]
      have hbefore : BuilderRead before ⟨fs, root⟩ := by
        refine ⟨hfs, fun _ ↦ hnone, fun r hr ↦ ?_⟩
        change r ∈ root at hr
        rw [hnone] at hr
        cases hr
      rw [hn] at hb
      rw [List.append_assoc]
      exact builderRead_add hbefore (.element (hname ▸ ho) ha ht hp) hb
    · cases hb

/-- Taking in a lexeme. -/
private theorem builderRead_step {ls : List Lexeme} {l : Lexeme} {b b' : Builder}
    (h : BuilderRead ls b) (hb : b.step l = .ok b') : BuilderRead (ls ++ [l]) b' := by
  cases ht : l.token with
  | openTag name written isClosed => exact builderRead_openTag h ht hb
  | closeTag name => exact builderRead_closeTag h ht hb
  | comment =>
    rw [Builder.step, ht] at hb
    exact builderRead_add h (.comment ht) hb
  | instruction =>
    rw [Builder.step, ht] at hb
    exact builderRead_add h (.instruction ht) hb
  | characterData =>
    rw [Builder.step, ht] at hb
    dsimp only at hb
    split at hb
    · cases hb
    · exact builderRead_add h (.characterData ht) hb
  | text chars =>
    rw [Builder.step, ht] at hb
    dsimp only at hb
    split at hb
    · next hd => exact builderRead_add h (.text ht hd) hb
    · cases hb

/-- The root of a document is said by a run of its lexemes. -/
theorem sourced_of_parse {text : List Char} {root : Node} (h : parse text = .ok root) :
    ∃ ls before own after, lexemes text = .ok ls ∧ ls = before ++ own ++ after ∧
      Sourced root own := by
  obtain ⟨ls, hls, h⟩ := bind_eq_ok.mp h
  obtain ⟨b, hb, h⟩ := bind_eq_ok.mp h
  have hinit : BuilderRead [] {} := ⟨trivial, fun hne ↦ absurd rfl hne, nofun⟩
  have hread := foldlM_invariant (I := BuilderRead)
    (fun _ _ _ _ _ hb hs ↦ builderRead_step hb hs) hinit hb
  rw [List.nil_append] at hread
  rw [Builder.finish] at h
  split at h
  · cases h
  · split at h
    · next r hr =>
      obtain rfl := Except.ok.inj h
      obtain ⟨before, own, after, he, hn⟩ := hread.root r hr
      exact ⟨ls, before, own, after, hls, he, hn⟩
    · cases h

end Buildpath.Xml
