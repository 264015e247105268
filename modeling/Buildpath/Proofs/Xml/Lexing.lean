import Buildpath.Proofs.Results
import Buildpath.Xml.Token
import Mathlib.Data.List.TakeDrop

/-!
# What a token is read from

Every reader of the lexer consumes a piece of the text that does not depend on what follows it: the
piece reads the same before any other text, except that a name and a text end only where something
else begins. A token therefore stays a token when its source is moved to another document.
-/

namespace Buildpath.Xml

/-- Whether a text begins with no character of a class. -/
def Ends (p : Char → Bool) (cs : List Char) : Prop := ∀ c ∈ cs.head?, p c = false

/-- A reader yields `a` from the piece `s`, whatever follows. -/
def Consumes {α : Type} (read : List Char → Except XmlError (α × List Char)) (a : α)
    (s : List Char) : Prop :=
  ∀ rest, read (s ++ rest) = .ok (a, rest)

variable {p : Char → Bool} {s cs rest : List Char}

theorem ends_nil : Ends p [] := fun _ hc ↦ absurd hc (by simp)

theorem ends_cons {c : Char} : Ends p (c :: cs) ↔ p c = false := by
  simp [Ends]

/-- Where a text ends depends on its first character only. -/
theorem Ends.congr {other : List Char} (h : Ends p (s ++ rest)) (hs : s ≠ []) : Ends p (s ++ other) := by
  cases s with
  | nil => exact absurd rfl hs
  | cons c s => exact ends_cons.mpr (ends_cons.mp h)

theorem ends_dropWhile : Ends p (cs.dropWhile p) := by
  induction cs with
  | nil => exact ends_nil
  | cons c cs ih =>
    rw [List.dropWhile_cons]
    split
    · exact ih
    · next hc => exact ends_cons.mpr (by simpa using hc)

theorem any_head?_append (h : s.head?.any p) (rest : List Char) :
    (s ++ rest).head?.any p := by
  cases s with
  | nil => exact absurd h (by simp)
  | cons c s => exact h

theorem takeWhile_of_ends (hs : ∀ c ∈ s, p c) (hr : Ends p rest) :
    (s ++ rest).takeWhile p = s := by
  rw [List.takeWhile_append_of_pos hs]
  cases rest with
  | nil => simp
  | cons c rest => simp [ends_cons.mp hr]

theorem dropWhile_of_ends (hs : ∀ c ∈ s, p c) (hr : Ends p rest) :
    (s ++ rest).dropWhile p = rest := by
  rw [List.dropWhile_append_of_pos hs]
  cases rest with
  | nil => rfl
  | cons c rest => simp [ends_cons.mp hr]

/-- A text is its longest beginning in a class and what ends it. -/
theorem exists_of_dropWhile (h : cs.dropWhile p = rest) :
    ∃ w, cs = w ++ rest ∧ (∀ c ∈ w, p c) ∧ Ends p rest := by
  refine ⟨cs.takeWhile p, ?_, List.all_eq_true.mp List.all_takeWhile, h ▸ ends_dropWhile⟩
  rw [← h, List.takeWhile_append_dropWhile]

/-! ### Marks -/

/-- A mark that fits into the piece before a rest is found or missed there. -/
theorem stripStart?_append {mark : List Char} (h : mark.length ≤ s.length) (rest : List Char) :
    stripStart? mark (s ++ rest) = (stripStart? mark s).map (· ++ rest) := by
  induction mark generalizing s with
  | nil => rfl
  | cons a as ih =>
    cases s with
    | nil => exact absurd h (by simp)
    | cons b bs =>
      rw [List.cons_append, stripStart?, stripStart?]
      split
      · exact ih (by simpa using h)
      · rfl

theorem stripStart?_self (mark rest : List Char) : stripStart? mark (mark ++ rest) = some rest := by
  induction mark with
  | nil => rfl
  | cons a as ih => simpa [stripStart?] using ih

/-- A text that is cut consists of the part before the mark, the mark and the part after, and so is
any text with the same part before the mark. -/
theorem cutAt?_eq_some {mark before after : List Char} (h : cutAt? mark cs = some (before, after)) :
    cs = before ++ mark ++ after ∧
      ∀ rest, cutAt? mark (before ++ mark ++ rest) = some (before, rest) := by
  induction cs generalizing before with
  | nil =>
    rw [cutAt?] at h
    split at h
    · next hm =>
      obtain ⟨rfl, rfl⟩ := Prod.mk.inj (Option.some.inj h)
      obtain rfl := List.isEmpty_iff.mp hm
      refine ⟨rfl, fun rest ↦ ?_⟩
      cases rest <;> rfl
    · exact absurd h (by simp)
  | cons c cs ih =>
    rw [cutAt?] at h
    cases hs : stripStart? mark (c :: cs) with
    | some tail =>
      rw [hs] at h
      obtain ⟨rfl, rfl⟩ := Prod.mk.inj (Option.some.inj h)
      refine ⟨by simpa using eq_of_stripStart? hs, fun rest ↦ ?_⟩
      cases mark with
      | nil => cases rest <;> rfl
      | cons a as =>
        rw [List.nil_append, List.cons_append, cutAt?, ← List.cons_append, stripStart?_self]
    | none =>
      rw [hs] at h
      obtain ⟨⟨before', after'⟩, hcut, he⟩ := Option.map_eq_some_iff.mp h
      obtain ⟨rfl, rfl⟩ := Prod.mk.inj he
      obtain ⟨rfl, hall⟩ := ih hcut
      refine ⟨by simp, fun rest ↦ ?_⟩
      -- the mark does not begin at `c`, wherever the text goes on
      have hlen : mark.length ≤ (c :: (before' ++ mark)).length := by simp; omega
      have hmiss : stripStart? mark (c :: (before' ++ mark)) = none := by
        rw [← List.cons_append, stripStart?_append hlen, Option.map_eq_none_iff] at hs
        exact hs
      rw [List.cons_append, List.cons_append, cutAt?, ← List.cons_append,
        stripStart?_append hlen, hmiss, Option.map_none, hall]
      rfl

/-! ### Names, values and attributes -/

/-- The name that a run of name characters stands for. -/
def qname? (raw : List Char) : Option QName :=
  match Text.splitOn ':' raw with
  | [name] => if name.head?.any isNameStart then some ⟨[], name⟩ else none
  | [space, name] =>
    if space.head?.all isNameStart && name.head?.any isNameStart then some ⟨space, name⟩ else none
  | _ => none

theorem lexName_eq (cs : List Char) :
    lexName cs =
      match qname? (cs.takeWhile isNameChar) with
      | some q => .ok (q, cs.dropWhile isNameChar)
      | none => .error .malformedName := by
  rw [lexName, qname?]
  cases Text.splitOn ':' (cs.takeWhile isNameChar) with
  | nil => rfl
  | cons first fields =>
    cases fields with
    | nil => dsimp only; split <;> rfl
    | cons second fields =>
      cases fields with
      | nil => dsimp only; split <;> rfl
      | cons third fields => rfl

/-- The local part of a name that was read: it begins like a name and holds no colon. -/
structure LocalName (name : List Char) : Prop where
  start : name.head?.any isNameStart
  chars : ∀ c ∈ name, isNameChar c
  plain : ':' ∉ name

/-- A name that was read consists of characters of its text, begins like a name and has a local
part. -/
theorem qname?_eq_some {raw : List Char} {q : QName} (hraw : ∀ c ∈ raw, isNameChar c)
    (h : qname? raw = some q) : raw.head?.any isNameStart ∧ LocalName q.name := by
  have hj := Text.joinWith_splitOn ':' raw
  have hp : ∀ field ∈ Text.splitOn ':' raw, ':' ∉ field :=
    fun field hf ↦ Text.not_mem_of_mem_splitOn hf
  rw [qname?] at h
  split at h
  · next name hs =>
    split at h
    · next hn =>
      obtain rfl := Option.some.inj h
      rw [hs, Text.joinWith] at hj
      exact ⟨hj ▸ hn, hn, hj ▸ hraw, hp name (by simp [hs])⟩
    · cases h
  · next space name hs =>
    split at h
    · next hn =>
      obtain rfl := Option.some.inj h
      obtain ⟨hspace, hname⟩ := (Bool.and_eq_true _ _).mp hn
      rw [hs, Text.joinWith, Text.joinWith] at hj
      · refine ⟨?_, hname, fun c hc ↦ hraw c (by rw [← hj]; simp [hc]), hp name (by simp [hs])⟩
        rw [← hj]
        cases space with
        | nil => exact (by decide : isNameStart ':' = true)
        | cons c space => exact hspace
      · exact fun hnil ↦ absurd hnil (by simp)
    · cases h
  · cases h

/-- A local name reads as itself, without a prefix. -/
theorem qname?_of_localName {name : List Char} (h : LocalName name) :
    qname? name = some ⟨[], name⟩ := by
  rw [qname?, Text.splitOn_of_not_mem h.plain]
  exact if_pos h.start

/-- A name reads the same before any text that does not go on with a character of names. -/
theorem lexName_eq_ok {q : QName} (h : lexName cs = .ok (q, rest)) :
    ∃ s, cs = s ++ rest ∧ s.head?.any isNameStart ∧ LocalName q.name ∧ Ends isNameChar rest ∧
      ∀ other, Ends isNameChar other → lexName (s ++ other) = .ok (q, other) := by
  rw [lexName_eq] at h
  split at h
  · next q' hq =>
    obtain ⟨rfl, hrest⟩ := Prod.mk.inj (Except.ok.inj h)
    obtain ⟨w, rfl, hall, hend⟩ := exists_of_dropWhile hrest
    rw [takeWhile_of_ends hall hend] at hq
    obtain ⟨hstart, hlocal⟩ := qname?_eq_some hall hq
    refine ⟨w, rfl, hstart, hlocal, hend, fun other ho ↦ ?_⟩
    rw [lexName_eq, takeWhile_of_ends hall ho, dropWhile_of_ends hall ho, hq]
  · cases h

theorem lexName_of_localName {name : List Char} (h : LocalName name) (hr : Ends isNameChar rest) :
    lexName (name ++ rest) = .ok (⟨[], name⟩, rest) := by
  rw [lexName_eq, takeWhile_of_ends h.chars hr, dropWhile_of_ends h.chars hr,
    qname?_of_localName h]

/-- A quoted value reads the same before any text. -/
theorem lexValue_eq_ok {value : List Char} (h : lexValue cs = .ok (value, rest)) :
    ∃ quote, cs = quote :: value ++ quote :: rest ∧
      Consumes lexValue value (quote :: value ++ [quote]) := by
  cases cs with
  | nil => cases h
  | cons quote cs =>
    rw [lexValue] at h
    split at h
    · next hq =>
      rw [List.span_eq_takeWhile_dropWhile] at h
      split at h
      · next value' c rest' hspan =>
        obtain ⟨hv, hd⟩ := Prod.mk.inj hspan
        obtain ⟨w, rfl, hall, hend⟩ := exists_of_dropWhile hd
        rw [takeWhile_of_ends hall hend] at hv
        subst hv
        split at h
        · next hc =>
          obtain ⟨rfl, rfl⟩ := Prod.mk.inj (Except.ok.inj h)
          subst hc
          refine ⟨c, rfl, fun other ↦ ?_⟩
          have he : (w ++ [c]) ++ other = w ++ c :: other := by simp
          have hstop : Ends (fun d ↦ decide (d ≠ c) && decide (d ≠ '<')) (c :: other) :=
            ends_cons.mpr (by simp)
          rw [List.cons_append, List.cons_append, lexValue, if_pos hq, he,
            List.span_eq_takeWhile_dropWhile, takeWhile_of_ends hall hstop,
            dropWhile_of_ends hall hstop]
          simp
        · cases h
      · cases h
    · cases h

/-- An attribute reads the same before any text. -/
theorem lexAttribute_eq_ok {a : QName × List Char} (h : lexAttribute cs = .ok (a, rest)) :
    ∃ s, cs = s ++ rest ∧ s.head?.any isNameStart ∧ LocalName a.1.name ∧ (∀ c ∈ a.2, c ∈ s) ∧
      Consumes lexAttribute a s := by
  obtain ⟨⟨q, cs₁⟩, hn, hafter⟩ := bind_eq_ok.mp h
  obtain ⟨sn, rfl, hstart, hlocal, hend, hname⟩ := lexName_eq_ok hn
  dsimp only at hafter
  split at hafter
  · next cs₂ hd =>
    obtain ⟨w₁, rfl, hw₁, -⟩ := exists_of_dropWhile hd
    obtain ⟨⟨value, rest'⟩, hv, hpure⟩ := bind_eq_ok.mp hafter
    obtain ⟨rfl, rfl⟩ := Prod.mk.inj (Except.ok.inj hpure)
    obtain ⟨quote, hq, hvalue⟩ := lexValue_eq_ok hv
    obtain ⟨w₂, rfl, hw₂, hquote⟩ := exists_of_dropWhile hq
    refine ⟨sn ++ (w₁ ++ '=' :: (w₂ ++ (quote :: value ++ [quote]))), by simp, ?_, hlocal,
      ?_, fun other ↦ ?_⟩
    · exact any_head?_append hstart _
    · intro c hc
      simp [hc]
    · have hsplit : sn ++ (w₁ ++ '=' :: (w₂ ++ (quote :: value ++ [quote]))) ++ other =
          sn ++ (w₁ ++ '=' :: (w₂ ++ ((quote :: value ++ [quote]) ++ other))) := by simp
      have hstop : Ends isNameChar
          (w₁ ++ '=' :: (w₂ ++ ((quote :: value ++ [quote]) ++ other))) := by
        rw [List.append_cons] at hend ⊢
        exact hend.congr (by simp)
      have hquote' : Ends isSpace ((quote :: value ++ [quote]) ++ other) :=
        ends_cons.mpr (ends_cons.mp hquote)
      rw [hsplit, lexAttribute, hname _ hstop, bind_ok]
      dsimp only
      rw [dropWhile_of_ends hw₁ (ends_cons.mpr (by decide))]
      change (lexValue ((w₂ ++ _).dropWhile isSpace) >>= _) = _
      rw [dropWhile_of_ends hw₂ hquote', hvalue]
      rfl
  · cases hafter

/-- The end of a tag reads the same after any blanks. -/
theorem lexAttributes_end {w : List Char} (hw : ∀ c ∈ w, isSpace c) (fuel : Nat)
    (other : List Char) :
    lexAttributes (fuel + 1) (w ++ '/' :: '>' :: other) = .ok ([], true, other) ∧
      lexAttributes (fuel + 1) (w ++ '>' :: other) = .ok ([], false, other) := by
  constructor
  · rw [lexAttributes, dropWhile_of_ends hw (ends_cons.mpr (by decide))]
    rfl
  · rw [lexAttributes, dropWhile_of_ends hw (ends_cons.mpr (by decide))]
    rfl

/-- A tag goes on with an attribute where a name starts after a blank. -/
theorem lexAttributes_next {b : Char} {w next : List Char} (hb : isSpace b)
    (hw : ∀ c ∈ w, isSpace c) (hs : next.head?.any isNameStart) (fuel : Nat) :
    lexAttributes (fuel + 1) (b :: w ++ next) = (do
      let (first, rest) ← lexAttribute next
      let (attributes, isClosed, rest) ← lexAttributes fuel rest
      pure (first :: attributes, isClosed, rest)) := by
  have hbw : ∀ c ∈ b :: w, isSpace c := by simpa [hb] using hw
  cases next with
  | nil => exact absurd hs (by simp)
  | cons c next =>
    have hc : isNameStart c := hs
    have hstop : Ends isSpace (c :: next) := by
      refine ends_cons.mpr (Bool.eq_false_iff.mpr fun hsp ↦ ?_)
      simp only [isSpace, Bool.or_eq_true, decide_eq_true_eq] at hsp
      rcases hsp with ((rfl | rfl) | rfl) | rfl <;> exact absurd hc (by decide)
    rw [lexAttributes, dropWhile_of_ends hbw hstop]
    split
    · next heq => exact absurd ((List.cons.inj heq).1 ▸ hc) (by decide)
    · next heq => exact absurd ((List.cons.inj heq).1 ▸ hc) (by decide)
    · exact if_pos hb

/-- The blanks that a text starts with. -/
theorem exists_blanks (h : cs.head?.any isSpace) :
    ∃ b w, cs = b :: w ++ cs.dropWhile isSpace ∧ isSpace b ∧ ∀ c ∈ w, isSpace c := by
  cases cs with
  | nil => exact absurd h (by simp)
  | cons b cs =>
    have hb : isSpace b := h
    obtain ⟨w, hcs, hw, -⟩ := exists_of_dropWhile (rfl : cs.dropWhile isSpace = _)
    refine ⟨b, w, ?_, hb, hw⟩
    rw [List.dropWhile_cons_of_pos hb]
    exact congrArg (b :: ·) hcs

/-- Attributes read the same before any text after one more attribute. -/
theorem lexAttributes_cons {b : Char} {w s₁ s₂ : List Char} {a : QName × List Char}
    {as : List (QName × List Char)} {isClosed : Bool} (hb : isSpace b) (hw : ∀ c ∈ w, isSpace c)
    (hstart : s₁.head?.any isNameStart) (hfirst : Consumes lexAttribute a s₁)
    (hrest : ∀ bound other, s₂.length ≤ bound →
      lexAttributes bound (s₂ ++ other) = .ok (as, isClosed, other))
    (bound : Nat) (other : List Char) (hbound : (b :: w ++ (s₁ ++ s₂)).length ≤ bound) :
    lexAttributes bound (b :: w ++ (s₁ ++ s₂) ++ other) = .ok (a :: as, isClosed, other) := by
  obtain ⟨bound, rfl⟩ := Nat.exists_eq_add_one.mpr (Nat.lt_of_lt_of_le (by simp) hbound)
  have hle : s₂.length ≤ bound := by
    simp only [List.length_append, List.length_cons] at hbound
    omega
  rw [List.append_assoc, List.append_assoc, lexAttributes_next hb hw (any_head?_append hstart _), hfirst,
    bind_ok]
  dsimp only
  rw [hrest bound other hle]
  rfl

/-- The attributes of a tag, with its end, read the same before any text and with any bound that is
not below the length of the piece. -/
theorem lexAttributes_eq_ok {fuel : Nat} {as : List (QName × List Char)} {isClosed : Bool}
    (h : lexAttributes fuel cs = .ok (as, isClosed, rest)) :
    ∃ s, cs = s ++ rest ∧ s ≠ [] ∧ (∀ a ∈ as, LocalName a.1.name ∧ ∀ c ∈ a.2, c ∈ s) ∧
      ∀ bound other, s.length ≤ bound →
        lexAttributes bound (s ++ other) = .ok (as, isClosed, other) := by
  induction fuel generalizing cs as with
  | zero => cases h
  | succ fuel ih =>
    rw [lexAttributes] at h
    split at h
    · next rest' hd =>
      obtain ⟨rfl, rfl, rfl⟩ := by simpa using h
      obtain ⟨w, rfl, hw, -⟩ := exists_of_dropWhile hd
      refine ⟨w ++ ['/', '>'], by simp, by simp, by simp, fun bound other hb ↦ ?_⟩
      obtain ⟨bound, rfl⟩ := Nat.exists_eq_add_one.mpr (Nat.lt_of_lt_of_le (by simp) hb)
      rw [List.append_assoc]
      exact (lexAttributes_end hw bound other).1
    · next rest' hd =>
      obtain ⟨rfl, rfl, rfl⟩ := by simpa using h
      obtain ⟨w, rfl, hw, -⟩ := exists_of_dropWhile hd
      refine ⟨w ++ ['>'], by simp, by simp, by simp, fun bound other hb ↦ ?_⟩
      obtain ⟨bound, rfl⟩ := Nat.exists_eq_add_one.mpr (Nat.lt_of_lt_of_le (by simp) hb)
      rw [List.append_assoc]
      exact (lexAttributes_end hw bound other).2
    · next hclosed hopen =>
      split at h
      · next hblank =>
        obtain ⟨b, w, hcs, hb, hw⟩ := exists_blanks hblank
        obtain ⟨⟨first, cs₁⟩, ha, hafter⟩ := bind_eq_ok.mp h
        obtain ⟨⟨as', isClosed', rest'⟩, hr, hpure⟩ := bind_eq_ok.mp hafter
        obtain ⟨rfl, rfl, rfl⟩ := by simpa [pure, Except.pure] using Except.ok.inj hpure
        obtain ⟨s₁, hs₁, hstart, hlocal, hvalue, hfirst⟩ := lexAttribute_eq_ok ha
        obtain ⟨s₂, hs₂, hne, hall, hrest⟩ := ih hr
        rw [hs₁, hs₂] at hcs
        refine ⟨b :: w ++ (s₁ ++ s₂), by simpa using hcs, by simp, fun a hm ↦ ?_,
          lexAttributes_cons hb hw hstart hfirst hrest⟩
        rcases List.mem_cons.mp hm with rfl | hm
        · exact ⟨hlocal, fun c hc ↦ by simp [hvalue c hc]⟩
        · exact ⟨(hall a hm).1, fun c hc ↦ by simp [(hall a hm).2 c hc]⟩
      · cases h

/-! ### Tokens -/

/-- What may come after a token: after a text, only markup. -/
def Token.Precedes (t : Token) (rest : List Char) : Prop :=
  ∀ chars, t = .text chars → Ends (· ≠ '<') rest

/-- A lexeme that reads from its source alone. -/
structure Lexeme.Reads (l : Lexeme) : Prop where
  source_ne_nil : l.source ≠ []
  head_source : (∀ chars, l.token ≠ .text chars) → l.source.head? = some '<'
  attributes : ∀ name as isClosed, l.token = .openTag name as isClosed →
    ∀ a ∈ as, LocalName a.1.name ∧ ∀ c ∈ a.2, c ∈ l.source
  lexToken : ∀ rest, l.token.Precedes rest → lexToken (l.source ++ rest) = .ok (l.token, rest)

/-- An opening tag is read by its name and its attributes. -/
theorem lexToken_openTag (hs : cs.head?.any isNameStart) :
    lexToken ('<' :: cs) = (do
      let (name, cs) ← lexName cs
      let (attributes, isClosed, rest) ← lexAttributes (cs.length + 1) cs
      pure (.openTag name attributes isClosed, rest)) := by
  cases cs with
  | nil => exact absurd hs (by simp)
  | cons c cs =>
    have hc : isNameStart c := hs
    rw [lexToken.eq_def]
    split
    · next heq => exact absurd ((List.cons.inj (List.cons.inj heq).2).1 ▸ hc) (by decide)
    · next heq => exact absurd ((List.cons.inj (List.cons.inj heq).2).1 ▸ hc) (by decide)
    · next heq => exact absurd ((List.cons.inj (List.cons.inj heq).2).1 ▸ hc) (by decide)
    · next heq => exact absurd ((List.cons.inj (List.cons.inj heq).2).1 ▸ hc) (by decide)
    · next heq => rw [(List.cons.inj heq).2]
    · next hno => exact (hno _ rfl).elim

/-- A text is read up to the next markup. -/
theorem lexToken_text {c : Char} (hc : c ≠ '<') :
    lexToken (c :: cs) =
      if occursIn [']', ']', '>'] ((c :: cs).takeWhile (· ≠ '<')) then .error .malformedText
      else .ok (.text ((c :: cs).takeWhile (· ≠ '<')), (c :: cs).dropWhile (· ≠ '<')) := by
  rw [lexToken.eq_def]
  split
  · next heq => exact absurd (List.cons.inj heq).1 hc
  · next heq => exact absurd (List.cons.inj heq).1 hc
  · next heq => exact absurd (List.cons.inj heq).1 hc
  · next heq => exact absurd (List.cons.inj heq).1 hc
  · next heq => exact absurd (List.cons.inj heq).1 hc
  · rfl

/-- Markup other than a tag, whose source is a beginning, a body and a closing mark. -/
private theorem reads_of_markup {t : Token} {s : List Char}
    (hn : ∀ name as isClosed, t ≠ .openTag name as isClosed) (hs : s.head? = some '<')
    (hr : ∀ rest, lexToken (s ++ rest) = .ok (t, rest)) : Lexeme.Reads ⟨t, s⟩ where
  source_ne_nil := by rintro rfl; exact absurd hs (by simp)
  head_source _ := hs
  attributes name as isClosed h := absurd h (hn name as isClosed)
  lexToken rest _ := hr rest

/-- Whether an instruction is a declaration does not depend on what follows it. -/
private theorem stripStart?_instruction {body : List Char} {rest other : List Char}
    (h : ¬(stripStart? ['x', 'm', 'l', ' '] (body ++ ['?', '>'] ++ rest)).isSome) :
    ¬(stripStart? ['x', 'm', 'l', ' '] (body ++ ['?', '>'] ++ other)).isSome := by
  by_cases hl : 4 ≤ (body ++ ['?', '>']).length
  · have hmark : ['x', 'm', 'l', ' '].length ≤ (body ++ ['?', '>']).length := hl
    rw [stripStart?_append hmark, Option.isSome_map] at h ⊢
    exact h
  · -- the question mark stands where the blank or a letter would
    rcases body with _ | ⟨a, _ | ⟨b, body⟩⟩
    · simp [stripStart?]
    · simp [stripStart?]
    · exact absurd (by simp) hl

/-- Whether a token was read from the beginning of a text, which reads the same before any other text
that may come after the token. -/
private def ReadFrom (t : Token) (cs rest : List Char) : Prop :=
  ∃ s, cs = s ++ rest ∧ Lexeme.Reads ⟨t, s⟩ ∧ t.Precedes rest

variable {t : Token}

private theorem readFrom_comment (h : lexToken ('<' :: '!' :: '-' :: '-' :: cs) = .ok (t, rest)) :
    ReadFrom t ('<' :: '!' :: '-' :: '-' :: cs) rest := by
  rw [lexToken] at h
  split at h
  · next body rest' hcut =>
    split at h
    · cases h
    · next hbody =>
      obtain ⟨rfl, rfl⟩ := Prod.mk.inj (Except.ok.inj h)
      obtain ⟨rfl, hall⟩ := cutAt?_eq_some hcut
      refine ⟨'<' :: '!' :: '-' :: '-' :: (body ++ ['-', '-', '>']), by simp,
        reads_of_markup nofun rfl fun other ↦ ?_, nofun⟩
      simp only [List.cons_append]
      rw [lexToken, hall other]
      exact if_neg hbody
  · cases h

private theorem readFrom_characterData
    (h : lexToken ('<' :: '!' :: '[' :: 'C' :: 'D' :: 'A' :: 'T' :: 'A' :: '[' :: cs) = .ok (t, rest)) :
    ReadFrom t ('<' :: '!' :: '[' :: 'C' :: 'D' :: 'A' :: 'T' :: 'A' :: '[' :: cs) rest := by
  rw [lexToken] at h
  split at h
  · next body rest' hcut =>
    obtain ⟨rfl, rfl⟩ := Prod.mk.inj (Except.ok.inj h)
    obtain ⟨rfl, hall⟩ := cutAt?_eq_some hcut
    refine ⟨'<' :: '!' :: '[' :: 'C' :: 'D' :: 'A' :: 'T' :: 'A' :: '[' ::
      (body ++ [']', ']', '>']), by simp, reads_of_markup nofun rfl fun other ↦ ?_, nofun⟩
    simp only [List.cons_append]
    rw [lexToken, hall other]
  · cases h

private theorem readFrom_instruction (h : lexToken ('<' :: '?' :: cs) = .ok (t, rest)) :
    ReadFrom t ('<' :: '?' :: cs) rest := by
  rw [lexToken] at h
  split at h
  · cases h
  · next hdecl =>
    split at h
    · next hstart =>
      split at h
      · next body rest' hcut =>
        obtain ⟨rfl, rfl⟩ := Prod.mk.inj (Except.ok.inj h)
        obtain ⟨hd, hall⟩ := cutAt?_eq_some hcut
        obtain ⟨w, rfl, hw, hend⟩ := exists_of_dropWhile hd
        have hsplit (other : List Char) : w ++ (body ++ ['?', '>'] ++ other) =
            (w ++ body) ++ ['?', '>'] ++ other := by simp
        have hstop (other : List Char) : Ends isNameChar (body ++ ['?', '>'] ++ other) :=
          hend.congr (by simp)
        refine ⟨'<' :: '?' :: (w ++ body ++ ['?', '>']), by simp,
          reads_of_markup nofun rfl fun other ↦ ?_, nofun⟩
        rw [hsplit] at hdecl
        simp only [List.cons_append]
        rw [lexToken, if_neg (stripStart?_instruction hdecl), ← hsplit, if_pos,
          dropWhile_of_ends hw (hstop _), hall other]
        cases w with
        | nil =>
          cases body with
          | nil => exact absurd (show isNameStart '?' from hstart) (by decide)
          | cons b body => exact hstart
        | cons c w => exact hstart
      · cases h
    · cases h

private theorem readFrom_closeTag (h : lexToken ('<' :: '/' :: cs) = .ok (t, rest)) :
    ReadFrom t ('<' :: '/' :: cs) rest := by
  rw [lexToken] at h
  obtain ⟨⟨q, cs₁⟩, hn, hafter⟩ := bind_eq_ok.mp h
  dsimp only at hafter
  split at hafter
  · next rest' hd =>
    obtain ⟨rfl, rfl⟩ := Prod.mk.inj (Except.ok.inj hafter)
    obtain ⟨sn, rfl, -, -, hend, hname⟩ := lexName_eq_ok hn
    obtain ⟨w, rfl, hw, -⟩ := exists_of_dropWhile hd
    refine ⟨'<' :: '/' :: (sn ++ (w ++ ['>'])), by simp,
      reads_of_markup nofun rfl fun other ↦ ?_, nofun⟩
    have hstop : Ends isNameChar (w ++ '>' :: other) := by
      rw [List.append_cons] at hend ⊢
      exact hend.congr (by simp)
    have hsplit : '<' :: '/' :: (sn ++ (w ++ ['>'])) ++ other =
        '<' :: '/' :: (sn ++ (w ++ '>' :: other)) := by simp
    rw [hsplit, lexToken, hname _ hstop, bind_ok]
    dsimp only
    rw [dropWhile_of_ends hw (ends_cons.mpr (by decide))]
    rfl
  · cases hafter

private theorem readFrom_openTag (h : (do
      let (name, cs) ← lexName cs
      let (attributes, isClosed, rest) ← lexAttributes (cs.length + 1) cs
      pure (Token.openTag name attributes isClosed, rest)) = .ok (t, rest)) :
    ReadFrom t ('<' :: cs) rest := by
  obtain ⟨⟨q, cs₁⟩, hn, hafter⟩ := bind_eq_ok.mp h
  obtain ⟨⟨as, isClosed, rest'⟩, ha, hpure⟩ := bind_eq_ok.mp hafter
  obtain ⟨rfl, rfl⟩ := Prod.mk.inj (Except.ok.inj hpure)
  obtain ⟨sn, rfl, hstart, -, hend, hname⟩ := lexName_eq_ok hn
  obtain ⟨sa, rfl, hne', hall, hattributes⟩ := lexAttributes_eq_ok ha
  refine ⟨'<' :: (sn ++ sa), by simp, ⟨by simp, fun _ ↦ rfl, ?_, ?_⟩, nofun⟩
  · intro name as' isClosed' he a hm
    obtain ⟨rfl, rfl, rfl⟩ := by simpa using he
    exact ⟨(hall a hm).1, fun c hc ↦ by simp [(hall a hm).2 c hc]⟩
  · intro other _
    change lexToken ('<' :: (sn ++ sa ++ other)) = _
    rw [List.append_assoc, lexToken_openTag (any_head?_append hstart _), hname _ (hend.congr hne'),
      bind_ok]
    dsimp only
    rw [hattributes _ other (by simp; omega)]
    rfl

private theorem readFrom_text {c : Char} (hc : c ≠ '<') (h : lexToken (c :: cs) = .ok (t, rest)) :
    ReadFrom t (c :: cs) rest := by
  rw [lexToken_text hc] at h
  split at h
  · cases h
  · next hmark =>
    obtain ⟨rfl, hrest⟩ := Prod.mk.inj (Except.ok.inj h)
    obtain ⟨w, hcs, hw, hend⟩ := exists_of_dropWhile hrest
    rw [hcs, takeWhile_of_ends hw hend] at hmark ⊢
    cases w with
    | nil =>
      obtain rfl : c :: cs = rest := hcs
      exact absurd (by simpa using ends_cons.mp hend) hc
    | cons d w =>
      have hd : d ≠ '<' := by simpa using hw d List.mem_cons_self
      refine ⟨d :: w, rfl, ⟨by simp, fun hno ↦ absurd rfl (hno _), nofun, ?_⟩,
        fun _ _ ↦ hend⟩
      intro other ho
      have hstop := ho _ rfl
      rw [List.cons_append, lexToken_text hd, ← List.cons_append, takeWhile_of_ends hw hstop,
        dropWhile_of_ends hw hstop, if_neg hmark]

/-- What a token is read from reads the same before any text that may come after it. -/
theorem lexToken_eq_ok (hne : cs ≠ []) (h : lexToken cs = .ok (t, rest)) :
    ∃ s, cs = s ++ rest ∧ Lexeme.Reads ⟨t, s⟩ ∧ t.Precedes rest := by
  have hbranch := h
  rw [lexToken.eq_def] at hbranch
  split at hbranch
  · exact readFrom_comment h
  · exact readFrom_characterData h
  · exact readFrom_instruction h
  · exact readFrom_closeTag h
  · exact readFrom_openTag hbranch
  · next hmarkup =>
    cases cs with
    | nil => exact absurd rfl hne
    | cons c cs => exact readFrom_text (fun hc ↦ hmarkup cs (hc ▸ rfl)) h

/-! ### Token sequences -/

/-- A sequence of lexemes reads back from its sources before a given text. -/
def Lexed : List Lexeme → List Char → Prop
  | [], _ => True
  | l :: ls, rest => l.Reads ∧ l.token.Precedes (ls.flatMap Lexeme.source ++ rest) ∧ Lexed ls rest

theorem lexed_append {ls ls' : List Lexeme} :
    Lexed (ls ++ ls') rest ↔ Lexed ls (ls'.flatMap Lexeme.source ++ rest) ∧ Lexed ls' rest := by
  induction ls with
  | nil => simp [Lexed]
  | cons l ls ih =>
    rw [List.cons_append, Lexed, Lexed, ih, List.flatMap_append, List.append_assoc]
    exact ⟨fun ⟨h₁, h₂, h₃, h₄⟩ ↦ ⟨⟨h₁, h₂, h₃⟩, h₄⟩, fun ⟨⟨h₁, h₂, h₃⟩, h₄⟩ ↦ ⟨h₁, h₂, h₃, h₄⟩⟩

/-- A sequence that does not end with a text reads back before any text. -/
theorem Lexed.of_last {ls : List Lexeme} {l : Lexeme} (h : Lexed (ls ++ [l]) rest)
    (hl : ∀ chars, l.token ≠ .text chars) (other : List Char) : Lexed (ls ++ [l]) other := by
  induction ls with
  | nil => exact ⟨h.1, fun chars he ↦ absurd he (hl chars), trivial⟩
  | cons first ls ih =>
    rw [List.cons_append] at h ⊢
    obtain ⟨hr, hp, h⟩ := h
    refine ⟨hr, fun chars he ↦ ?_, ih h⟩
    -- the sequence after `first` is not empty, so the text after it does not matter
    have hstop := hp chars he
    have hsource : (ls ++ [l]).flatMap Lexeme.source ≠ [] := by
      intro hnil
      have hmem := List.flatMap_eq_nil_iff.mp hnil l (by simp)
      exact (lexed_append.mp h).2.1.source_ne_nil hmem
    cases hc : (ls ++ [l]).flatMap Lexeme.source with
    | nil => exact absurd hc hsource
    | cons c cs =>
      rw [hc] at hstop
      exact ends_cons.mpr (ends_cons.mp hstop)

private theorem length_lt_of_lexToken {t : Token} (hne : cs ≠ [])
    (h : lexToken cs = .ok (t, rest)) : rest.length < cs.length := by
  obtain ⟨s, rfl, hr, -⟩ := lexToken_eq_ok hne h
  have hpos : 0 < s.length := List.length_pos_iff.mpr hr.source_ne_nil
  rw [List.length_append]
  omega

/-- A bound that is not below the length of the text does not matter. -/
theorem lexAll_bound {fuel fuel' : Nat} (h : cs.length ≤ fuel) (h' : cs.length ≤ fuel') :
    lexAll fuel cs = lexAll fuel' cs := by
  induction fuel generalizing cs fuel' with
  | zero =>
    obtain rfl := List.length_eq_zero_iff.mp (Nat.le_zero.mp h)
    cases fuel' <;> rfl
  | succ fuel ih =>
    cases cs with
    | nil => cases fuel' <;> rfl
    | cons c cs =>
      obtain ⟨fuel', rfl⟩ := Nat.exists_eq_add_one.mpr (Nat.lt_of_lt_of_le (by simp) h')
      rw [lexAll, lexAll]
      cases ht : lexToken (c :: cs) with
      | error e => rfl
      | ok r =>
        obtain ⟨t, rest⟩ := r
        have hlt := length_lt_of_lexToken (by simp) ht
        change (lexAll fuel rest >>= _) = (lexAll fuel' rest >>= _)
        rw [ih (by omega) (by omega : rest.length ≤ fuel')]

/-- A text that was lexed is the sources of its lexemes one after another, and they read back. -/
theorem lexAll_eq_ok {fuel : Nat} {ls : List Lexeme} (hf : cs.length ≤ fuel)
    (h : lexAll fuel cs = .ok ls) : ls.flatMap Lexeme.source = cs ∧ Lexed ls [] := by
  induction fuel generalizing cs ls with
  | zero =>
    obtain rfl := Except.ok.inj h
    obtain rfl := List.length_eq_zero_iff.mp (Nat.le_zero.mp hf)
    exact ⟨rfl, trivial⟩
  | succ fuel ih =>
    cases cs with
    | nil =>
      obtain rfl := Except.ok.inj h
      exact ⟨rfl, trivial⟩
    | cons c cs =>
      rw [lexAll] at h
      obtain ⟨⟨t, rest⟩, ht, hafter⟩ := bind_eq_ok.mp h
      obtain ⟨ls', hl, hpure⟩ := bind_eq_ok.mp hafter
      obtain rfl := Except.ok.inj hpure
      have hlt := length_lt_of_lexToken (by simp) ht
      obtain ⟨s, hs, hr, hp⟩ := lexToken_eq_ok (by simp) ht
      have hle : rest.length ≤ fuel := by
        rw [List.length_cons] at hf hlt
        omega
      obtain ⟨hsources, hlexed⟩ := ih hle hl
      have hsource : (c :: cs).take ((c :: cs).length - rest.length) = s := by
        rw [hs, List.length_append, Nat.add_sub_cancel, List.take_left]
      refine ⟨?_, ?_, ?_, hlexed⟩
      · rw [List.flatMap_cons, hsources, hsource, ← hs]
      · rw [hsource]
        exact hr
      · rw [hsources, List.append_nil]
        exact hp

/-- Lexemes that read back are what a text begins with, whatever follows. -/
theorem lexAll_append {fuel : Nat} {ls : List Lexeme} (h : Lexed ls rest)
    (hf : (ls.flatMap Lexeme.source ++ rest).length ≤ fuel) :
    lexAll fuel (ls.flatMap Lexeme.source ++ rest) =
      (lexAll rest.length rest).map (ls ++ ·) := by
  induction ls generalizing fuel with
  | nil =>
    rw [List.flatMap_nil, List.nil_append] at hf ⊢
    rw [lexAll_bound hf (Nat.le_refl _)]
    cases lexAll rest.length rest <;> rfl
  | cons l ls ih =>
    obtain ⟨hr, hp, h⟩ := h
    rw [List.flatMap_cons, List.append_assoc] at hf ⊢
    have htoken := hr.lexToken _ hp
    have hpos := List.length_pos_iff.mpr hr.source_ne_nil
    obtain ⟨fuel, rfl⟩ : ∃ n, fuel = n + 1 :=
      Nat.exists_eq_add_one.mpr (by rw [List.length_append] at hf; omega)
    have hle : (ls.flatMap Lexeme.source ++ rest).length ≤ fuel := by
      rw [List.length_append] at hf
      omega
    obtain ⟨c, cs, hc⟩ := List.exists_cons_of_ne_nil
      (List.append_ne_nil_of_left_ne_nil hr.source_ne_nil (ls.flatMap Lexeme.source ++ rest))
    have hsource : (c :: cs).take ((c :: cs).length - (ls.flatMap Lexeme.source ++ rest).length) =
        l.source := by
      rw [← hc, List.length_append, Nat.add_sub_cancel, List.take_left]
    rw [hc] at htoken ⊢
    rw [lexAll, htoken]
    change (lexAll fuel (ls.flatMap Lexeme.source ++ rest) >>= fun lexemes ↦
      pure (⟨l.token, (c :: cs).take ((c :: cs).length -
        (ls.flatMap Lexeme.source ++ rest).length)⟩ :: lexemes)) = _
    rw [hsource, ih h hle]
    cases lexAll rest.length rest <;> rfl

/-! ### Declarations -/

private theorem suffix_lexAttribute {a : QName × List Char} (h : lexAttribute cs = .ok (a, rest)) :
    rest <:+ cs := by
  obtain ⟨s, rfl, -⟩ := lexAttribute_eq_ok h
  exact List.suffix_append s rest

private theorem suffix_lexGap (h : lexGap cs = .ok rest) : rest <:+ cs := by
  rw [lexGap] at h
  split at h
  · exact Except.ok.inj h ▸ List.dropWhile_suffix _
  · cases h

private theorem suffix_lexOptional {name : String} (h : lexOptional name cs = .ok rest) :
    rest <:+ cs := by
  rw [lexOptional] at h
  split at h
  · obtain ⟨⟨a, rest'⟩, ha, h⟩ := bind_eq_ok.mp h
    obtain rfl := Except.ok.inj h
    exact suffix_lexAttribute ha
  · exact Except.ok.inj h ▸ List.suffix_refl _

theorem skipDeclaration_cons (cs : List Char) :
    skipDeclaration ('<' :: '?' :: 'x' :: 'm' :: 'l' :: ' ' :: cs) =
      if (stripStart? "version".toList (cs.dropWhile isSpace)).isNone then
        .error .misplacedDeclaration
      else
        lexAttribute (cs.dropWhile isSpace) >>= fun (_, cs) ↦
        lexGap cs >>= fun cs ↦
        lexOptional "encoding" cs >>= fun afterEncoding ↦
        (if afterEncoding.length = cs.length then .ok cs else lexGap afterEncoding) >>= fun cs ↦
        lexOptional "standalone" cs >>= fun cs ↦
        match stripStart? ['?', '>'] (cs.dropWhile isSpace) with
        | some rest => .ok rest
        | none => .error .misplacedDeclaration := by
  have hs : stripStart? ['<', '?', 'x', 'm', 'l', ' ']
      ('<' :: '?' :: 'x' :: 'm' :: 'l' :: ' ' :: cs) = some cs := rfl
  rw [skipDeclaration, hs]
  dsimp only
  split
  · rfl
  · refine bind_congr fun _ ↦ bind_congr fun cs ↦ bind_congr fun afterEncoding ↦ ?_
    by_cases he : afterEncoding.length = cs.length
    · rw [if_pos he, if_pos he]
      rfl
    · rw [if_neg he, if_neg he]
      rfl

/-- What follows a declaration is an end of the text. -/
theorem suffix_of_skipDeclaration (h : skipDeclaration cs = .ok rest) : rest <:+ cs := by
  cases hs : stripStart? ['<', '?', 'x', 'm', 'l', ' '] cs with
  | none =>
    rw [skipDeclaration, hs] at h
    exact Except.ok.inj h ▸ List.suffix_refl _
  | some cs₀ =>
    obtain rfl := eq_of_stripStart? hs
    rw [List.cons_append, List.cons_append, List.cons_append, List.cons_append, List.cons_append,
      List.cons_append, List.nil_append, skipDeclaration_cons] at h
    split at h
    · cases h
    · obtain ⟨⟨a, cs₁⟩, h₁, h⟩ := bind_eq_ok.mp h
      obtain ⟨cs₂, h₂, h⟩ := bind_eq_ok.mp h
      obtain ⟨cs₃, h₃, h⟩ := bind_eq_ok.mp h
      obtain ⟨cs₄, h₄, h⟩ := bind_eq_ok.mp h
      obtain ⟨cs₅, h₅, h⟩ := bind_eq_ok.mp h
      have h₄' : cs₄ <:+ cs₂ := by
        split at h₄
        · exact Except.ok.inj h₄ ▸ List.suffix_refl _
        · exact (suffix_lexGap h₄).trans (suffix_lexOptional h₃)
      have h₅' : rest <:+ cs₅ := by
        split at h
        · next rest' hmark =>
          obtain rfl := Except.ok.inj h
          have hsplit := eq_of_stripStart? hmark
          exact (hsplit ▸ List.suffix_append ['?', '>'] rest').trans (List.dropWhile_suffix _)
        · cases h
      have h₀ : cs₂ <:+ cs₀ :=
        (suffix_lexGap h₂).trans ((suffix_lexAttribute h₁).trans (List.dropWhile_suffix _))
      exact h₅'.trans ((suffix_lexOptional h₅).trans (h₄'.trans (h₀.trans
        (List.suffix_append ['<', '?', 'x', 'm', 'l', ' '] cs₀))))

/-- The lexemes of a text consist of characters of documents, and read back. -/
theorem lexemes_eq_ok {ls : List Lexeme} (h : lexemes cs = .ok ls) :
    Lexed ls [] ∧ ∀ c ∈ ls.flatMap Lexeme.source, isDocumentChar c := by
  have he : lexemes cs = if !cs.all isDocumentChar then .error .forbiddenChar else
      skipDeclaration (dropMark cs) >>= fun body ↦ lexAll (body.length + 1) body := rfl
  rw [he] at h
  split at h
  · cases h
  · next hchars =>
    obtain ⟨body, hbody, h⟩ := bind_eq_ok.mp h
    obtain ⟨hsource, hlexed⟩ := lexAll_eq_ok (Nat.le_succ _) h
    refine ⟨hlexed, fun c hc ↦ ?_⟩
    rw [hsource] at hc
    have hmark : dropMark cs <:+ cs := by
      cases cs with
      | nil => exact List.suffix_refl _
      | cons c cs =>
        rw [dropMark]
        split
        · exact List.suffix_cons c cs
        · exact List.suffix_refl _
    have hall : cs.all isDocumentChar := by simpa using hchars
    exact List.all_eq_true.mp hall c
      (((suffix_of_skipDeclaration hbody).trans hmark).subset hc)

end Buildpath.Xml
