import Buildpath.Glob.Parse

/-!
# Globs of folders

How a glob that matches a folder extends to what lies below it. A token leaves of a longer text what it
leaves of the text itself, with the rest behind it (`mem_remainders_extend`), so a pattern that ends
with two stars as a whole component matches everything below what it matches. Reading a glob with such
stars behind it ends in such a pattern (`endsBelow_of_parse?_below`), and it is the pattern of the glob
continued by them or that of the glob itself (`parse?_below`).
-/

namespace Buildpath.Glob

variable {t : Token} {ts us : List Token} {text rest more : List UInt8} {texts : List (List UInt8)}

/-! ### What a pattern leaves -/

theorem mem_suffixes_append (h : rest ∈ suffixes text) : rest ++ more ∈ suffixes (text ++ more) := by
  induction text with
  | nil =>
    obtain rfl := List.mem_singleton.mp h
    cases more <;> exact List.mem_cons_self
  | cons b bs ih =>
    rcases List.mem_cons.mp h with rfl | h
    · exact List.mem_cons_self
    · exact List.mem_cons_of_mem _ (ih h)

theorem nil_mem_suffixes (text : List UInt8) : [] ∈ suffixes text := by
  induction text with
  | nil => exact List.mem_singleton.mpr rfl
  | cons b bs ih => exact List.mem_cons_of_mem _ ih

theorem mem_withoutSlash_append (h : rest ∈ withoutSlash text) :
    rest ++ more ∈ withoutSlash (text ++ more) := by
  induction text with
  | nil =>
    obtain rfl := List.mem_singleton.mp h
    cases more <;> exact List.mem_cons_self
  | cons b bs ih =>
    rcases List.mem_cons.mp h with rfl | h
    · exact List.mem_cons_self
    · refine List.mem_cons_of_mem _ ?_
      split at h
      · cases h
      · next hb => rw [if_neg hb]; exact ih h

theorem mem_afterSlashes_append (h : rest ∈ afterSlashes text) :
    rest ++ more ∈ afterSlashes (text ++ more) := by
  induction text with
  | nil => cases h
  | cons b bs ih =>
    rw [List.cons_append, afterSlashes]
    rw [afterSlashes] at h
    split at h
    · next hb =>
      rw [if_pos hb]
      rcases List.mem_cons.mp h with rfl | h
      · exact List.mem_cons_self
      · exact List.mem_cons_of_mem _ (ih h)
    · next hb => rw [if_neg hb]; exact ih h

theorem stripStart_append {start : List UInt8} (h : stripStart start text = some rest) :
    stripStart start (text ++ more) = some (rest ++ more) := by
  induction start generalizing text with
  | nil =>
    obtain rfl := Option.some.inj h
    rfl
  | cons a as ih =>
    cases text with
    | nil => cases h
    | cons b bs =>
      rw [stripStart] at h
      split at h
      · next hab =>
        rw [List.cons_append, stripStart, if_pos hab]
        exact ih h
      · cases h

theorem mem_remainders_nil : rest ∈ remainders [] texts ↔ rest ∈ texts := by
  rw [remainders]

theorem mem_remainders_cons : rest ∈ remainders (t :: ts) texts ↔
    rest ∈ remainders ts (texts.flatMap t.remainders).eraseDups := by
  rw [remainders]

/-- A pattern leaves of several texts what it leaves of one of them. -/
theorem mem_remainders : rest ∈ remainders ts texts ↔ ∃ text ∈ texts, rest ∈ remainders ts [text] := by
  induction ts generalizing texts with
  | nil => simp [mem_remainders_nil]
  | cons t ts ih =>
    rw [mem_remainders_cons, ih]
    simp only [mem_remainders_cons, List.mem_eraseDups, List.mem_flatMap, List.flatMap_singleton]
    constructor
    · rintro ⟨next, ⟨text, htext, hnext⟩, hrest⟩
      exact ⟨text, htext, ih.mpr ⟨next, by simpa using hnext, hrest⟩⟩
    · rintro ⟨text, htext, hrest⟩
      obtain ⟨next, hnext, hrest⟩ := ih.mp hrest
      exact ⟨next, ⟨text, htext, by simpa using hnext⟩, hrest⟩

theorem mem_remainders_append : rest ∈ remainders (ts ++ us) [text] ↔
    ∃ middle ∈ remainders ts [text], rest ∈ remainders us [middle] := by
  induction ts generalizing text with
  | nil => simp [remainders]
  | cons t ts ih =>
    rw [List.cons_append, mem_remainders_cons, mem_remainders]
    simp only [ih]
    constructor
    · rintro ⟨next, hnext, middle, hmiddle, hrest⟩
      exact ⟨middle, mem_remainders_cons.mpr (mem_remainders.mpr ⟨next, hnext, hmiddle⟩), hrest⟩
    · rintro ⟨middle, hmiddle, hrest⟩
      obtain ⟨next, hnext, hmiddle⟩ := mem_remainders.mp (mem_remainders_cons.mp hmiddle)
      exact ⟨next, hnext, middle, hmiddle, hrest⟩

mutual

/-- What a token leaves of a text, it leaves with more behind it of the text with more behind it. -/
theorem Token.mem_remainders_extend : (t : Token) → ∀ {text rest : List UInt8},
    rest ∈ t.remainders text → ∀ more, rest ++ more ∈ t.remainders (text ++ more)
  | .literal c, text, rest, h, more => by
    rw [Token.remainders, Option.mem_toList] at h ⊢
    exact stripStart_append h
  | .any, [], _, h, _ => by simp [Token.remainders] at h
  | .any, b :: bs, rest, h, more => by
    simp only [Token.remainders, List.cons_append] at h ⊢
    split at h
    · cases h
    · next hb =>
      rw [if_neg hb, List.mem_singleton.mp h]
      exact List.mem_singleton.mpr rfl
  | .zeroOrMore, text, rest, h, more => by
    rw [Token.remainders] at h ⊢
    exact mem_withoutSlash_append h
  | .recursiveStart, text, rest, h, more => by
    rw [Token.remainders] at h ⊢
    rcases List.mem_cons.mp h with rfl | h
    · exact List.mem_cons_self
    · exact List.mem_cons_of_mem _ (mem_afterSlashes_append h)
  | .recursiveEnd, [], _, h, _ => by simp [Token.remainders] at h
  | .recursiveEnd, b :: bs, rest, h, more => by
    simp only [Token.remainders, List.cons_append] at h ⊢
    split at h
    · next hb => rw [if_pos hb]; exact mem_suffixes_append h
    · cases h
  | .recursiveMiddle, [], _, h, _ => by simp [Token.remainders] at h
  | .recursiveMiddle, b :: bs, rest, h, more => by
    simp only [Token.remainders, List.cons_append] at h ⊢
    split at h
    · next hb =>
      rw [if_pos hb]
      rcases List.mem_cons.mp h with rfl | h
      · exact List.mem_cons_self
      · exact List.mem_cons_of_mem _ (mem_afterSlashes_append h)
    · cases h
  | .byteClass _ _, [], _, h, _ => by simp [Token.remainders] at h
  | .byteClass negated ranges, b :: bs, rest, h, more => by
    simp only [Token.remainders, List.cons_append] at h ⊢
    split at h
    · cases h
    · next hb =>
      rw [if_neg hb, List.mem_singleton.mp h]
      exact List.mem_singleton.mpr rfl
  | .alternates branches, text, rest, h, more => by
    rw [Token.remainders] at h ⊢
    split at h
    · next hvoid =>
      rw [if_pos hvoid, List.mem_singleton.mp h]
      exact List.mem_singleton.mpr rfl
    · next hvoid => rw [if_neg hvoid]; exact mem_branchRemainders_extend branches h more

/-- The same for a pattern. -/
theorem mem_remainders_extend : (ts : List Token) → ∀ {text rest : List UInt8},
    rest ∈ remainders ts [text] → ∀ more, rest ++ more ∈ remainders ts [text ++ more]
  | [], text, rest, h, more => by
    rw [remainders] at h ⊢
    rw [List.mem_singleton.mp h]
    exact List.mem_singleton.mpr rfl
  | t :: ts, text, rest, h, more => by
    obtain ⟨next, hnext, hrest⟩ := mem_remainders.mp (mem_remainders_cons.mp h)
    rw [List.mem_eraseDups, List.flatMap_singleton] at hnext
    refine mem_remainders_cons.mpr (mem_remainders.mpr
      ⟨next ++ more, ?_, mem_remainders_extend ts hrest more⟩)
    rw [List.mem_eraseDups, List.flatMap_singleton]
    exact t.mem_remainders_extend hnext more

/-- The same for alternatives. -/
theorem mem_branchRemainders_extend : (branches : List (List Token)) → ∀ {text rest : List UInt8},
    rest ∈ branchRemainders branches text →
      ∀ more, rest ++ more ∈ branchRemainders branches (text ++ more)
  | [], text, rest, h, more => by simp [branchRemainders] at h
  | p :: ps, text, rest, h, more => by
    rw [branchRemainders, List.mem_append] at h ⊢
    rcases h with h | h
    · left
      split at h
      · cases h
      · next hvoid => rw [if_neg hvoid]; exact mem_remainders_extend p h more
    · exact .inr (mem_branchRemainders_extend ps h more)

end

/-! ### Reading a glob with everything below -/

/-- The end of a pattern that matches everything below a folder. -/
def below : List Char := ['/', '*', '*']

namespace Draft

/-- The draft after everything below a folder was read. -/
def enter (d : Draft) : Draft := { d.push .recursiveEnd with previous := some '*' }

/-- The innermost branch ends with two stars as a whole component. -/
def EndsInStars (d : Draft) : Prop :=
  ∀ b bs, d.branches = b :: bs → ∃ b', b = .recursiveStart :: b' ∨ b = .recursiveEnd :: b'

/-- Leading folders are only read at the start of a branch. -/
def Placed (branches : List (List Token)) : Prop := ∀ b, (.recursiveStart :: b) ∈ branches → b = []

end Draft

open Draft

variable {d : Draft}

theorem readTokens_below (d : Draft) : readTokens d below = some d.enter := by
  obtain ⟨previous, branches, opened⟩ := d
  cases branches <;>
    simp [below, readTokens, readStars, enter, push, isFresh, replaceLast]

/-- How the draft of a glob and that of everything below it are related. -/
inductive Below (d : Draft) (glob : List Char) : Prop
  /-- What is added is read after the glob. -/
  | after (h : readTokens d (glob ++ below) = (readTokens d glob).map enter)
  /-- The glob ends with two stars as a whole component, which stand for everything below already. -/
  | stars {e : Draft} (read : readTokens d glob = some e)
      (more : readTokens d (glob ++ below) = some e) (ends : e.EndsInStars)
  /-- A backslash at the end of the glob takes the slash that is added. -/
  | escaped {e : Draft} (read : readTokens d glob = none)
      (more : readTokens d (glob ++ below) = some e.enter)

theorem Below.step {d d' : Draft} {glob rest : List Char} (h : readTokens d glob = readTokens d' rest)
    (hmore : readTokens d (glob ++ below) = readTokens d' (rest ++ below)) (hrest : Below d' rest) :
    Below d glob := by
  cases hrest with
  | after hrest => exact .after (by rw [hmore, h, hrest])
  | stars read more ends => exact .stars (h.trans read) (hmore.trans more) ends
  | escaped read more => exact .escaped (h.trans read) (hmore.trans more)

theorem readStars_append (d : Draft) (before : Option Char) {after : List Char} (h : after ≠ [])
    (more : List Char) : readStars d before (after ++ more) =
      ((readStars d before after).1, (readStars d before after).2 ++ more) := by
  obtain ⟨c, cs, rfl⟩ := List.exists_cons_of_ne_nil h
  rw [List.cons_append]
  unfold readStars
  dsimp only
  by_cases hc : c = '/'
  · subst hc
    split
    · rfl
    · split <;> rfl
  · split
    · simp [hc]
    · split
      · rfl
      · simp only
        split <;> rfl

theorem readTokens_stars (d : Draft) (cs : List Char) : readTokens d ('*' :: '*' :: cs) =
    readTokens (readStars { d with previous := some '*' } d.previous cs).1
      (readStars { d with previous := some '*' } d.previous cs).2 := by
  rw [readTokens]

/-- Two stars after `before` start a component. -/
def Draft.isApart (d : Draft) (before : Option Char) : Bool :=
  before = some '/' || (d.isNested && (before = some ',' || before = some '\x7b'))

/-- A token in place of the last one, unless that stands for any folders itself. -/
def keepFolders (last : Token) : Token → Token
  | .recursiveStart => .recursiveStart
  | .recursiveEnd => .recursiveEnd
  | _ => last

theorem readStars_fresh (before : Option Char) (after : List Char) (h : d.isFresh) :
    readStars d before [] = (d.push .recursiveStart, []) ∧
    readStars d before ('/' :: after) =
      ({ d.push .recursiveStart with previous := some '/' }, after) := by
  simp [readStars, h]

section

variable {before : Option Char} (after : List Char)

theorem readStars_apart (hfresh : d.isFresh = false) (h : d.isApart before = true) :
    readStars d before [] = (d.replaceLast (keepFolders .recursiveEnd), []) ∧
    readStars d before ('/' :: after) =
      ({ d.replaceLast (keepFolders .recursiveMiddle) with previous := some '/' }, after) := by
  have hcond : (!decide (before = some '/') &&
      !(d.isNested && (decide (before = some ',') || decide (before = some '\x7b')))) = false := by
    rwa [isApart, ← Bool.not_eq_false', Bool.not_or] at h
  rw [readStars, readStars, hfresh, hcond]
  exact ⟨rfl, rfl⟩

theorem readStars_plain (hfresh : d.isFresh = false) (h : d.isApart before = false) :
    readStars d before after = ((d.push .zeroOrMore).push .zeroOrMore, after) := by
  have hcond : (!decide (before = some '/') &&
      !(d.isNested && (decide (before = some ',') || decide (before = some '\x7b')))) = true := by
    rwa [isApart, ← Bool.not_eq_true', Bool.not_or] at h
  unfold readStars
  dsimp only
  rw [hfresh, hcond]
  rfl

end

theorem keepFolders_keepFolders (last last' t : Token) (h : keepFolders last last' = last) :
    keepFolders last (keepFolders last' t) = keepFolders last t := by
  cases t <;> first | rfl | exact h

/-- Two stars at the end are a whole component, which stands for everything below too, or two single
stars. -/
theorem below_stars (d : Draft) : Below d ['*', '*'] := by
  obtain ⟨previous, branches, opened⟩ := d
  match branches with
  | [] =>
    have hfresh : isFresh ⟨some '*', [], opened⟩ = true := rfl
    obtain ⟨hend, hslash⟩ := readStars_fresh previous ['*', '*'] hfresh
    refine .stars (e := ⟨some '*', [], opened⟩) ?_ ?_ nofun
    · rw [readTokens_stars, hend, readTokens]
      rfl
    · rw [List.cons_append, List.cons_append, List.nil_append, below, readTokens_stars, hslash,
        readTokens_stars, (readStars_fresh _ [] rfl).1, readTokens]
      rfl
  | [] :: bs =>
    have hfresh : isFresh ⟨some '*', [] :: bs, opened⟩ = true := rfl
    obtain ⟨hend, hslash⟩ := readStars_fresh previous ['*', '*'] hfresh
    refine .stars (e := ⟨some '*', [.recursiveStart] :: bs, opened⟩) ?_ ?_ ?_
    · rw [readTokens_stars, hend, readTokens]
      rfl
    · rw [List.cons_append, List.cons_append, List.nil_append, below, readTokens_stars, hslash,
        readTokens_stars, (readStars_apart [] rfl rfl).1, readTokens]
      rfl
    · rintro _ _ ⟨⟩
      exact ⟨[], .inl rfl⟩
  | (t :: b) :: bs =>
    have hfresh : isFresh ⟨some '*', (t :: b) :: bs, opened⟩ = false := rfl
    cases h : isApart ⟨some '*', (t :: b) :: bs, opened⟩ previous with
    | true =>
      obtain ⟨hend, hslash⟩ := readStars_apart ['*', '*'] hfresh h
      refine .stars (e := ⟨some '*', (keepFolders .recursiveEnd t :: b) :: bs, opened⟩) ?_ ?_ ?_
      · rw [readTokens_stars, hend, readTokens]
        rfl
      · rw [List.cons_append, List.cons_append, List.nil_append, below, readTokens_stars, hslash,
          readTokens_stars, (readStars_apart [] rfl rfl).1, readTokens,
          ← keepFolders_keepFolders .recursiveEnd .recursiveMiddle t rfl]
        rfl
      · rintro _ _ ⟨⟩
        refine ⟨b, ?_⟩
        cases t <;> simp [keepFolders]
    | false =>
      refine .after ?_
      rw [List.cons_append, List.cons_append, List.nil_append, readTokens_stars, readTokens_stars,
        readStars_plain _ hfresh h, readStars_plain _ hfresh h, readTokens_below, readTokens]
      rfl

/-- A class that is not closed is not read. -/
theorem readClass_eq_none {isFirst inRange : Bool} {ranges : List (Char × Char)} {cs : List Char}
    (h : ']' ∉ cs) : readClass isFirst inRange ranges cs = none := by
  induction cs generalizing isFirst inRange ranges with
  | nil => rw [readClass]
  | cons c cs ih =>
    obtain ⟨hc, hcs⟩ := List.ne_and_not_mem_of_not_mem_cons h
    simp only [readClass, if_neg (Ne.symm hc)]
    split
    · exact ih hcs
    · split
      · split
        · rfl
        · split
          · rfl
          · exact ih hcs
      · exact ih hcs

theorem readClass_append (isFirst inRange : Bool) (ranges : List (Char × Char)) (cs : List Char) :
    readClass isFirst inRange ranges (cs ++ below) =
      (readClass isFirst inRange ranges cs).map fun (out, rest) ↦ (out, rest ++ below) := by
  induction cs generalizing isFirst inRange ranges with
  | nil =>
    rw [List.nil_append, readClass_eq_none (by decide), readClass_eq_none List.not_mem_nil]
    rfl
  | cons c cs ih =>
    simp only [List.cons_append, readClass]
    split
    · split
      · exact ih ..
      · rfl
    · split
      · exact ih ..
      · split
        · split
          · rfl
          · split
            · rfl
            · exact ih ..
        · exact ih ..

/-- Whether the class that follows is negated. -/
def isNegated (cs : List Char) : Bool := cs.head? = some '!' || cs.head? = some '^'

/-- The items of the class that follows, with the rest of the pattern. -/
def classItems (cs : List Char) : List Char := if isNegated cs then cs.tail else cs

theorem isNegated_append (cs : List Char) : isNegated (cs ++ below) = isNegated cs := by
  cases cs <;> rfl

theorem classItems_append (cs : List Char) : classItems (cs ++ below) = classItems cs ++ below := by
  rw [classItems, classItems, isNegated_append]
  cases cs with
  | nil => rfl
  | cons c cs => split <;> rfl

theorem readTokens_unclosed {cs : List Char} (d : Draft)
    (h : readClass true false [] (classItems cs) = none) : readTokens d ('[' :: cs) = none := by
  rw [readTokens.eq_5]
  split
  · rfl
  · next hread => exact absurd (h.symm.trans hread) (Option.some_ne_none _).symm

theorem readTokens_class {cs rest : List Char} {ranges : List (Char × Char)} (d : Draft)
    (h : readClass true false [] (classItems cs) = some (ranges, rest)) :
    readTokens d ('[' :: cs) = readTokens
      { d.push (.byteClass (isNegated cs) (ranges.flatMap fun (lo, hi) ↦ byteRanges lo hi)) with
        previous := some ']' } rest := by
  rw [readTokens.eq_5]
  split
  · next hread => exact absurd (h.symm.trans hread) (Option.some_ne_none _)
  · next hread =>
    obtain ⟨rfl, rfl⟩ := Prod.mk.inj (Option.some.inj (h.symm.trans hread))
    rfl

/-- How a glob is read tells how everything below it is read. -/
theorem below_readTokens (d : Draft) (glob : List Char) : Below d glob := by
  induction d, glob using readTokens.induct with
  | case1 d => exact .after (by rw [List.nil_append, readTokens_below, readTokens, Option.map_some])
  | case2 d cs ih => exact .step (readTokens.eq_2 ..) (readTokens.eq_2 ..) ih
  | case3 d cs d' rest hread hle ih =>
    by_cases hcs : cs = []
    · subst hcs
      exact below_stars d
    · have hglob : readTokens d ('*' :: '*' :: cs) = readTokens d' rest := by
        rw [readTokens_stars, hread]
      refine .step hglob ?_ ih
      rw [List.cons_append, List.cons_append, readTokens_stars, readStars_append _ _ hcs, hread]
  | case4 d cs hcs ih =>
    refine .step (readTokens.eq_4 _ _ hcs) (readTokens.eq_4 _ _ fun cs' h ↦ ?_) ih
    cases cs with
    | nil => cases h
    | cons c cs => exact hcs cs (by rw [(List.cons.inj h).1])
  | case5 d cs negated hclass =>
    refine .after ?_
    rw [List.cons_append, readTokens_unclosed d hclass, readTokens_unclosed d, Option.map_none]
    rw [classItems_append, readClass_append]
    exact congrArg _ hclass
  | case6 d cs negated ranges rest hclass hlt ih =>
    have hmore : readClass true false [] (classItems (cs ++ below)) = some (ranges, rest ++ below) := by
      rw [classItems_append, readClass_append]
      exact congrArg _ hclass
    refine .step (readTokens_class d hclass) ?_ ih
    rw [List.cons_append, readTokens_class d hmore, isNegated_append]
  | case7 d cs ih => exact .step (readTokens.eq_6 ..) (readTokens.eq_6 ..) ih
  | case8 d cs hclose =>
    refine .after ?_
    rw [List.cons_append, readTokens, readTokens, hclose]
    rfl
  | case9 d cs d' hclose ih =>
    refine .step ?_ ?_ ih
    · rw [readTokens, hclose]
    · rw [List.cons_append, readTokens, hclose]
  | case10 d cs hopened ih =>
    refine .step ?_ ?_ ih
    · rw [readTokens, if_pos hopened]
    · rw [List.cons_append, readTokens, if_pos hopened]
  | case11 d cs hopened ih =>
    refine .step ?_ ?_ ih
    · rw [readTokens, if_neg hopened]
    · rw [List.cons_append, readTokens, if_neg hopened]
  | case12 d =>
    have hslash : readTokens d ('\\' :: below) = readTokens d below := by
      simp [below, readTokens]
    exact .escaped (e := d) (readTokens.eq_9 d) (hslash.trans (readTokens_below d))
  | case13 d c cs ih => exact .step (readTokens.eq_10 ..) (readTokens.eq_10 ..) ih
  | case14 d c cs h₁ h₂ h₃ h₄ h₅ h₆ h₇ h₈ h₉ ih =>
    have hc : c ≠ '\\' := by
      cases cs with
      | nil => exact fun hc ↦ h₈ hc rfl
      | cons c' cs => exact fun hc ↦ h₉ c' cs hc rfl
    exact .step (readTokens.eq_11 _ _ _ h₁ h₂ h₃ h₄ h₅ h₆ h₇ h₈ h₉)
      (readTokens.eq_11 _ _ _ h₁ (fun _ h _ ↦ h₃ h) h₃ h₄ h₅ h₆ h₇ (fun h _ ↦ hc h)
        fun _ _ h _ ↦ hc h) ih

/-! ### Leading folders -/

namespace Draft.Placed

theorem cons {b : List Token} {bs : List (List Token)} (h : Placed bs)
    (hb : ∀ b', b = .recursiveStart :: b' → b' = []) : Placed (b :: bs) := by
  intro b' hb'
  rcases List.mem_cons.mp hb' with rfl | hb'
  · exact hb b' rfl
  · exact h b' hb'

theorem tail {b : List Token} {bs : List (List Token)} (h : Placed (b :: bs)) : Placed bs :=
  fun b' hb' ↦ h b' (List.mem_cons_of_mem _ hb')

theorem push (h : Placed d.branches) (ht : t ≠ .recursiveStart) : Placed (d.push t).branches := by
  obtain ⟨previous, branches, opened⟩ := d
  cases branches with
  | nil => exact h
  | cons b bs => exact h.tail.cons fun b' hb' ↦ absurd (List.cons.inj hb').1 ht

theorem pushStart (h : Placed d.branches) (hfresh : d.isFresh) :
    Placed (d.push .recursiveStart).branches := by
  obtain ⟨previous, branches, opened⟩ := d
  match branches with
  | [] => exact h
  | [] :: bs => exact h.tail.cons fun b' hb' ↦ (List.cons.inj hb').2.symm

theorem replaceLast (h : Placed d.branches) {last : Token} (hlast : last ≠ .recursiveStart) :
    Placed (d.replaceLast (keepFolders last)).branches := by
  obtain ⟨previous, branches, opened⟩ := d
  match branches with
  | [] => exact h
  | [] :: bs => exact h
  | (t :: b) :: bs =>
    refine h.tail.cons fun b' hb' ↦ ?_
    obtain ⟨ht, rfl⟩ := List.cons.inj hb'
    cases t with
    | recursiveStart => exact h _ List.mem_cons_self
    | recursiveEnd => cases ht
    | _ => exact absurd ht hlast

theorem close {d' : Draft} (h : Placed d.branches) (hclose : d.close = some d') :
    Placed d'.branches := by
  unfold Draft.close at hclose
  split at hclose
  · cases hclose
  · next count opened hopened =>
    obtain rfl := Option.some.inj hclose
    refine Placed.push (fun b hb ↦ h b (List.mem_of_mem_drop hb)) ?_
    exact Token.noConfusion

theorem readStars (h : Placed d.branches) (before : Option Char) (after : List Char) :
    Placed (readStars d before after).1.branches := by
  have hplain : Placed ((d.push .zeroOrMore).push .zeroOrMore).branches :=
    (h.push Token.noConfusion).push Token.noConfusion
  unfold Glob.readStars
  dsimp only
  split
  · next hfresh =>
    split
    · exact h.pushStart hfresh
    · exact h.pushStart hfresh
    · exact hplain
  · split
    · exact hplain
    · split
      · exact h.replaceLast Token.noConfusion
      · exact h.replaceLast Token.noConfusion
      · split
        · exact h.replaceLast Token.noConfusion
        · exact hplain

theorem readTokens {cs : List Char} {d' : Draft} (h : Placed d.branches)
    (hread : readTokens d cs = some d') : Placed d'.branches := by
  induction d, cs using readTokens.induct with
  | case1 d =>
    rw [Glob.readTokens] at hread
    exact Option.some.inj hread ▸ h
  | case2 d cs ih =>
    rw [readTokens.eq_2] at hread
    exact ih (h.push Token.noConfusion) hread
  | case3 d cs d₁ rest hstars hle ih =>
    rw [readTokens_stars, hstars] at hread
    have hplaced := Placed.readStars (d := { d with previous := some '*' }) h d.previous cs
    rw [hstars] at hplaced
    exact ih hplaced hread
  | case4 d cs hcs ih =>
    rw [readTokens.eq_4 _ _ hcs] at hread
    exact ih (h.push Token.noConfusion) hread
  | case5 d cs negated hclass =>
    rw [readTokens_unclosed d hclass] at hread
    cases hread
  | case6 d cs negated ranges rest hclass hlt ih =>
    rw [readTokens_class d hclass] at hread
    exact ih (h.push Token.noConfusion) hread
  | case7 d cs ih =>
    rw [readTokens.eq_6] at hread
    exact ih (h.cons nofun) hread
  | case8 d cs hclose =>
    rw [readTokens.eq_7, hclose] at hread
    cases hread
  | case9 d cs d₁ hclose ih =>
    rw [readTokens.eq_7, hclose] at hread
    have hplaced : Placed d₁.branches := h.close hclose
    exact ih hplaced hread
  | case10 d cs hopened ih =>
    rw [readTokens.eq_8, if_pos hopened] at hread
    exact ih (h.push Token.noConfusion) hread
  | case11 d cs hopened ih =>
    rw [readTokens.eq_8, if_neg hopened] at hread
    exact ih (h.cons nofun) hread
  | case12 d =>
    rw [readTokens.eq_9] at hread
    cases hread
  | case13 d c cs ih =>
    rw [readTokens.eq_10] at hread
    exact ih (h.push Token.noConfusion) hread
  | case14 d c cs h₁ h₂ h₃ h₄ h₅ h₆ h₇ h₈ h₉ ih =>
    rw [readTokens.eq_11 _ _ _ h₁ h₂ h₃ h₄ h₅ h₆ h₇ h₈ h₉] at hread
    exact ih (h.push Token.noConfusion) hread

end Draft.Placed

/-! ### Patterns -/

/-- A pattern that matches everything below what it matches: it ends with two stars as a whole
component. -/
def EndsBelow (ts : List Token) : Prop := ts = [.recursiveStart] ∨ ∃ ts', ts = ts' ++ [.recursiveEnd]

theorem parse?_eq_some {text : List Char} {ts : List Token} : parse? text = some ts ↔
    ∃ previous b, readTokens ⟨none, [[]], []⟩ text = some ⟨previous, [b], []⟩ ∧ ts = b.reverse := by
  unfold parse?
  constructor
  · intro h
    split at h
    · next previous b hread => exact ⟨previous, b, hread, (Option.some.inj h).symm⟩
    · cases h
  · rintro ⟨previous, b, hread, rfl⟩
    rw [hread]

theorem endsBelow_of_endsInStars {previous : Option Char} {b : List Token} {opened : List Nat}
    (hplaced : Placed [b]) (h : EndsInStars ⟨previous, [b], opened⟩) : EndsBelow b.reverse := by
  obtain ⟨b', rfl | rfl⟩ := h b [] rfl
  · rw [hplaced b' (List.mem_singleton.mpr rfl)]
    exact .inl rfl
  · exact .inr ⟨b'.reverse, List.reverse_cons⟩

theorem placed_start : Placed [[]] := by
  intro b hb
  cases List.mem_singleton.mp hb

/-- The pattern of everything below a folder. -/
theorem endsBelow_of_parse?_below {glob : List Char} {ts : List Token}
    (h : parse? (glob ++ below) = some ts) : EndsBelow ts := by
  obtain ⟨previous, b, hread, rfl⟩ := parse?_eq_some.mp h
  have henter : ∀ d' : Draft, ⟨previous, [b], []⟩ = d'.enter → EndsBelow b.reverse := by
    rintro ⟨previous', branches, opened⟩ he
    match branches with
    | [] => cases he
    | b' :: bs =>
      cases he
      exact .inr ⟨b'.reverse, List.reverse_cons⟩
  cases below_readTokens ⟨none, [[]], []⟩ glob with
  | after hmore =>
    obtain ⟨d', -, hd'⟩ := Option.map_eq_some_iff.mp (hmore.symm.trans hread)
    exact henter d' hd'.symm
  | stars _ more ends =>
    obtain rfl := Option.some.inj (more.symm.trans hread)
    exact endsBelow_of_endsInStars (placed_start.readTokens hread) ends
  | escaped _ more => exact henter _ (Option.some.inj (hread.symm.trans more))

/-- The pattern of a folder either matches everything below it or is continued by two stars. -/
theorem parse?_below {glob : List Char} {ts : List Token} (h : parse? glob = some ts) :
    EndsBelow ts ∨ parse? (glob ++ below) = some (ts ++ [.recursiveEnd]) := by
  obtain ⟨previous, b, hread, rfl⟩ := parse?_eq_some.mp h
  cases below_readTokens ⟨none, [[]], []⟩ glob with
  | after hmore =>
    refine .inr (parse?_eq_some.mpr ⟨some '*', .recursiveEnd :: b, ?_, List.reverse_cons.symm⟩)
    rw [hmore, hread]
    rfl
  | stars read _ ends =>
    obtain rfl := Option.some.inj (read.symm.trans hread)
    exact .inl (endsBelow_of_endsInStars (placed_start.readTokens hread) ends)
  | escaped read _ => cases read.symm.trans hread

/-! ### Matching below a folder -/

theorem isMatch_iff (h : ts ≠ [.recursiveStart]) : isMatch ts text ↔ [] ∈ remainders ts [text] := by
  have heq : isMatch ts text = (remainders ts [text]).any List.isEmpty := by
    unfold isMatch
    split
    · exact absurd rfl h
    · rfl
  rw [heq, List.any_eq_true]
  constructor
  · rintro ⟨rest, hrest, hempty⟩
    exact List.isEmpty_iff.mp hempty ▸ hrest
  · exact fun hrest ↦ ⟨[], hrest, rfl⟩

private theorem append_recursiveEnd_ne (ts : List Token) : ts ++ [.recursiveEnd] ≠ [.recursiveStart] := by
  intro h
  have hlast := congrArg List.getLast? h
  rw [List.getLast?_concat] at hlast
  cases hlast

/-- Everything below: what remains of a text is a slash and more. -/
theorem isMatch_recursiveEnd : isMatch (ts ++ [.recursiveEnd]) text ↔
    ∃ rest, slash :: rest ∈ remainders ts [text] := by
  rw [isMatch_iff (append_recursiveEnd_ne ts), mem_remainders_append]
  constructor
  · rintro ⟨middle, hmiddle, hend⟩
    rw [mem_remainders_cons, mem_remainders_nil, List.mem_eraseDups, List.flatMap_singleton] at hend
    cases middle with
    | nil => simp [Token.remainders] at hend
    | cons b bs =>
      simp only [Token.remainders] at hend
      split at hend
      · next hb => exact ⟨bs, hb ▸ hmiddle⟩
      · cases hend
  · rintro ⟨rest, hrest⟩
    refine ⟨slash :: rest, hrest, ?_⟩
    rw [mem_remainders_cons, mem_remainders_nil, List.mem_eraseDups, List.flatMap_singleton]
    simp only [Token.remainders, if_pos]
    exact nil_mem_suffixes rest

/-- A pattern of everything below a folder extends to longer texts. -/
theorem isMatch_of_endsBelow (h : EndsBelow ts) (hmatch : isMatch ts text) (more : List UInt8) :
    isMatch ts (text ++ more) := by
  obtain rfl | ⟨ts', rfl⟩ := h
  · rfl
  · obtain ⟨rest, hrest⟩ := isMatch_recursiveEnd.mp hmatch
    exact isMatch_recursiveEnd.mpr ⟨rest ++ more, mem_remainders_extend ts' hrest more⟩

/-- What a pattern matches is matched with anything below it if two stars continue the pattern. -/
theorem isMatch_below (h : isMatch ts text) (hts : ts ≠ [.recursiveStart]) (more : List UInt8) :
    isMatch (ts ++ [.recursiveEnd]) (text ++ slash :: more) :=
  isMatch_recursiveEnd.mpr
    ⟨more, mem_remainders_extend ts ((isMatch_iff hts).mp h) (slash :: more)⟩

end Buildpath.Glob
