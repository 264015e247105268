/-!
# Splitting and joining at a separator

A text and its fields between the occurrences of one separator character. Splitting never yields an
empty list, a separator ends one field and starts another one (`splitOn_append`), joining undoes splitting
(`joinWith_splitOn`), and no field holds the separator (`not_mem_of_mem_splitOn`).
-/

namespace Buildpath.Text

/-- The fields between the occurrences of `sep`; a text without it is one field. -/
def splitOn (sep : Char) : List Char → List (List Char)
  | [] => [[]]
  | c :: cs =>
    if c = sep then [] :: splitOn sep cs
    else
      match splitOn sep cs with
      | [] => [[c]]
      | field :: fields => (c :: field) :: fields

/-- The fields one after another with `sep` between them. -/
def joinWith (sep : Char) : List (List Char) → List Char
  | [] => []
  | [field] => field
  | field :: fields => field ++ sep :: joinWith sep fields

theorem splitOn_ne_nil (sep : Char) (cs : List Char) : splitOn sep cs ≠ [] := by
  cases cs with
  | nil => simp [splitOn]
  | cons c cs =>
    simp only [splitOn]
    split
    · simp
    · split <;> simp

/-- Joining the fields of a text gives the text. -/
theorem joinWith_splitOn (sep : Char) (cs : List Char) : joinWith sep (splitOn sep cs) = cs := by
  induction cs with
  | nil => rfl
  | cons c cs ih =>
    simp only [splitOn]
    split
    · rename_i h
      cases hs : splitOn sep cs with
      | nil => exact absurd hs (splitOn_ne_nil sep cs)
      | cons field fields => rw [hs] at ih; simp [joinWith, ih, h]
    · cases hs : splitOn sep cs with
      | nil => exact absurd hs (splitOn_ne_nil sep cs)
      | cons field fields =>
        rw [hs] at ih
        cases fields with
        | nil => simpa [joinWith] using ih
        | cons f fs => simpa [joinWith] using ih

/-- A text without the separator is its only field. -/
theorem splitOn_of_not_mem {sep : Char} {field : List Char} (h : sep ∉ field) :
    splitOn sep field = [field] := by
  induction field with
  | nil => rfl
  | cons c field ih =>
    rw [List.mem_cons, not_or] at h
    rw [splitOn, if_neg (Ne.symm h.1), ih h.2]

/-- A separator ends one field and starts another one. -/
theorem splitOn_append (sep : Char) (start rest : List Char) :
    splitOn sep (start ++ sep :: rest) = splitOn sep start ++ splitOn sep rest := by
  induction start with
  | nil => simp [splitOn]
  | cons c start ih =>
    rw [List.cons_append, splitOn, splitOn, ih]
    split
    · rfl
    · cases hs : splitOn sep start with
      | nil => exact absurd hs (splitOn_ne_nil sep start)
      | cons field fields => rfl

/-- What stands before the first separator is the first field. -/
theorem splitOn_cons_of_not_mem {sep : Char} {field : List Char} (h : sep ∉ field)
    (rest : List Char) : splitOn sep (field ++ sep :: rest) = field :: splitOn sep rest := by
  rw [splitOn_append, splitOn_of_not_mem h, List.singleton_append]

/-- No field holds the separator. -/
theorem not_mem_of_mem_splitOn {sep : Char} {cs field : List Char} (h : field ∈ splitOn sep cs) :
    sep ∉ field := by
  induction cs generalizing field with
  | nil => simp_all [splitOn]
  | cons c cs ih =>
    simp only [splitOn] at h
    split at h
    · rcases List.mem_cons.1 h with rfl | h
      · simp
      · exact ih h
    · rename_i hc
      cases hs : splitOn sep cs with
      | nil => exact absurd hs (splitOn_ne_nil sep cs)
      | cons f fs =>
        rw [hs] at h
        rcases List.mem_cons.1 h with rfl | h
        · have : sep ∉ f := ih (by simp [hs])
          simp [this, Ne.symm hc]
        · exact ih (by simp [hs, h])

end Buildpath.Text
