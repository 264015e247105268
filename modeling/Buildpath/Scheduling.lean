/-!
# Scheduling rules

The rules that an operation holds while it runs. A rule may be held several times over; it is free
again when every guard that holds it was dropped, in whatever order.
-/

namespace Buildpath

/-- What an operation locks: the external folders or one project. -/
inductive Rule where
  | externalFolders
  | project (name : String)
deriving DecidableEq, Repr, Inhabited

/-- The text of a rule. -/
protected def Rule.toString : Rule → String
  | externalFolders => "external-folders"
  | project name => "project:" ++ name

instance : ToString Rule := ⟨Rule.toString⟩

/-- The order of rules: the external folders first, then projects by name. -/
def Rule.le : Rule → Rule → Bool
  | externalFolders, _ => true
  | project _, externalFolders => false
  | project a, project b => a ≤ b

/-- The rules that are held, each with the number of guards that hold it. -/
structure HeldRules where
  counts : List (Rule × Nat) := []
deriving Inhabited

/-- What was acquired together: each rule once. -/
structure Guard where
  rules : List Rule
deriving DecidableEq, Inhabited

namespace HeldRules

/-- How often a rule is held. -/
def count (h : HeldRules) (rule : Rule) : Nat := (h.counts.lookup rule).getD 0

/-- Whether a rule is held. -/
def isHeld (h : HeldRules) (rule : Rule) : Bool := h.counts.any (·.1 = rule)

/-- The counts with one more for a rule. -/
def increase (rule : Rule) : List (Rule × Nat) → List (Rule × Nat)
  | [] => [(rule, 1)]
  | (r, n) :: counts => if r = rule then (r, n + 1) :: counts else (r, n) :: increase rule counts

/-- The counts with one less for a rule; a rule at zero leaves the list. -/
def decrease (rule : Rule) : List (Rule × Nat) → List (Rule × Nat)
  | [] => []
  | (r, n) :: counts =>
    if r = rule then if n - 1 = 0 then counts else (r, n - 1) :: counts
    else (r, n) :: decrease rule counts

/-- Acquires rules, each once however often it is listed. -/
def acquire (h : HeldRules) (rules : List Rule) : Guard × HeldRules :=
  let wanted := rules.eraseDups
  (⟨wanted⟩, ⟨wanted.foldl (fun counts rule => increase rule counts) h.counts⟩)

/-- Drops a guard. -/
def release (h : HeldRules) (guard : Guard) : HeldRules :=
  ⟨guard.rules.foldl (fun counts rule => decrease rule counts) h.counts⟩

end HeldRules

end Buildpath
