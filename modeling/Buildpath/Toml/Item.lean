/-!
# Items of settings files

The values of a settings file in TOML and the tables that headers and dotted keys build up. A table
is defined once: by its header, by the dotted keys of one table, or inline. A table that only headers
below it mention may still get its own header.

Numbers and dates are no settings, so there is no item for them.
-/

namespace Buildpath.Toml

/-- How a table came to be. -/
inductive TableKind where
  /-- By its own header, or as the root. -/
  | headed
  /-- By the header of a table below it. -/
  | implied
  /-- By a dotted key. -/
  | dotted
  /-- Between braces. -/
  | inline
deriving DecidableEq, Repr, Inhabited

/-- An item of a settings file. -/
inductive Item where
  | string (s : String)
  | bool (b : Bool)
  | array (items : List Item)
  | table (kind : TableKind) (members : List (String × Item))
  /-- The tables of one repeated header, the last one first. -/
  | tables (tables : List (List (String × Item)))
deriving Inhabited

/-- Why a text is not a settings file. -/
inductive TomlError where
  | malformed
  | duplicateKey (key : String)
  | notATable (key : String)
deriving DecidableEq, Repr, Inhabited

/-- The members of a table. -/
abbrev Members := List (String × Item)

/-- Puts an item under a key, in place of the one that was there. -/
def setMember (key : String) (item : Item) : Members → Members
  | [] => [(key, item)]
  | (k, i) :: members =>
    if k = key then (k, item) :: members else (k, i) :: setMember key item members

/-- A table with its kind. -/
structure Table where
  kind : TableKind
  members : Members
deriving Inhabited

/-- Changes the table at the end of a path. Missing tables on the way get the kind `fresh`; a path of
dotted keys enters no table that has a header, and no path enters an inline table. In a repeated
header the last table counts. -/
def Table.descend (fresh : TableKind) (change : Table → Except TomlError Table) :
    List String → Table → Except TomlError Table
  | [], t => change t
  | key :: path, t =>
    match t.members.lookup key with
    | none => do
      let inner ← descend fresh change path ⟨fresh, []⟩
      pure { t with members := setMember key (.table inner.kind inner.members) t.members }
    | some (.table kind members) =>
      if kind = .inline then .error (.notATable key)
      else if fresh = .dotted && kind = .headed then .error (.duplicateKey key)
      else do
        let inner ← descend fresh change path ⟨kind, members⟩
        pure { t with members := setMember key (.table inner.kind inner.members) t.members }
    | some (.tables (last :: before)) => do
      let inner ← descend fresh change path ⟨.headed, last⟩
      pure { t with members := setMember key (.tables (inner.members :: before)) t.members }
    | some _ => .error (.notATable key)

/-- The table with one more member, whose key is new. -/
def Table.add (t : Table) (key : String) (item : Item) : Except TomlError Table :=
  if (t.members.lookup key).isSome then .error (.duplicateKey key)
  else .ok { t with members := t.members ++ [(key, item)] }

/-- Adds the value of a key that dots may precede. The dots have to end in a table that dotted keys
alone built. -/
def Table.addKey (t : Table) (path : List String) (key : String) (item : Item) :
    Except TomlError Table :=
  t.descend .dotted
    (fun inner =>
      if path.isEmpty || inner.kind = .dotted then inner.add key item
      else .error (.duplicateKey key))
    path

/-- Opens the table of a header. -/
def Table.openHeader (t : Table) (path : List String) (key : String) : Except TomlError Table :=
  t.descend .implied
    (fun parent =>
      match parent.members.lookup key with
      | none => .ok { parent with members := parent.members ++ [(key, .table .headed [])] }
      | some (.table .implied members) =>
        .ok { parent with members := setMember key (.table .headed members) parent.members }
      | some _ => .error (.duplicateKey key))
    path

/-- Opens one more table of a repeated header. -/
def Table.openRepeated (t : Table) (path : List String) (key : String) : Except TomlError Table :=
  t.descend .implied
    (fun parent =>
      match parent.members.lookup key with
      | none => .ok { parent with members := parent.members ++ [(key, .tables [[]])] }
      | some (.tables before) =>
        .ok { parent with members := setMember key (.tables ([] :: before)) parent.members }
      | some _ => .error (.duplicateKey key))
    path

end Buildpath.Toml
