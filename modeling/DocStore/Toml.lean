import DocStore.Assoc

namespace DocStore

-- What a TOML document holds. No setting is a fraction or a date, so only their presence is kept.
inductive Toml where
  | text (s : String)
  | int (n : Int)
  | bool (b : Bool)
  | fraction
  | date
  | list (items : List Toml)
  | table (entries : List (String × Toml))
  deriving BEq, Repr, Inhabited

namespace Toml

-- How a table came into being, which decides what may still be added to it.
inductive TableForm where
  -- named on the way to another table
  | implied
  -- made by a key with dots
  | dotted
  -- with a heading of its own
  | headed
  deriving DecidableEq, Repr

-- An entry of a table that is being put together. A list of tables holds the newest one last.
inductive Node where
  | leaf (v : Toml)
  | table (form : TableForm) (entries : List (String × Node))
  | tables (items : List (List (String × Node)))

abbrev Entries := List (String × Node)

namespace Entries

def get? (entries : Entries) (key : String) : Option Node :=
  (entries.find? (fun e => e.1 == key)).map (·.2)

-- Replaces the entry of a key, or adds it at the end.
def set (entries : Entries) (key : String) (node : Node) : Entries :=
  if (entries.get? key).isSome then entries.map (fun e => if e.1 == key then (key, node) else e)
  else entries ++ [(key, node)]

-- Changes the table at the end of a path of headings. Tables on the way that are missing are
-- implied; a list of tables is entered at its newest one.
def alterAt (change : Entries → Option Entries) : List String → Entries → Option Entries
  | [], entries => change entries
  | key :: path, entries =>
    match entries.get? key with
    | none => do return entries.set key (.table .implied (← alterAt change path []))
    | some (.table form inner) => do
      return entries.set key (.table form (← alterAt change path inner))
    | some (.tables items) =>
      match items.getLast? with
      | some newest => do
        return entries.set key (.tables (items.dropLast ++ [← alterAt change path newest]))
      | none => none
    | some (.leaf _) => none

-- Gives a value to a key with dots. A table that is not itself made by such a key takes no value
-- from one, and a table with a heading is not even entered; `isOpen` tells whether this table may
-- take one.
def assign (value : Toml) (isOpen : Bool) : List String → Entries → Option Entries
  | [], _ => none
  | [key], entries =>
    if isOpen && (entries.get? key).isNone then some (entries.set key (.leaf value)) else none
  | key :: path, entries =>
    match entries.get? key with
    | none => do return entries.set key (.table .dotted (← assign value true path []))
    | some (.table .headed _) => none
    | some (.table form inner) => do
      return entries.set key (.table form (← assign value (form == .dotted) path inner))
    | some (.tables items) =>
      match items.getLast? with
      | some newest => do
        return entries.set key (.tables (items.dropLast ++ [← assign value false path newest]))
      | none => none
    | some (.leaf _) => none

-- Opens a table with a heading. It may have been implied before, but not more.
def openTable (key : String) (entries : Entries) : Option Entries :=
  match entries.get? key with
  | none => some (entries.set key (.table .headed []))
  | some (.table .implied inner) => some (entries.set key (.table .headed inner))
  | _ => none

-- Adds a table to a list of tables.
def appendTable (key : String) (entries : Entries) : Option Entries :=
  match entries.get? key with
  | none => some (entries.set key (.tables [[]]))
  | some (.tables items) => some (entries.set key (.tables (items ++ [[]])))
  | _ => none

end Entries

mutual

def ofNode : Node → Toml
  | .leaf v => v
  | .table _ entries => .table (ofEntries entries)
  | .tables items => .list (ofTables items)

def ofEntries : List (String × Node) → List (String × Toml)
  | [] => []
  | (key, node) :: rest => (key, ofNode node) :: ofEntries rest

def ofTables : List (List (String × Node)) → List Toml
  | [] => []
  | entries :: rest => .table (ofEntries entries) :: ofTables rest

end

end Toml

end DocStore
