import Motif.Dict

/-!
# TOML documents

A document is a table. Its tables come to be in four ways, and how a table came to be decides what
may still be added to it: a table under a header takes keys until the next header, a table that only
stands on the way to another one may still get a header of its own, a table made by dotted keys
takes further dotted keys, and an inline table is complete as written.

Every function here that adds to a document answers `none` where the format forbids the addition.
-/

namespace Motif

/-- How a table came to be. -/
inductive Toml.Origin where
  /-- By a header of its own. -/
  | header
  /-- By the header of a table inside it. -/
  | implied
  /-- By a dotted key. -/
  | dotted
  /-- Written as a value. -/
  | inline
  deriving Repr, DecidableEq, Inhabited

inductive Toml where
  | string (text : String)
  | integer (n : Int)
  /-- A number with a fraction or an exponent, in its spelling. -/
  | float (spelling : String)
  | boolean (b : Bool)
  /-- A date, a time or both, in its spelling. -/
  | datetime (spelling : String)
  | array (items : List Toml)
  | table (origin : Toml.Origin) (entries : List (String × Toml))
  /-- An array of tables made by headers, each with its entries. -/
  | tables (items : List (List (String × Toml)))
  deriving Repr, Inhabited

namespace Toml

abbrev Entries := List (String × Toml)

def atLast {α : Type} (change : α → Option α) : List α → Option (List α)
  | [] => none
  | [last] => (change last).map fun last => [last]
  | item :: rest => (atLast change rest).map fun rest => item :: rest

/-- Changes the table under a key on the path of a header. A missing table is made; of an array of
tables, the last one is meant. -/
def enter (key : String) (change : Entries → Option Entries) (entries : Entries) : Option Entries :=
  match Dict.get? key entries with
  | none => (change []).map fun inner => Dict.set key (.table .implied inner) entries
  | some (.table .inline _) => none
  | some (.table origin inner) => (change inner).map fun inner => Dict.set key (.table origin inner) entries
  | some (.tables items) => (atLast change items).map fun items => Dict.set key (.tables items) entries
  | some _ => none

def within (path : List String) (change : Entries → Option Entries) : Entries → Option Entries :=
  path.foldr enter change

/-- Gives a table its header. Only a table that has been on the way to others may be there. -/
def openTable (key : String) (entries : Entries) : Option Entries :=
  match Dict.get? key entries with
  | none => some (Dict.set key (.table .header []) entries)
  | some (.table .implied inner) => some (Dict.set key (.table .header inner) entries)
  | some _ => none

def openItem (key : String) (entries : Entries) : Option Entries :=
  match Dict.get? key entries with
  | none => some (Dict.set key (.tables [[]]) entries)
  | some (.tables items) => some (Dict.set key (.tables (items ++ [[]])) entries)
  | some _ => none

/-- Puts a value under a dotted key. The value goes into a table that dotted keys made, on the way
to which tables without a header of their own and the last tables of arrays may be passed. -/
def assign (value : Toml) : List String → Entries → Option Entries
  | [], _ => none
  | [key], entries => if Dict.contains key entries then none else some (Dict.set key value entries)
  | key :: rest, entries =>
    match Dict.get? key entries with
    | none => (assign value rest []).map fun inner => Dict.set key (.table .dotted inner) entries
    | some (.table .dotted inner) =>
      (assign value rest inner).map fun inner => Dict.set key (.table .dotted inner) entries
    | some (.table .implied inner) =>
      if rest.length ≤ 1 then none
      else (assign value rest inner).map fun inner => Dict.set key (.table .implied inner) entries
    | some (.tables items) =>
      if rest.length ≤ 1 then none
      else (atLast (assign value rest) items).map fun items => Dict.set key (.tables items) entries
    | some _ => none

inductive Line where
  | header (path : List String) (key : String)
  /-- The header of the next table of an array. -/
  | item (path : List String) (key : String)
  | assignment (keys : List String) (value : Toml)
  deriving Repr, Inhabited

def addLines (here : List String) : List Line → Entries → Option Entries
  | [], entries => some entries
  | .header path key :: rest, entries =>
    (within path (openTable key) entries).bind (addLines (path ++ [key]) rest)
  | .item path key :: rest, entries =>
    (within path (openItem key) entries).bind (addLines (path ++ [key]) rest)
  | .assignment keys value :: rest, entries =>
    (within here (assign value keys) entries).bind (addLines here rest)

def ofLines? (lines : List Line) : Option Entries := addLines [] lines []

def inline? (assignments : List (List String × Toml)) : Option Toml :=
  let entries := assignments.foldlM (fun entries (keys, value) => assign value keys entries) []
  entries.map (.table .inline)

end Toml

end Motif
