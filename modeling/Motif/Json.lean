import Motif.Text.Quoted

/-!
# JSON documents

A document keeps the spelling of its numbers and strings, and every entry of its objects in order,
repeated keys included. What a spelling means is decided where it is used: a number that is out of
range or a string with half a surrogate pair is an error only for a reader that looks at it.
-/

namespace Motif

/-- A JSON value. Numbers are kept as written; strings and keys are kept in their escaped form. -/
inductive Json where
  | null
  | bool (b : Bool)
  | number (literal : String)
  | string (escaped : String)
  | array (items : List Json)
  | object (entries : List (String × Json))
  deriving Repr, Inhabited

namespace Json

def ofText (s : String) : Json := .string (Text.Quoted.encode s)

def ofNat (n : Nat) : Json := .number (toString n)

def ofEntries (entries : List (String × Json)) : Json :=
  .object (entries.map fun entry => (Text.Quoted.encode entry.1, entry.2))

def text? : Json → Option String
  | .string escaped => Text.Quoted.decode? escaped
  | _ => none

def bool? : Json → Option Bool
  | .bool b => some b
  | _ => none

def items? : Json → Option (List Json)
  | .array items => some items
  | _ => none

def get? (j : Json) (key : String) : Option Json :=
  match j with
  | .object entries => (entries.find? fun entry => Text.Quoted.decode? entry.1 == some key).map Prod.snd
  | _ => none

end Json

end Motif
