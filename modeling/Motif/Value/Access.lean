import Motif.Operator

/-!
# Parts of values

Looking inside values, walking over collections, and comparing a value with another one used as a
template.
-/

namespace Motif.Value

/-- The part of a value that a key names: an item of an array by its position, an entry of an object
by its key, the length of an array or of a text. Where there is no such part it is nothing. -/
def member (target key : Value) : Value :=
  match target, key with
  | .array items, .number x => ((Number.index? x).bind fun i => items[i]?).getD .nothing
  | .array items, .string "length" => .number (Float.ofNat items.length)
  | .string s, .string "length" => .number (Float.ofNat s.length)
  | .object _, _ => (target.get? key.propertyKey).getD .nothing
  | _, _ => .nothing

/-- What a loop over a value goes through: the items of an array, or the entries of an object as
pairs. -/
def items? : Value → Option (List Value)
  | .array items => some items
  | .object entries => some (entries.map fun (key, v) => .array [.string key, v])
  | _ => none

mutual

/-- Whether a value fits a template. Arrays fit item by item and have the same length; an object
fits if it has a fitting part for each entry of the template, whatever else it has. Anything else
has to be equal. -/
def accepts : Value → Value → Bool
  | .array templates, .array items => acceptsItems templates items
  | .object templates, .object entries => acceptsEntries templates entries
  | template, v => strictlyEqual template v

def acceptsItems : List Value → List Value → Bool
  | [], [] => true
  | t :: templates, v :: items => accepts t v && acceptsItems templates items
  | _, _ => false

def acceptsEntries : List (String × Value) → List (String × Value) → Bool
  | [], _ => true
  | (key, t) :: templates, entries =>
    accepts t ((entries.lookup key).getD .nothing) && acceptsEntries templates entries

end

end Motif.Value
