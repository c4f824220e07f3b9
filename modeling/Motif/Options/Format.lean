import Motif.Json.Number
import Motif.Options

/-!
# Options as JSON

Options are an object with their names as keys, or a list of their values in order.
-/

namespace Motif

/-- A pass, given by its name or as an object with the name as its only key and `null` under it. -/
def Pass.ofJson? : Json → Option Pass
  | .object [(name, .null)] => (Text.Quoted.decode? name).bind Pass.ofName?
  | j => j.text?.bind Pass.ofName?

namespace Options

/-- The names of the options, in the order in which a list gives them. -/
def keys : List String := ["passes", "globals", "inline-string-limit", "strict-mode", "indent"]

def setting? (j : Json) (key : String) : Option Json :=
  match j with
  | .array items => ((keys.zip items).find? fun entry => entry.1 == key).map Prod.snd
  | j => j.get? key

/-- Reads options. What is not there has its default, and unknown names are passed over; a list has
no more items than there are options. -/
def ofJson? (j : Json) : Option Options := do
  let read {α : Type} (key : String) (reader : Json → Option α) (default : α) : Option α :=
    match setting? j key with
    | some value => reader value
    | none => some default
  let list {α : Type} (reader : Json → Option α) (j : Json) : Option (List α) := do
    (← j.items?).mapM reader
  let wellFormed := match j with
    | .object _ => true
    | .array items => items.length ≤ keys.length
    | _ => false
  if !wellFormed then failure
  let default : Options := {}
  return {
    passes := ← read "passes" (list Pass.ofJson?) default.passes
    globals := ← read "globals" (list Json.text?) default.globals
    inlineStringLimit := ← read "inline-string-limit" Json.nat? default.inlineStringLimit
    strictMode := ← read "strict-mode" Json.bool? default.strictMode
    indent := ← read "indent" Json.nat? default.indent }

end Options

end Motif
