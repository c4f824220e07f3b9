import Motif.Text.Property.Age
import Motif.Text.Property.Binary
import Motif.Text.Property.Break
import Motif.Text.Property.Script

/-!
# Properties of characters

Sets of characters by the names of their properties. Case, spaces, hyphens, underscores and a
leading `is` mean nothing in names.
-/

namespace Motif.Text.Property

/-- A name without what means nothing in it. The lone `c` after an `is` keeps it, for `isc` is the
name of another property. -/
def plainName (name : String) : String :=
  let plain := fun (cs : List Char) =>
    let kept := cs.filter fun c => c.toNat < 128 && c != ' ' && c != '_' && c != '-'
    String.ofList (kept.map Char.toLower)
  match name.toList with
  | i :: s :: rest =>
    if i.toLower == 'i' && s.toLower == 's' then
      if plain rest == "c" then "isc" else plain rest
    else plain (i :: s :: rest)
  | cs => plain cs

def age? (name : String) : Option CharSet :=
  match ages.findIdx? fun n => n.names.contains name with
  | some last => some (.unions ((ages.take (last + 1)).map (Named.set fun _ => none)))
  | none => none

/-- The set that a single name stands for: a binary property, a category or a script. -/
def byName? (name : String) : Option CharSet := binary? binaries (plainName name) <|> script? (plainName name)

def byValue? (property value : String) : Option CharSet :=
  let value := plainName value
  match plainName property with
  | "gc" | "generalcategory" => category? value
  | "sc" | "script" => script? value
  | "scx" | "scriptextensions" => scriptExtension? value
  | "age" => age? value
  | "gcb" | "graphemeclusterbreak" => Named.find? byName? clusterBreaks value
  | "wb" | "wordbreak" => Named.find? byName? wordBreaks value
  | "sb" | "sentencebreak" => Named.find? byName? sentenceBreaks value
  | _ => none

end Motif.Text.Property
