import Motif.Text.CharSet

/-!
# Named sets of characters
-/

namespace Motif.Text.Property

/-- The rows of a table and their fields. Rows end in semicolons, and equals signs separate the
fields of a row. -/
def rows (table : String) : List (List String) := (table.splitOn ";").map fun row => row.splitOn "="

def words (field : String) : List String :=
  ((field.replace "\n" " ").splitOn " ").filter fun word => word != ""

/-- A set of characters with the names that it goes by. Names are in lower case, without spaces,
hyphens and underscores. -/
structure Named where
  names : List String
  /-- The names of the sets that this one is close to. -/
  near : List String
  runs : String

namespace Named

/-- Reads a table whose rows have the names, the sets that are close if there are any, and the
runs. -/
def table (text : String) : List Named :=
  (rows text).filterMap fun
    | [names, runs] => some { names := words names, near := [], runs }
    | [names, near, runs] => some { names := words names, near := words near, runs }
    | _ => none

def set (base : String → Option CharSet) (n : Named) : CharSet :=
  (n.near.filterMap base).foldl .symmDiff (.ofRuns n.runs)

def find? (base : String → Option CharSet) (family : List Named) (name : String) : Option CharSet :=
  (family.find? fun n => n.names.contains name).map (Named.set base)

end Named

end Motif.Text.Property
