import Motif.Dict

/-!
# Names in generated code

Every write to a name of the source gives it a new id, and reads use the latest one. The ids of a
name are kept in a table; the parts of a program that must not see each other's writes work on
copies of it. An allocator hands out the ids, each only once in a module.
-/

namespace Motif.Emit

def reservedWords : List String := [
    "arguments", "await", "break", "case", "catch", "class", "const", "continue", "debugger",
    "default", "delete", "do", "else", "enum", "eval", "export", "extends", "false", "finally",
    "for", "function", "if", "implements", "import", "in", "instanceof", "interface", "let", "new",
    "null", "package", "private", "protected", "public", "return", "static", "super", "switch",
    "this", "throw", "true", "try", "typeof", "undefined", "var", "void", "while", "with", "yield",
    "NaN", "Infinity"]

def isReserved (name : String) : Bool := reservedWords.contains name

/-- The ids of each name, latest first, sorted by name. -/
structure NameTable where
  versions : List (String × List String) := []
  deriving Repr, DecidableEq, Inhabited

namespace NameTable

def insert (name id : String) : List (String × List String) → List (String × List String)
  | [] => [(name, [id])]
  | (other, ids) :: rest =>
    if other = name then (other, id :: ids) :: rest
    else if name < other then (name, [id]) :: (other, ids) :: rest
    else (other, ids) :: insert name id rest

def history (t : NameTable) (name : String) : List String := ((Dict.get? name t.versions).getD []).reverse

def current? (t : NameTable) (name : String) : Option String := (Dict.get? name t.versions).bind List.head?

def push (t : NameTable) (name id : String) : NameTable := { versions := insert name id t.versions }

/-- The table for a nested scope: every name keeps only its latest id. -/
def derive (t : NameTable) : NameTable :=
  { versions := t.versions.filterMap fun (name, ids) => ids.head?.map fun id => (name, [id]) }

def modifiedSince (t base : NameTable) : List String :=
  (t.versions.map Prod.fst).filter fun name => t.current? name != base.current? name

end NameTable

/-- How many ids there are of each name, and how many temporaries. The counts have no bound;
counters of 32 bits do the same for fewer than 2 ^ 32 ids of one name. -/
structure IdAllocator where
  versions : List (String × Nat) := []
  temps : Nat := 0
  deriving Repr, DecidableEq, Inhabited

namespace IdAllocator

/-- The `n`-th id of a name: the name itself comes first, unless it is reserved. -/
def versionId (name : String) (n : Nat) : String :=
  if n == 0 && !isReserved name then name else name ++ "$" ++ toString n

def version (ids : IdAllocator) (name : String) : String × IdAllocator :=
  let n := (Dict.get? name ids.versions).getD 0
  (versionId name n, { ids with versions := Dict.set name (n + 1) ids.versions })

def tempId (n : Nat) : String := "$t" ++ toString n

def temp (ids : IdAllocator) : String × IdAllocator :=
  (tempId (ids.temps + 1), { ids with temps := ids.temps + 1 })

end IdAllocator

def patternLocal (n : Nat) : String := "$p" ++ toString n

end Motif.Emit
