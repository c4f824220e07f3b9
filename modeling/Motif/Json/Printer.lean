import Motif.Json

/-!
# Writing JSON documents

`compact` has no blanks; `pretty` puts every item and entry on a line of its own, two blanks deeper
than its container.
-/

namespace Motif.Json

mutual

def compact : Json → String
  | .null => "null"
  | .bool true => "true"
  | .bool false => "false"
  | .number literal => literal
  | .string escaped => "\"" ++ escaped ++ "\""
  | .array items => "[" ++ ",".intercalate (compactItems items) ++ "]"
  | .object entries => "\x7b" ++ ",".intercalate (compactEntries entries) ++ "\x7d"

def compactItems : List Json → List String
  | [] => []
  | item :: items => compact item :: compactItems items

def compactEntries : List (String × Json) → List String
  | [] => []
  | (key, value) :: entries => ("\"" ++ key ++ "\":" ++ compact value) :: compactEntries entries

end

def newline (depth : Nat) : String := "\n" ++ String.ofList (List.replicate (2 * depth) ' ')

mutual

def prettyAt (depth : Nat) : Json → String
  | .null => "null"
  | .bool true => "true"
  | .bool false => "false"
  | .number literal => literal
  | .string escaped => "\"" ++ escaped ++ "\""
  | .array [] => "[]"
  | .array items => "[" ++ ",".intercalate (prettyItems (depth + 1) items) ++ newline depth ++ "]"
  | .object [] => "\x7b\x7d"
  | .object entries =>
    "\x7b" ++ ",".intercalate (prettyEntries (depth + 1) entries) ++ newline depth ++ "\x7d"

def prettyItems (depth : Nat) : List Json → List String
  | [] => []
  | item :: items => (newline depth ++ prettyAt depth item) :: prettyItems depth items

def prettyEntries (depth : Nat) : List (String × Json) → List String
  | [] => []
  | (key, value) :: entries =>
    (newline depth ++ "\"" ++ key ++ "\": " ++ prettyAt depth value) :: prettyEntries depth entries

end

def pretty (j : Json) : String := prettyAt 0 j

end Motif.Json
