/-!
# Lines

Cutting texts at line feeds.
-/

namespace Motif.Text

def consLine (c : Char) (lines : List (List Char)) : List (List Char) :=
  if c = '\n' then [] :: lines
  else match lines with
    | line :: rest => (c :: line) :: rest
    | [] => [[c]]

/-- The stretches between line feeds; there is one more of them than line feeds. -/
def cutLines (cs : List Char) : List (List Char) := cs.foldr consLine [[]]

/-- The lines of a text. A line ends at a line feed, with a carriage return before it or not; what
follows the last one is a line only if it is not empty. -/
def linesOf (source : String) : List String :=
  let cut := cutLines source.toList
  let ended := cut.dropLast.map fun line => if line.getLast? = some '\r' then line.dropLast else line
  let last := (cut.getLast?).getD []
  (ended ++ if last.isEmpty then [] else [last]).map String.ofList

end Motif.Text
