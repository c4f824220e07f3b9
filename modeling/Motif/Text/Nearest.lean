/-!
# Nearest names

The edit distance of two texts, computed one row of the table at a time, and the names close
enough to a misspelt one to be worth suggesting.
-/

namespace Motif.Text

/-- The entries of a row right of `left`, for the character `c`: `above` is the rest of the row
before, and `corner` the entry of that row over `left`. -/
def rowFrom (c : Char) (left corner : Nat) : List Char → List Nat → List Nat
  | x :: xs, up :: above =>
    let entry := min (min (up + 1) (left + 1)) (corner + if c = x then 0 else 1)
    entry :: rowFrom c entry up xs above
  | _, _ => []

def nextRow (c : Char) (target : List Char) : List Nat → List Nat
  | [] => []
  | corner :: above => (corner + 1) :: rowFrom c (corner + 1) corner target above

/-- The last row of the table of edit distances between beginnings of `source` and of `target`. -/
def lastRow (target : List Char) (source : List Char) (row : List Nat) : List Nat :=
  source.foldl (fun row c => nextRow c target row) row

/-- The least number of insertions, deletions and substitutions of characters that turn one text
into the other. -/
def editDistance (source target : String) : Nat :=
  let target := target.toList
  ((lastRow target source.toList (List.range (target.length + 1))).getLast?).getD 0

def closer (a b : Nat × String) : Bool := decide (a.1 < b.1) || (a.1 == b.1 && decide (a.2 ≤ b.2))

/-- At most three of the candidates within `bound` edits of `name`, the nearest first; the name
itself is not one. -/
def suggest (name : String) (candidates : List String) (bound : Nat) : List String :=
  let near := candidates.filterMap fun candidate =>
    if candidate = name then none
    else
      let distance := editDistance name candidate
      if distance ≤ bound then some (distance, candidate) else none
  (((near.mergeSort closer).eraseReps).take 3).map Prod.snd

end Motif.Text
