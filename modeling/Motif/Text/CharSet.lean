/-!
# Sets of characters

A set of characters is held as its ranges of code points, which ascend and leave gaps between them.
Surrogates are no characters, so no complement has them.
-/

namespace Motif.Text

structure CharSet where
  /-- First and last code points of each range, both included. -/
  ranges : Array (Nat × Nat)
  deriving Repr, DecidableEq, Inhabited

namespace CharSet

def lastCode : Nat := 0x10FFFF

/-- Joins ranges, in the order of their first code points, that overlap or touch. The first argument
is the range that may still grow. -/
def join (current : Nat × Nat) : List (Nat × Nat) → List (Nat × Nat)
  | [] => [current]
  | r :: rs =>
    if r.1 ≤ current.2 + 1 then join (current.1, Nat.max current.2 r.2) rs
    else current :: join r rs

def ofSorted : List (Nat × Nat) → CharSet
  | [] => ⟨#[]⟩
  | r :: rs => ⟨(join r rs).toArray⟩

def startsBefore (r s : Nat × Nat) : Bool := r.1 ≤ s.1

def ofRanges (rs : List (Nat × Nat)) : CharSet := ofSorted (rs.mergeSort startsBefore)

def empty : CharSet := ⟨#[]⟩

def range (first last : Nat) : CharSet := ⟨#[(first, last)]⟩

def single (code : Nat) : CharSet := range code code

def toList (s : CharSet) : List (Nat × Nat) := s.ranges.toList

def isEmpty (s : CharSet) : Bool := s.ranges.isEmpty

def theOnly? (s : CharSet) : Option Nat :=
  match s.toList with
  | [(first, last)] => if first == last then some first else none
  | _ => none

def isAscii (s : CharSet) : Bool := s.ranges.back?.all fun r => r.2 < 128

/-- Whether a code point is in one of the ranges from index `low` up to index `high`. -/
def search (ranges : Array (Nat × Nat)) (code low high : Nat) : Bool :=
  if low < high then
    let middle := (low + high) / 2
    match ranges[middle]? with
    | none => false
    | some (first, last) =>
      if code < first then search ranges code low middle
      else if last < code then search ranges code (middle + 1) high
      else true
  else false
termination_by high - low

def contains (s : CharSet) (code : Nat) : Bool := search s.ranges code 0 s.ranges.size

def union (s t : CharSet) : CharSet := ofSorted (s.toList.merge t.toList startsBefore)

def unions (sets : List CharSet) : CharSet := sets.foldl union empty

def gaps (start : Nat) : List (Nat × Nat) → List (Nat × Nat)
  | [] => if start ≤ lastCode then [(start, lastCode)] else []
  | (first, last) :: rs =>
    if start < first then (start, first - 1) :: gaps (last + 1) rs else gaps (last + 1) rs

def surrogates : CharSet := range 0xD800 0xDFFF

def complement (s : CharSet) : CharSet := ⟨(gaps 0 (s.union surrogates).toList).toArray⟩

def inter (s t : CharSet) : CharSet := (s.complement.union t.complement).complement

def diff (s t : CharSet) : CharSet := s.inter t.complement

def symmDiff (s t : CharSet) : CharSet := (s.diff t).union (t.diff s)

/-! ## Written sets -/

/-- Reads numbers. A number is some lower case letters, its digits in base 26, and a last digit in
base 36, which is an upper case letter or a numeral. -/
def numbers (text : String) : List Nat :=
  let step := fun (acc : List Nat × Nat) (c : Char) =>
    let last := fun digit => ((acc.2 * 36 + digit) :: acc.1, 0)
    if c.isLower then (acc.1, acc.2 * 26 + (c.toNat - 'a'.toNat))
    else if c.isUpper then last (c.toNat - 'A'.toNat)
    else if c.isDigit then last (c.toNat - '0'.toNat + 26)
    else acc
  (text.toList.foldl step ([], 0)).1.reverse

/-- The runs that numbers write: how many code points to leave out and how many more than one to
take, in turn. Where none are left out after the run `before`, that one comes some times more. -/
def runs (before : Option (Nat × Nat)) : List Nat → List (Nat × Nat)
  | skip :: more :: rest =>
    match skip, before with
    | 0, some run => List.replicate (more + 1) run ++ runs before rest
    | _, _ => (skip, more) :: runs (some (skip, more)) rest
  | _ => []

def covered (start : Nat) : List (Nat × Nat) → List (Nat × Nat)
  | (skip, more) :: rest => (start + skip, start + skip + more) :: covered (start + skip + more + 1) rest
  | [] => []

def ofRuns (text : String) : CharSet := ⟨(covered 0 (runs none (numbers text))).toArray⟩

end CharSet

end Motif.Text
