import Motif.Text.CharSet

/-!
# Characters as bytes

The encodings of a range of code points, as sequences of ranges of bytes. All combinations of bytes
from the ranges of one sequence encode code points of the range, and no two sequences share one.
-/

namespace Motif.Text.Utf8

def width (code : Nat) : Nat :=
  if code < 0x80 then 1 else if code < 0x800 then 2 else if code < 0x10000 then 3 else 4

abbrev Pattern := List (Nat × Nat)

/-- Numbers of `more + 1` digits in base 64. The first digit is written with the mark `mark`, the
others as continuation bytes. Digits before which a number ends or begins unevenly stand alone. -/
def digits (mark : Nat) : (more first last : Nat) → List Pattern
  | 0, first, last => [[(mark + first, mark + last)]]
  | more + 1, first, last =>
    let size := Nat.pow 64 (more + 1)
    let (low, high) := (first / size, last / size)
    let within := fun digit first last =>
      (digits 0x80 more first last).map fun rest => (mark + digit, mark + digit) :: rest
    if low == high then within low (first % size) (last % size)
    else
      let ragged := first % size != 0
      let cut := last % size != size - 1
      let (begin, stop) := (if ragged then low + 1 else low, if cut then high else high + 1)
      (if ragged then within low (first % size) (size - 1) else []) ++
        (if begin < stop then
          [(mark + begin, mark + (stop - 1)) :: List.replicate (more + 1) (0x80, 0xBF)] else []) ++
        (if cut then within high 0 (last % size) else [])

/-- The code points of one width, without surrogates: the number of continuation bytes, the mark of
the first byte, and the ends of the range. -/
def planes : List (Nat × Nat × Nat × Nat) := [
  (0, 0x00, 0x0, 0x7F), (1, 0xC0, 0x80, 0x7FF), (2, 0xE0, 0x800, 0xD7FF),
  (2, 0xE0, 0xE000, 0xFFFF), (3, 0xF0, 0x10000, 0x10FFFF)]

def patterns (first last : Nat) : List Pattern :=
  planes.flatMap fun (more, mark, low, high) =>
    let (first, last) := (Nat.max first low, Nat.min last high)
    if first ≤ last then digits mark more first last else []

def ofSet (s : CharSet) : List Pattern := s.toList.flatMap fun (first, last) => patterns first last

end Motif.Text.Utf8
