/-!
# The order of texts by UTF-16 units

The language compares texts by their UTF-16 code units. That order differs from the order of code
points: a character outside the basic plane is written with surrogates, which are smaller units
than the last characters of that plane.
-/

namespace Motif.Text

def charUnits (c : Char) : List Nat :=
  let n := c.toNat
  if n < 0x10000 then [n] else [0xD800 + (n - 0x10000) / 0x400, 0xDC00 + (n - 0x10000) % 0x400]

def units (s : String) : List Nat := s.toList.flatMap charUnits

def compareSeq : List Nat → List Nat → Ordering
  | [], [] => .eq
  | [], _ :: _ => .lt
  | _ :: _, [] => .gt
  | m :: ms, n :: ns => if m < n then .lt else if n < m then .gt else compareSeq ms ns

def compareUnits (s t : String) : Ordering := compareSeq (units s) (units t)

def occursIn (part : List Char) : List Char → Bool
  | [] => part.isEmpty
  | c :: cs => part.isPrefixOf (c :: cs) || occursIn part cs

def contains (whole part : String) : Bool := occursIn part.toList whole.toList

end Motif.Text
