import Motif.Json
import Motif.Number.Binary

/-!
# Numbers in JSON documents

A literal is read in three steps: as many digits as fit 64 bits become the significand, the decimal
point and the exponent give a power of ten, and one floating-point multiplication or division puts
them together. For up to fifteen digits and small powers the result is the nearest number.
-/

namespace Motif.Json

structure Literal where
  negative : Bool
  whole : List Char
  fraction : List Char
  exponentNegative : Bool
  exponent : List Char
  isFloat : Bool

def isDigit (c : Char) : Bool := decide ('0' ≤ c) && decide (c ≤ '9')

def digitValue (c : Char) : Nat := c.toNat - 48

def spanDigits (cs : List Char) : List Char × List Char := (cs.takeWhile isDigit, cs.dropWhile isDigit)

/-- The whole part: a zero alone, or digits that do not start with one. -/
def spanWhole : List Char → Option (List Char × List Char)
  | '0' :: rest => some (['0'], rest)
  | cs =>
    match spanDigits cs with
    | ([], _) => none
    | found => some found

/-- The fraction, if there is one: a point and at least one digit. -/
def spanFraction : List Char → Option (List Char × List Char)
  | '.' :: rest =>
    match spanDigits rest with
    | ([], _) => none
    | found => some found
  | cs => some ([], cs)

/-- The exponent, if there is one: a letter, perhaps a sign, and at least one digit. -/
def spanExponent : List Char → Option (Bool × List Char × List Char)
  | c :: rest =>
    if c = 'e' ∨ c = 'E' then
      let (negative, rest) := match rest with
        | '-' :: rest => (true, rest)
        | '+' :: rest => (false, rest)
        | rest => (false, rest)
      match spanDigits rest with
      | ([], _) => none
      | (digits, rest) => some (negative, digits, rest)
    else some (false, [], c :: rest)
  | [] => some (false, [], [])

def spanLiteral (cs : List Char) : Option (Literal × List Char) := do
  let (negative, cs) := match cs with
    | '-' :: rest => (true, rest)
    | cs => (false, cs)
  let (whole, cs) ← spanWhole cs
  let (fraction, cs) ← spanFraction cs
  let (exponentNegative, exponent, cs) ← spanExponent cs
  let isFloat := !fraction.isEmpty || !exponent.isEmpty
  return ({ negative, whole, fraction, exponentNegative, exponent, isFloat }, cs)

def literal? (text : String) : Option Literal :=
  match spanLiteral text.toList with
  | some (literal, []) => some literal
  | _ => none

/-! ## Values -/

def maxSignificand : Nat := Nat.pow 2 64 - 1

structure Scaled where
  significand : Nat
  power : Int
  full : Bool

/-- Adds a digit of the whole part. From the first digit that does not fit on, each digit only
raises the power. -/
def Scaled.addWhole (s : Scaled) (c : Char) : Scaled :=
  let next := s.significand * 10 + digitValue c
  if s.full || decide (maxSignificand < next) then { s with power := s.power + 1, full := true }
  else { s with significand := next }

/-- Adds a digit of the fraction; from the first one that does not fit on they are dropped. -/
def Scaled.addFraction (s : Scaled) (c : Char) : Scaled :=
  let next := s.significand * 10 + digitValue c
  if s.full || decide (maxSignificand < next) then { s with full := true }
  else { s with significand := next, power := s.power - 1 }

def Literal.scaled (l : Literal) : Scaled :=
  let whole := l.whole.foldl Scaled.addWhole { significand := 0, power := 0, full := false }
  l.fraction.foldl Scaled.addFraction { whole with full := false }

def natOfDigits (digits : List Char) : Nat := digits.foldl (fun n c => n * 10 + digitValue c) 0

/-- The natural number as a binary64 number, rounded to the nearest. -/
def floatOfNat (n : Nat) : Float := Float.ofScientific n false 0

def powerOfTen (n : Nat) : Float := Float.ofScientific 1 false n

/-- `x · 10 ^ power`, `none` if that is too large. Powers below `-308` are applied in several
divisions; after the second of them nothing but zero can be left. -/
def scaleBy : Nat → Float → Int → Option Float
  | 0, _, _ => some 0.0
  | steps + 1, x, power =>
    if power.natAbs ≤ 308 then
      if 0 ≤ power then
        let y := x * powerOfTen power.toNat
        if Number.isFinite y then some y else none
      else some (x / powerOfTen power.natAbs)
    else if x == 0.0 then some x
    else if 0 ≤ power then none
    else scaleBy steps (x / powerOfTen 308) (power + 308)

/-- The value of a literal; one with a point or an exponent may be out of range. -/
def Literal.float? (l : Literal) : Option Float :=
  let s := l.scaled
  let signed := fun x : Float => if l.negative then -x else x
  if !l.isFloat && s.power == 0 then some (signed (floatOfNat s.significand))
  else
    let exponent := natOfDigits l.exponent
    if Nat.pow 2 31 - 1 < exponent then
      if s.significand ≠ 0 ∧ ¬ l.exponentNegative then none else some (signed 0.0)
    else
      let power := if l.exponentNegative then s.power - exponent else s.power + exponent
      (scaleBy 4 (floatOfNat s.significand) power).map signed

def float? : Json → Option Float
  | .number literal => (literal? literal).bind Literal.float?
  | _ => none

def nat? : Json → Option Nat
  | .number literal =>
    match literal? literal with
    | some l =>
      let n := natOfDigits l.whole
      if l.negative || l.isFloat || decide (maxSignificand < n) then none else some n
    | none => none
  | _ => none

end Motif.Json
