/-!
# Binary64 numbers by their parts

A finite number is `± mantissa · 2 ^ exponent` with a natural mantissa below `2 ^ 53`. Taking a
number apart this way makes its integer test, its use as an index and its remainder exact
computations on naturals.
-/

namespace Motif.Number

inductive Parts where
  | nan
  | infinite (negative : Bool)
  | finite (negative : Bool) (mantissa : Nat) (exponent : Int)
  deriving Repr, DecidableEq

/-- Splits a number into sign, mantissa and exponent; subnormals have exponent `-1074`. -/
def parts (x : Float) : Parts :=
  let bits := x.toBits.toNat
  let negative := decide (Nat.pow 2 63 ≤ bits)
  let biased := bits / Nat.pow 2 52 % 2048
  let fraction := bits % Nat.pow 2 52
  if biased = 2047 then
    if fraction = 0 then .infinite negative else .nan
  else if biased = 0 then .finite negative fraction (-1074)
  else .finite negative (fraction + Nat.pow 2 52) (Int.ofNat biased - 1075)

/-- The number `± mantissa · 2 ^ exponent`, exact for a mantissa below `2 ^ 53` and an exponent of
at least `-1074`. -/
def ofParts (negative : Bool) (mantissa : Nat) (exponent : Int) : Float :=
  let sign := if negative then Nat.pow 2 63 else 0
  if mantissa = 0 then Float.ofBits (UInt64.ofNat sign)
  else
    let shift := min (52 - mantissa.log2) (exponent + 1074).toNat
    let mantissa := mantissa * Nat.pow 2 shift
    let exponent := exponent - Int.ofNat shift
    if mantissa < Nat.pow 2 52 then Float.ofBits (UInt64.ofNat (sign + mantissa))
    else
      let biased := (exponent + 1075).toNat
      Float.ofBits (UInt64.ofNat (sign + biased * Nat.pow 2 52 + (mantissa - Nat.pow 2 52)))

/-- The sign bit of a number; `false` for `NaN`. -/
def isNegative (x : Float) : Bool :=
  match parts x with
  | .nan => false
  | .infinite negative => negative
  | .finite negative _ _ => negative

def isFinite (x : Float) : Bool :=
  match parts x with
  | .finite .. => true
  | _ => false

def isZero (x : Float) : Bool :=
  match parts x with
  | .finite _ mantissa _ => mantissa == 0
  | _ => false

def whole? (x : Float) : Option (Bool × Nat) :=
  match parts x with
  | .finite negative mantissa exponent =>
    if 0 ≤ exponent then some (negative, mantissa * Nat.pow 2 exponent.toNat)
    else
      let unit := Nat.pow 2 (-exponent).toNat
      if mantissa % unit = 0 then some (negative, mantissa / unit) else none
  | _ => none

def isInteger (x : Float) : Bool := (whole? x).isSome

/-- A number used as a position: whole and not below zero (negative zero is position zero). -/
def index? (x : Float) : Option Nat :=
  match whole? x with
  | some (negative, n) => if negative && n != 0 then none else some n
  | none => none

/-- The remainder of truncated division. It has the dividend's sign, also when it is zero. -/
def remainder (x y : Float) : Float :=
  match parts x, parts y with
  | .finite negative m e, .finite _ n f =>
    if n = 0 then 0.0 / 0.0
    else
      let unit := min e f
      let dividend := m * Nat.pow 2 (e - unit).toNat
      let divisor := n * Nat.pow 2 (f - unit).toNat
      ofParts negative (dividend % divisor) unit
  | .finite .., .infinite _ => x
  | _, _ => 0.0 / 0.0

end Motif.Number
