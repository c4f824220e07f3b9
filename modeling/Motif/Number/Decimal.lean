import Motif.Number.Binary

/-!
# Decimal texts of numbers

`shortest` gives the fewest decimal digits that read back as the number, nearest to it among
those. A `Layout` says how digits become text: which of two equally near decimals is taken, which
scientific exponents are written positionally, whether whole numbers keep a point, and how an
exponent is signed. Three layouts are in use: the language's own text, the text inside JSON
documents, and the text in debug dumps.
-/

namespace Motif.Number

/-! ## Shortest digits -/

structure Decimal where
  digits : List Char
  exponent : Int
  deriving Repr, DecidableEq

/-- Which of two equally near decimals is taken. -/
inductive Tie where
  | toEven
  | up
  deriving Repr, DecidableEq

def Tie.takesLower (tie : Tie) (n : Nat) : Bool :=
  match tie with
  | .toEven => n % 2 == 0
  | .up => false

/-- A positive rational on a decimal grid: `value`, and the ends `low` and `high` of the interval of
reals that read back as it, all over `unit`. The ends belong to the interval if `closed`. -/
structure Grid where
  low : Nat
  value : Nat
  high : Nat
  unit : Nat
  closed : Bool

/-- The interval of reals that round to `mantissa · 2 ^ exponent`. Below a power of two the next
number is only half as far away, so the lower end is nearer there. -/
def Grid.ofParts (mantissa : Nat) (exponent : Int) : Grid :=
  let scale := Nat.pow 2 (exponent - 2).toNat
  let below := if mantissa = Nat.pow 2 52 ∧ exponent ≠ -1074 then 1 else 2
  { low := (4 * mantissa - below) * scale
    value := 4 * mantissa * scale
    high := (4 * mantissa + 2) * scale
    unit := Nat.pow 2 (2 - exponent).toNat
    closed := mantissa % 2 == 0 }

/-- The same interval measured in units of `10 ^ power`. -/
def Grid.scaled (g : Grid) (power : Int) : Grid :=
  let up := Nat.pow 10 (-power).toNat
  { g with
    low := g.low * up
    value := g.value * up
    high := g.high * up
    unit := g.unit * Nat.pow 10 power.toNat }

def Grid.contains (g : Grid) (n : Nat) : Bool :=
  let x := n * g.unit
  if g.closed then decide (g.low ≤ x) && decide (x ≤ g.high)
  else decide (g.low < x) && decide (x < g.high)

/-- The grid point inside the interval that is nearest to the value. Only the two neighbours of the
value can be nearest. -/
def Grid.nearest? (tie : Tie) (g : Grid) : Option Nat :=
  let n := g.value / g.unit
  match g.contains n, g.contains (n + 1) with
  | true, true =>
    let down := g.value - n * g.unit
    let up := (n + 1) * g.unit - g.value
    some (if down < up || (down == up && tie.takesLower n) then n else n + 1)
  | true, false => some n
  | false, true => some (n + 1)
  | false, false => none

def Grid.magnitude (g : Grid) : Int :=
  if g.unit ≤ g.value then Int.ofNat ((Nat.toDigits 10 (g.value / g.unit)).length - 1)
  else
    let k := (Nat.toDigits 10 (g.unit / g.value)).length - 1
    if g.unit ≤ g.value * Nat.pow 10 k then -Int.ofNat k else -Int.ofNat (k + 1)

def trimZeros (digits : List Char) : List Char := (digits.reverse.dropWhile (· == '0')).reverse

/-- The fewest digits that read back as `mantissa · 2 ^ exponent`. Seventeen are always enough. -/
def shortest (tie : Tie) (mantissa : Nat) (exponent : Int) : Decimal :=
  let g := Grid.ofParts mantissa exponent
  let top := g.magnitude
  let found := (List.range 17).findSome? fun k =>
    let power := top - Int.ofNat k
    ((g.scaled power).nearest? tie).map fun n => (n, power)
  match found with
  | some (n, power) =>
    let digits := Nat.toDigits 10 n
    { digits := trimZeros digits, exponent := power + Int.ofNat digits.length - 1 }
  | none => { digits := ['0'], exponent := 0 }

/-! ## Layouts -/

structure Layout where
  /-- The least scientific exponent that is written positionally. -/
  lowest : Int
  /-- The greatest scientific exponent that is written positionally. -/
  highest : Int
  /-- Whole numbers end in `.0`. -/
  keepsPoint : Bool
  /-- A positive exponent is written with its sign. -/
  signsExponent : Bool
  tie : Tie

/-- The language's own text. -/
def Layout.plain : Layout := ⟨-6, 20, false, true, .toEven⟩

/-- The text in JSON documents. -/
def Layout.json : Layout := ⟨-5, 15, true, true, .toEven⟩

/-- The text in debug dumps. -/
def Layout.debug : Layout := ⟨-4, 15, true, false, .up⟩

def zeros (n : Nat) : List Char := List.replicate n '0'

def Layout.write (layout : Layout) (d : Decimal) : String :=
  if layout.lowest ≤ d.exponent ∧ d.exponent ≤ layout.highest then
    if d.exponent < 0 then
      "0." ++ String.ofList (zeros ((-d.exponent).toNat - 1) ++ d.digits)
    else
      let places := d.exponent.toNat + 1
      if d.digits.length ≤ places then
        String.ofList (d.digits ++ zeros (places - d.digits.length)) ++
          (if layout.keepsPoint then ".0" else "")
      else String.ofList (d.digits.take places) ++ "." ++ String.ofList (d.digits.drop places)
  else
    let rest := d.digits.drop 1
    let head := String.ofList (d.digits.take 1)
    let mantissa := if rest.isEmpty then head else head ++ "." ++ String.ofList rest
    let sign := if d.exponent < 0 then "-" else if layout.signsExponent then "+" else ""
    mantissa ++ "e" ++ sign ++ toString d.exponent.natAbs

def text (x : Float) : String :=
  match parts x with
  | .nan => "NaN"
  | .infinite negative => if negative then "-Infinity" else "Infinity"
  | .finite negative mantissa exponent =>
    if mantissa = 0 then "0"
    else
      (if negative then "-" else "") ++
        Layout.plain.write (shortest Layout.plain.tie mantissa exponent)

/-- Text of a finite number in a layout that keeps the point, with the sign of zero. -/
def signedText (layout : Layout) (negative : Bool) (mantissa : Nat) (exponent : Int) : String :=
  (if negative then "-" else "") ++
    (if mantissa = 0 then "0.0" else layout.write (shortest layout.tie mantissa exponent))

/-- The text of a number in a JSON document, which has none for `NaN` and the infinities. -/
def jsonText? (x : Float) : Option String :=
  match parts x with
  | .finite negative mantissa exponent => some (signedText .json negative mantissa exponent)
  | _ => none

def debugText (x : Float) : String :=
  match parts x with
  | .nan => "NaN"
  | .infinite negative => if negative then "-inf" else "inf"
  | .finite negative mantissa exponent => signedText .debug negative mantissa exponent

end Motif.Number
