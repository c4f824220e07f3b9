import Motif.Regex.Flags
import Motif.Text.Property
import Motif.Text.Quoted

/-!
# Escapes

What a backslash and the characters after it stand for.
-/

namespace Motif.Regex

open Text

inductive Escape where
  /-- A character; `byte` says that it was written as a byte. -/
  | literal (code : Nat) (byte : Bool)
  | set (s : CharSet)
  | anchor (a : Anchor)

/-! ## Code points -/

/-- The number that hexadecimal digits write, if it is the code point of a character. -/
def codePoint? (digits : List Nat) : Option Nat :=
  let code := digits.foldl (fun n d => n * 16 + d) 0
  if digits.isEmpty || !code.isValidChar then none else some code

/-- Reads some hexadecimal digits, with what may be skipped after each. -/
def hexDigits (f : Flags) : Nat → List Char → Option (List Nat × List Char)
  | 0, cs => some ([], cs)
  | _ + 1, [] => none
  | n + 1, c :: cs => do
    let digit ← Quoted.hexValue? c
    let (digits, rest) ← hexDigits f n (f.skip cs)
    return (digit :: digits, rest)

def upToBrace (f : Flags) : Nat → List Char → Option (List Char × List Char)
  | 0, _ => none
  | n + 1, cs =>
    match f.skip cs with
    | [] => none
    | '\x7d' :: rest => some ([], rest)
    | c :: rest => (upToBrace f n rest).map fun (cs, rest) => (c :: cs, rest)

def hexEscape (f : Flags) (width : Nat) (cs : List Char) : Option (Escape × List Char) :=
  match f.skip cs with
  | '\x7b' :: rest => do
    let (cs, rest) ← upToBrace f (rest.length + 1) rest
    return (.literal (← codePoint? (← cs.mapM Quoted.hexValue?)) false, f.skip rest)
  | cs => do
    let (digits, rest) ← hexDigits f width cs
    return (.literal (← codePoint? digits) (width == 2), rest)

/-! ## Properties -/

/-- What is before and after the first place at which a text has a mark. -/
def cutAt (mark : List Char) : List Char → Option (List Char × List Char)
  | [] => none
  | c :: cs =>
    if mark.isPrefixOf (c :: cs) then some ([], (c :: cs).drop mark.length)
    else (cutAt mark cs).map fun (before, after) => (c :: before, after)

/-- The set that the name of a property, with or without a value, stands for, and whether the
opposite is meant. -/
def property? (name : List Char) : Option (CharSet × Bool) :=
  let byValue := fun (cut : List Char × List Char) =>
    Property.byValue? (String.ofList cut.1) (String.ofList cut.2)
  match cutAt ['!', '='] name, cutAt [':'] name, cutAt ['='] name with
  | some cut, _, _ => (byValue cut).map (·, true)
  | none, some cut, _ => (byValue cut).map (·, false)
  | none, none, some cut => (byValue cut).map (·, false)
  | none, none, none => (Property.byName? (String.ofList name)).map (·, false)

def propertyEscape (f : Flags) (negated : Bool) (cs : List Char) : Option (Escape × List Char) := do
  let (name, rest) ← match f.skip cs with
    | '\x7b' :: rest => upToBrace f (rest.length + 1) rest
    | c :: rest => if c == '\\' then none else some ([c], f.skip rest)
    | [] => none
  if !f.unicode then failure
  let (s, opposite) ← property? name
  return (.set (← f.negateIf? (negated != opposite) (f.fold s)), rest)

/-! ## Words -/

def isSideChar (c : Char) : Bool := c.isAlpha || c == '-'

def sideNamed? : String → Option WordSide
  | "start" => some .start
  | "end" => some .stop
  | "start-half" => some .startHalf
  | "end-half" => some .stopHalf
  | _ => none

/-- Reads what may follow the letter of a word boundary: the name of a side in braces. What does not
begin like a name is no part of the escape. -/
def boundary (f : Flags) (cs : List Char) : Option (WordSide × List Char) :=
  match cs with
  | '\x7b' :: rest =>
    match f.skip rest with
    | [] => none
    | c :: inner =>
      if isSideChar c then do
        let (name, rest) ← upToBrace f (rest.length + 1) (c :: inner)
        return (← sideNamed? (String.ofList name), rest)
      else some (.boundary, cs)
  | _ => some (.boundary, cs)

/-! ## All escapes -/

/-- A class of characters of all scripts, or its part in ASCII. -/
def classEscape (f : Flags) (negated : Bool) (all ascii : CharSet) : Option Escape :=
  (f.negateIf? negated (if f.unicode then all else ascii)).map .set

def asciiDigit : CharSet := .ofRanges [(0x30, 0x39)]
def asciiSpace : CharSet := .ofRanges [(0x09, 0x0D), (0x20, 0x20)]
def asciiWord : CharSet := .ofRanges [(0x30, 0x39), (0x41, 0x5A), (0x5F, 0x5F), (0x61, 0x7A)]

def escape (f : Flags) : List Char → Option (Escape × List Char)
  | [] => none
  | c :: rest =>
    let literal (code : Nat) : Option (Escape × List Char) := some (.literal code false, rest)
    let anchor (a : Anchor) : Option (Escape × List Char) := some (.anchor a, rest)
    let word (side : WordSide) := Escape.anchor (.word side !f.unicode)
    let digits (negated : Bool) := classEscape f negated CharClass.digit asciiDigit
    let spaces (negated : Bool) := classEscape f negated CharClass.space asciiSpace
    let words (negated : Bool) := classEscape f negated CharClass.word asciiWord
    match c with
    | 'a' => literal 0x07
    | 'f' => literal 0x0C
    | 't' => literal 0x09
    | 'n' => literal 0x0A
    | 'r' => literal 0x0D
    | 'v' => literal 0x0B
    | 'x' => hexEscape f 2 rest
    | 'u' => hexEscape f 4 rest
    | 'U' => hexEscape f 8 rest
    | 'p' => propertyEscape f false rest
    | 'P' => propertyEscape f true rest
    | 'd' => (digits false).map (·, rest)
    | 'D' => (digits true).map (·, rest)
    | 's' => (spaces false).map (·, rest)
    | 'S' => (spaces true).map (·, rest)
    | 'w' => (words false).map (·, rest)
    | 'W' => (words true).map (·, rest)
    | 'A' => anchor .textStart
    | 'z' => anchor .textEnd
    | 'b' => (boundary f rest).map fun (side, rest) => (word side, rest)
    | 'B' => some (word .noBoundary, rest)
    | '<' => some (word .start, rest)
    | '>' => some (word .stop, rest)
    | _ => if c.toNat < 128 && !c.isAlphanum then literal c.toNat else none

end Motif.Regex
