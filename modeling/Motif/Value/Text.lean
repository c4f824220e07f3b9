import Motif.Number.Decimal
import Motif.Text.CharClass
import Motif.Text.Quoted
import Motif.Value

/-!
# Texts of values

A value has three texts: the JavaScript expression that denotes it, the text it turns into when a
program joins it to a string, and the form in which it is shown to people.
-/

namespace Motif.Value

open Text.Quoted (quote)

/-- Whether a number is written with a sign: everything below zero, and negative zero. -/
def signed (x : Float) : Bool := Number.isNegative x

def numberScript (x : Float) : String := if signed x then "(-" ++ Number.text (-x) ++ ")" else Number.text x

mutual

def script : Value → String
  | .nothing => "undefined"
  | .null => "null"
  | .bool true => "true"
  | .bool false => "false"
  | .number x => numberScript x
  | .string s => quote s
  | .array items => "[" ++ ", ".intercalate (scriptItems items) ++ "]"
  | .object [] => "\x7b\x7d"
  | .object entries => "\x7b " ++ ", ".intercalate (scriptEntries entries) ++ " \x7d"

def scriptItems : List Value → List String
  | [] => []
  | v :: vs => script v :: scriptItems vs

def scriptEntries : List (String × Value) → List String
  | [] => []
  | (key, v) :: entries => (quote key ++ ": " ++ script v) :: scriptEntries entries

end

/-- The text of a primitive value when it is joined to a string; collections have none. -/
def hostText? : Value → Option String
  | .nothing => some "undefined"
  | .null => some "null"
  | .bool true => some "true"
  | .bool false => some "false"
  | .number x => some (Number.text x)
  | .string s => some s
  | .array _ => none
  | .object _ => none

/-- The key a value names in an object; collections name the empty one. -/
def propertyKey (v : Value) : String := v.hostText?.getD ""

mutual

def display : Value → String
  | .array items => "[" ++ ", ".intercalate (displayItems items) ++ "]"
  | .object entries => "\x7b" ++ ", ".intercalate (displayEntries entries) ++ "\x7d"
  | v => v.hostText?.getD ""

def displayItems : List Value → List String
  | [] => []
  | v :: vs => display v :: displayItems vs

def displayEntries : List (String × Value) → List String
  | [] => []
  | (key, v) :: entries => (key ++ ": " ++ display v) :: displayEntries entries

end

/-! ## Debug dumps -/

/-- A character in a debug dump: hidden characters are given by their code points. -/
def debugChar (c : Char) : List Char :=
  match c with
  | '"' => ['\\', '"']
  | '\\' => ['\\', '\\']
  | '\n' => ['\\', 'n']
  | '\r' => ['\\', 'r']
  | '\t' => ['\\', 't']
  | c =>
    if c.toNat = 0 then ['\\', '0']
    else if Text.CharClass.hidden.contains c.toNat then
      ['\\', 'u', '\x7b'] ++ Nat.toDigits 16 c.toNat ++ ['\x7d']
    else [c]

def debugText (s : String) : String := "\"" ++ String.ofList (s.toList.flatMap debugChar) ++ "\""

mutual

def debug : Value → String
  | .nothing => "Nothing"
  | .null => "Null"
  | .bool true => "Bool(true)"
  | .bool false => "Bool(false)"
  | .number x => "Number(" ++ Number.debugText x ++ ")"
  | .string s => "String(" ++ debugText s ++ ")"
  | .array items => "Array([" ++ ", ".intercalate (debugItems items) ++ "])"
  | .object entries => "Object([" ++ ", ".intercalate (debugEntries entries) ++ "])"

def debugItems : List Value → List String
  | [] => []
  | v :: vs => debug v :: debugItems vs

def debugEntries : List (String × Value) → List String
  | [] => []
  | (key, v) :: entries => ("(" ++ debugText key ++ ", " ++ debug v ++ ")") :: debugEntries entries

end

end Motif.Value
