import Motif.Json.Number

/-!
# Reading JSON documents

A recursive reader over the characters of a text. Its fuel is the length of the text: every call
takes at least one character before the next.
-/

namespace Motif.Json

def isBlank (c : Char) : Bool := c == ' ' || c == '\n' || c == '\r' || c == '\t'

def skipBlank (cs : List Char) : List Char := cs.dropWhile isBlank

/-- Takes a string whose opening quote has been read, in its escaped form. Escapes have to be ones
of the format; whether surrogates come in pairs is not looked at. -/
def spanString (done : List Char) : List Char → Option (String × List Char)
  | [] => none
  | '"' :: rest => some (String.ofList done.reverse, rest)
  | '\\' :: 'u' :: a :: b :: c :: d :: rest =>
    if (Text.Quoted.hex4? a b c d).isSome then
      spanString (d :: c :: b :: a :: 'u' :: '\\' :: done) rest
    else none
  | '\\' :: c :: rest =>
    if (Text.Quoted.shortEscape? c).isSome then spanString (c :: '\\' :: done) rest else none
  | c :: rest => if c = '\\' ∨ c.toNat < 32 then none else spanString (c :: done) rest

def isNumberChar (c : Char) : Bool := isDigit c || c == '-' || c == '+' || c == '.' || c == 'e' || c == 'E'

def spanNumber (cs : List Char) : Option (String × List Char) :=
  let spelling := String.ofList (cs.takeWhile isNumberChar)
  if (literal? spelling).isSome then some (spelling, cs.dropWhile isNumberChar) else none

mutual

def spanValue : Nat → List Char → Option (Json × List Char)
  | 0, _ => none
  | fuel + 1, cs =>
    match skipBlank cs with
    | 'n' :: 'u' :: 'l' :: 'l' :: rest => some (.null, rest)
    | 't' :: 'r' :: 'u' :: 'e' :: rest => some (.bool true, rest)
    | 'f' :: 'a' :: 'l' :: 's' :: 'e' :: rest => some (.bool false, rest)
    | '"' :: rest => (spanString [] rest).map fun found => (.string found.1, found.2)
    | '[' :: rest =>
      match skipBlank rest with
      | ']' :: rest => some (.array [], rest)
      | _ => (spanItems fuel rest).map fun found => (.array found.1, found.2)
    | '\x7b' :: rest =>
      match skipBlank rest with
      | '\x7d' :: rest => some (.object [], rest)
      | _ => (spanEntries fuel rest).map fun found => (.object found.1, found.2)
    | cs => (spanNumber cs).map fun found => (.number found.1, found.2)

def spanItems : Nat → List Char → Option (List Json × List Char)
  | 0, _ => none
  | fuel + 1, cs =>
    match spanValue fuel cs with
    | none => none
    | some (item, rest) =>
      match skipBlank rest with
      | ']' :: rest => some ([item], rest)
      | ',' :: rest => (spanItems fuel rest).map fun found => (item :: found.1, found.2)
      | _ => none

def spanEntries : Nat → List Char → Option (List (String × Json) × List Char)
  | 0, _ => none
  | fuel + 1, cs =>
    match skipBlank cs with
    | '"' :: rest =>
      match spanString [] rest with
      | none => none
      | some (key, rest) =>
        match skipBlank rest with
        | ':' :: rest =>
          match spanValue fuel rest with
          | none => none
          | some (value, rest) =>
            match skipBlank rest with
            | '\x7d' :: rest => some ([(key, value)], rest)
            | ',' :: rest => (spanEntries fuel rest).map fun found => ((key, value) :: found.1, found.2)
            | _ => none
        | _ => none
    | _ => none

end

/-- Reads a document; nothing but blanks may follow it. -/
def parse? (text : String) : Option Json :=
  let cs := text.toList
  match spanValue (cs.length + 1) cs with
  | some (value, rest) => if (skipBlank rest).isEmpty then some value else none
  | none => none

end Motif.Json
