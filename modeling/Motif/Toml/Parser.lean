import Motif.Toml
import Motif.Text.Quoted

/-!
# Reading TOML documents

Readers take a part of the document from the front of its characters and answer with the part and
the characters that are left, or with `none` where the part is not well formed.
-/

namespace Motif.Toml

abbrev Reader (α : Type) := List Char → Option (α × List Char)

def isBlank (c : Char) : Bool := c == ' ' || c == '\t'

def skipBlank (cs : List Char) : List Char := cs.dropWhile isBlank

/-- Control characters stand in no string and no comment, tabulators excepted. -/
def isPrinting (c : Char) : Bool := c == '\t' || (' ' ≤ c && c != '\x7f')

def skipComment : List Char → Option (List Char)
  | '#' :: rest =>
    let rest := rest.dropWhile fun c => isPrinting c || c == '\x7f'
    match rest with
    | [] | '\n' :: _ | '\r' :: '\n' :: _ => some rest
    | _ => none
  | cs => some cs

def skipNewline? : List Char → Option (List Char)
  | '\n' :: rest => some rest
  | '\r' :: '\n' :: rest => some rest
  | _ => none

/-- Drops blanks, comments and line ends, on at most `fuel` lines. -/
def skipLines : Nat → List Char → Option (List Char)
  | 0, _ => none
  | fuel + 1, cs =>
    (skipComment (skipBlank cs)).bind fun rest =>
      match skipNewline? rest with
      | some rest => skipLines fuel rest
      | none => some rest

/-! ## Strings -/

def hexNumber? (digits : List Char) : Option Nat :=
  digits.foldlM (fun n c => (Text.Quoted.hexValue? c).map fun d => 16 * n + d) 0

def charOf? (n : Nat) : Option Char := if n.isValidChar then some (Char.ofNat n) else none

def spanEscape : Reader Char
  | 'b' :: rest => some ('\x08', rest)
  | 't' :: rest => some ('\t', rest)
  | 'n' :: rest => some ('\n', rest)
  | 'f' :: rest => some ('\x0c', rest)
  | 'r' :: rest => some ('\r', rest)
  | '"' :: rest => some ('"', rest)
  | '\\' :: rest => some ('\\', rest)
  | 'u' :: rest =>
    if rest.length < 4 then none
    else ((hexNumber? (rest.take 4)).bind charOf?).map fun c => (c, rest.drop 4)
  | 'U' :: rest =>
    if rest.length < 8 then none
    else ((hexNumber? (rest.take 8)).bind charOf?).map fun c => (c, rest.drop 8)
  | _ => none

def spanBasic : Nat → List Char → Reader String
  | 0, _, _ => none
  | fuel + 1, done, cs =>
    match cs with
    | '"' :: rest => some (String.ofList done.reverse, rest)
    | '\\' :: rest => (spanEscape rest).bind fun (c, rest) => spanBasic fuel (c :: done) rest
    | c :: rest => if isPrinting c then spanBasic fuel (c :: done) rest else none
    | [] => none

def spanLiteral (cs : List Char) : Option (String × List Char) :=
  let inside := fun c => isPrinting c && c != '\x27'
  match cs.dropWhile inside with
  | '\x27' :: rest => some (String.ofList (cs.takeWhile inside), rest)
  | _ => none

/-- Takes the end of a string over several lines, after its three closing quotes: up to two quotes
more belong to the text. -/
def spanClosing (quote : Char) (done : List Char) (cs : List Char) : String × List Char :=
  let more := (cs.take 2).takeWhile (· == quote)
  (String.ofList (done.reverse ++ more), cs.drop more.length)

def skipFirstNewline (cs : List Char) : List Char := (skipNewline? cs).getD cs

/-- Takes a string over several lines, after its opening quotes. A backslash at the end of a line
takes away all blanks and line ends up to the next character. -/
def spanLongBasic : Nat → List Char → Reader String
  | 0, _, _ => none
  | fuel + 1, done, cs =>
    match cs with
    | '"' :: '"' :: '"' :: rest => some (spanClosing '"' done rest)
    | '\r' :: '\n' :: rest => spanLongBasic fuel ('\n' :: done) rest
    | '\n' :: rest => spanLongBasic fuel ('\n' :: done) rest
    | '\\' :: rest =>
      match skipNewline? (skipBlank rest) with
      | some rest => spanLongBasic fuel done (skipGap fuel rest)
      | none => (spanEscape rest).bind fun (c, rest) => spanLongBasic fuel (c :: done) rest
    | c :: rest => if isPrinting c then spanLongBasic fuel (c :: done) rest else none
    | [] => none
where
  skipGap : Nat → List Char → List Char
    | 0, cs => cs
    | fuel + 1, cs =>
      match skipNewline? (skipBlank cs) with
      | some rest => skipGap fuel rest
      | none => skipBlank cs

/-- Takes a string over several lines without escapes, after its opening quotes. -/
def spanLongLiteral (done : List Char) : Reader String
  | '\x27' :: '\x27' :: '\x27' :: rest => some (spanClosing '\x27' done rest)
  | '\r' :: '\n' :: rest => spanLongLiteral ('\n' :: done) rest
  | '\n' :: rest => spanLongLiteral ('\n' :: done) rest
  | c :: rest => if isPrinting c then spanLongLiteral (c :: done) rest else none
  | [] => none

def spanString : Reader String
  | '"' :: '"' :: '"' :: rest => spanLongBasic (rest.length + 1) [] (skipFirstNewline rest)
  | '\x27' :: '\x27' :: '\x27' :: rest => spanLongLiteral [] (skipFirstNewline rest)
  | '"' :: rest => spanBasic (rest.length + 1) [] rest
  | '\x27' :: rest => spanLiteral rest
  | _ => none

/-! ## Keys -/

def isBare (c : Char) : Bool := c.isAlphanum || c == '_' || c == '-'

def spanKey (cs : List Char) : Option (String × List Char) :=
  match cs with
  | '"' :: rest => spanBasic (rest.length + 1) [] rest
  | '\x27' :: rest => spanLiteral rest
  | _ =>
    let name := cs.takeWhile isBare
    if name.isEmpty then none else some (String.ofList name, cs.dropWhile isBare)

/-- Values and keys nest less deeply than this. -/
def maxDepth : Nat := 80

def spanKeys : Nat → Reader (List String)
  | 0, _ => none
  | fuel + 1, cs =>
    (spanKey (skipBlank cs)).bind fun (key, rest) =>
      match skipBlank rest with
      | '.' :: rest => (spanKeys fuel rest).map fun (keys, rest) => (key :: keys, rest)
      | rest => some ([key], rest)

/-! ## Dates and times -/

/-- Takes a number of exactly the given number of digits that lies between two bounds. -/
def spanDigits (count least greatest : Nat) (cs : List Char) : Option (Nat × List Char) :=
  let digits := cs.take count
  let n := digits.foldl (fun n c => 10 * n + (c.toNat - '0'.toNat)) 0
  if digits.length == count && digits.all Char.isDigit && least ≤ n && n ≤ greatest then
    some (n, cs.drop count)
  else none

def expect? (c : Char) : List Char → Option (List Char)
  | d :: rest => if d == c then some rest else none
  | [] => none

def daysIn (year month : Nat) : Nat :=
  let isLeap := year % 4 == 0 && (year % 100 != 0 || year % 400 == 0)
  match month with
  | 2 => if isLeap then 29 else 28
  | 4 | 6 | 9 | 11 => 30
  | _ => 31

def skipDate? (cs : List Char) : Option (List Char) := do
  let (year, rest) ← spanDigits 4 0 9999 cs
  let (month, rest) ← spanDigits 2 1 12 (← expect? '-' rest)
  let (_, rest) ← spanDigits 2 1 (daysIn year month) (← expect? '-' rest)
  return rest

def skipMinutes? (cs : List Char) : Option (List Char) := do
  let (_, rest) ← spanDigits 2 0 23 cs
  let (_, rest) ← spanDigits 2 0 59 (← expect? ':' rest)
  return rest

/-- Drops a time: hours, minutes and seconds, which may be a leap second and may have a fraction. -/
def skipTime? (cs : List Char) : Option (List Char) := do
  let (_, rest) ← spanDigits 2 0 60 (← expect? ':' (← skipMinutes? cs))
  match rest with
  | '.' :: c :: more => return if c.isDigit then more.dropWhile Char.isDigit else rest
  | _ => return rest

/-- Drops the distance from universal time, if there is one. -/
def skipOffset? : List Char → Option (List Char)
  | 'Z' :: rest | 'z' :: rest => some rest
  | '+' :: rest | '-' :: rest => skipMinutes? rest
  | cs => some cs

/-- Drops the time of a date, after a letter or a space, and its distance from universal time. -/
def skipDayTime? (cs : List Char) : Option (List Char) :=
  match cs with
  | 'T' :: rest | 't' :: rest | ' ' :: rest =>
    match skipTime? rest with
    | some rest => skipOffset? rest
    | none => some cs
  | _ => some cs

def spanDatetime (cs : List Char) : Option (Toml × List Char) := do
  let rest ← match skipDate? cs with
    | some rest => skipDayTime? rest
    | none => skipTime? cs
  return (.datetime (String.ofList (cs.take (cs.length - rest.length))), rest)

/-! ## Numbers -/

/-- Drops the underscores of digits; each of them stands between two digits. -/
def digits? (accepts : Char → Bool) : List Char → Option (List Char)
  | [] => none
  | [c] => if accepts c then some [c] else none
  | c :: '_' :: rest => if accepts c then (digits? accepts rest).map (c :: ·) else none
  | c :: rest => if accepts c then (digits? accepts rest).map (c :: ·) else none

def natIn (base : Nat) (digits : List Char) : Nat :=
  digits.foldl (fun n c => base * n + (Text.Quoted.hexValue? c).getD 0) 0

/-- Integers have 64 bits. -/
def integer? (n : Int) : Option Toml :=
  if Int64.minValue.toInt ≤ n ∧ n ≤ Int64.maxValue.toInt then some (.integer n) else none

def based? (base : Nat) (cs : List Char) : Option Toml :=
  let accepts := fun c => ((Text.Quoted.hexValue? c).getD base) < base
  (digits? accepts cs).bind fun digits => integer? (natIn base digits)

/-- Decimal digits without a leading zero, as before the point of a number. -/
def wholePart? (cs : List Char) : Option (List Char) :=
  match digits? Char.isDigit cs with
  | some ('0' :: _ :: _) => none
  | found => found

structure NumberParts where
  whole : List Char
  fraction : Option (List Char)
  exponent : Option (List Char)

def NumberParts.cut (cs : List Char) : NumberParts :=
  let isMark := fun c => c == 'e' || c == 'E'
  let mantissa := cs.takeWhile (! isMark ·)
  let whole := mantissa.takeWhile (· != '.')
  let after := fun (part : List Char) => if part.isEmpty then none else some part.tail
  { whole
    fraction := after (mantissa.drop whole.length)
    exponent := after (cs.drop mantissa.length) }

/-- The digits of a number with a fraction or an exponent, and the power of ten by which they count.
The exponent may have a sign. -/
def NumberParts.scientific? (parts : NumberParts) : Option (List Char × Int) := do
  let whole ← wholePart? parts.whole
  let fraction ← match parts.fraction with
    | some cs => digits? Char.isDigit cs
    | none => some []
  let exponent ← match parts.exponent with
    | some ('-' :: cs) => (digits? Char.isDigit cs).map fun digits => -(natIn 10 digits : Int)
    | some ('+' :: cs) | some cs => (digits? Char.isDigit cs).map fun digits => (natIn 10 digits : Int)
    | none => some 0
  return (whole ++ fraction, exponent - fraction.length)

/-- Whether `n · 10 ^ power` is too large for a finite number of 64 bits, which is what lies half a
step or more above the largest of them. -/
def overflows (n : Nat) (power : Int) : Bool :=
  let places := (Nat.toDigits 10 n).length + power
  if n == 0 || places < 309 then false
  else if 309 < places then true
  else (Nat.pow 2 54 - 1) * Nat.pow 2 970 * Nat.pow 10 (-power).toNat ≤ n * Nat.pow 10 power.toNat

/-- A number in base ten, after its sign. One above zero has to be finite. -/
def decimal? (negative : Bool) (cs : List Char) : Option Toml :=
  let spelling := String.ofList (if negative then '-' :: cs else cs)
  if cs = ['i', 'n', 'f'] ∨ cs = ['n', 'a', 'n'] then some (.float spelling)
  else
    let parts := NumberParts.cut cs
    if parts.fraction.isNone && parts.exponent.isNone then
      (wholePart? parts.whole).bind fun digits =>
        integer? (if negative then -(natIn 10 digits : Int) else natIn 10 digits)
    else
      parts.scientific?.bind fun (digits, power) =>
        if !negative && overflows (natIn 10 digits) power then none else some (.float spelling)

def number? : List Char → Option Toml
  | '0' :: 'x' :: rest => based? 16 rest
  | '0' :: 'o' :: rest => based? 8 rest
  | '0' :: 'b' :: rest => based? 2 rest
  | '+' :: rest => decimal? false rest
  | '-' :: rest => decimal? true rest
  | cs => decimal? false cs

def isPlain (c : Char) : Bool := c.isAlphanum || c == '_' || c == '-' || c == '+' || c == '.'

def spanWord (cs : List Char) : Option (Toml × List Char) :=
  let spelling := cs.takeWhile isPlain
  let rest := cs.dropWhile isPlain
  if spelling = "true".toList then some (.boolean true, rest)
  else if spelling = "false".toList then some (.boolean false, rest)
  else (number? spelling).map fun value => (value, rest)

def spanPlain (cs : List Char) : Option (Toml × List Char) := spanDatetime cs <|> spanWord cs

/-! ## Values -/

/-- Takes the items of an array and its closing bracket. A comma may follow the last item. -/
def spanItems (value : Reader Toml) : Nat → Reader (List Toml)
  | 0, _ => none
  | fuel + 1, cs =>
    (skipLines (cs.length + 1) cs).bind fun rest =>
      match rest with
      | ']' :: rest => some ([], rest)
      | rest =>
        (value rest).bind fun (item, rest) =>
          (skipLines (rest.length + 1) rest).bind fun rest =>
            match rest with
            | ']' :: rest => some ([item], rest)
            | ',' :: rest => (spanItems value fuel rest).map fun (items, rest) => (item :: items, rest)
            | _ => none

def spanAssignment (value : Reader Toml) (cs : List Char) : Option ((List String × Toml) × List Char) :=
  (spanKeys (maxDepth - 1) cs).bind fun (keys, rest) =>
    match rest with
    | '=' :: rest => (value (skipBlank rest)).map fun (value, rest) => ((keys, value), skipBlank rest)
    | _ => none

/-- Takes the assignments of an inline table and its closing brace; there is at least one. -/
def spanAssignments (value : Reader Toml) : Nat → Reader (List (List String × Toml))
  | 0, _ => none
  | fuel + 1, cs =>
    (spanAssignment value cs).bind fun (first, rest) =>
      match rest with
      | '\x7d' :: rest => some ([first], rest)
      | ',' :: rest => (spanAssignments value fuel rest).map fun (others, rest) => (first :: others, rest)
      | _ => none

/-- Takes a value in which arrays and inline tables nest at most `depth` deep. -/
def spanValue : Nat → Reader Toml
  | depth, cs =>
    match cs with
    | '"' :: _ | '\x27' :: _ => (spanString cs).map fun (text, rest) => (.string text, rest)
    | '[' :: rest =>
      match depth with
      | 0 => none
      | depth + 1 =>
        (spanItems (spanValue depth) (rest.length + 1) rest).map fun (items, rest) => (.array items, rest)
    | '\x7b' :: rest =>
      match depth with
      | 0 => none
      | depth + 1 =>
        match skipBlank rest with
        | '\x7d' :: rest => some (.table .inline [], rest)
        | rest =>
          (spanAssignments (spanValue depth) (rest.length + 1) rest).bind fun (entries, rest) =>
            (inline? entries).map fun table => (table, rest)
    | cs => spanPlain cs

/-! ## Documents -/

def lastKey? (keys : List String) : Option (List String × String) :=
  keys.getLast?.map fun key => (keys.dropLast, key)

def spanLine : Reader Line
  | '[' :: '[' :: rest =>
    (spanKeys (maxDepth - 1) rest).bind fun (keys, rest) =>
      match lastKey? keys, rest with
      | some (path, key), ']' :: ']' :: rest => some (.item path key, rest)
      | _, _ => none
  | '[' :: rest =>
    (spanKeys (maxDepth - 1) rest).bind fun (keys, rest) =>
      match lastKey? keys, rest with
      | some (path, key), ']' :: rest => some (.header path key, rest)
      | _, _ => none
  | cs =>
    (spanAssignment (spanValue (maxDepth - 1)) cs).map fun (assignment, rest) =>
      (.assignment assignment.1 assignment.2, rest)

def lines? : Nat → List Char → Option (List Line)
  | 0, _ => none
  | fuel + 1, cs =>
    (skipLines (cs.length + 1) cs).bind fun rest =>
      match rest with
      | [] => some []
      | rest =>
        (spanLine rest).bind fun (line, rest) =>
          (skipComment (skipBlank rest)).bind fun rest =>
            match rest with
            | [] => some [line]
            | rest => (skipNewline? rest).bind fun rest => (lines? fuel rest).map (line :: ·)

/-- Reads a document. A byte order mark may stand before it. -/
def parse? (text : String) : Option Entries :=
  let cs :=
    match text.toList with
    | '\ufeff' :: rest => rest
    | cs => cs
  (lines? (cs.length + 1) cs).bind ofLines?

end Motif.Toml
