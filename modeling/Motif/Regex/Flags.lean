import Motif.Regex.Basic
import Motif.Text.CaseFold

/-!
# Flags

How the text of an expression is read. Flags can change within the text, up to the end of the group
in which they change.
-/

namespace Motif.Regex

open Text

structure Flags where
  /-- Letters stand for both cases. -/
  caseless : Bool := false
  /-- `^` and `$` match at the ends of lines. -/
  multiline : Bool := false
  /-- `.` matches a line break too. -/
  dotAll : Bool := false
  /-- Repetitions are as short as possible unless a question mark follows them. -/
  lazyFirst : Bool := false
  /-- Classes of characters are those of all scripts. -/
  unicode : Bool := true
  /-- Carriage returns end lines too. -/
  carriageReturns : Bool := false
  /-- Blanks and comments in the text mean nothing. -/
  verbose : Bool := false
  deriving Repr, DecidableEq

namespace Flags

def ofText (letters : String) : Flags :=
  { caseless := letters.toList.contains 'i'
    multiline := letters.toList.contains 'm'
    dotAll := letters.toList.contains 's' }

def update? (f : Flags) (letter : Char) (on : Bool) : Option Flags :=
  match letter with
  | 'i' => some { f with caseless := on }
  | 'm' => some { f with multiline := on }
  | 's' => some { f with dotAll := on }
  | 'U' => some { f with lazyFirst := on }
  | 'u' => some { f with unicode := on }
  | 'R' => some { f with carriageReturns := on }
  | 'x' => some { f with verbose := on }
  | _ => none

/-- The flags after the letters of a group. A hyphen divides those to turn on from those to turn
off, of which there is at least one; no letter stands there twice. -/
def updateAll? (f : Flags) (letters : List Char) : Option Flags :=
  if !letters.Nodup || letters.getLast? == some '-' then none
  else
    let on := letters.takeWhile (· != '-')
    let off := (letters.dropWhile (· != '-')).drop 1
    do off.foldlM (fun f c => f.update? c false) (← on.foldlM (fun f c => f.update? c true) f)

/-- The members of a set, and those that differ only in case if letters stand for both cases. -/
def fold (f : Flags) (s : CharSet) : CharSet :=
  if !f.caseless then s else if f.unicode then CaseFold.close s else CaseFold.closeAscii s

/-- All but the members of a set. Without the characters of all scripts there is no such set: it
would have to hold bytes that are no characters. -/
def negate? (f : Flags) (s : CharSet) : Option CharSet := if f.unicode then some s.complement else none

def negateIf? (f : Flags) (negated : Bool) (s : CharSet) : Option CharSet :=
  if negated then f.negate? s else some s

end Flags

/-! ## Blanks -/

def isBlank (c : Char) : Bool := CharClass.space.contains c.toNat

/-- What follows blanks and comments. A comment begins with a number sign and ends with its line. -/
def dropBlanks : (inComment : Bool) → List Char → List Char
  | _, [] => []
  | true, c :: cs => dropBlanks (c != '\n') cs
  | false, c :: cs =>
    if isBlank c then dropBlanks false cs
    else if c == '#' then dropBlanks true cs
    else c :: cs

namespace Flags

def skip (f : Flags) (cs : List Char) : List Char := if f.verbose then dropBlanks false cs else cs

/-- The next character, if blanks mean nothing the next that is not blank. A number sign is passed
over, but not the comment after it. -/
def peek (f : Flags) (cs : List Char) : Option Char :=
  if f.verbose then
    let next := match cs.dropWhile isBlank with
      | '#' :: rest => (rest.dropWhile isBlank).head?
      | rest => rest.head?
    next <|> cs.head?
  else cs.head?

end Flags

end Motif.Regex
