import Motif.Regex.Anchor
import Motif.Text.Utf8

/-!
# Regular expressions

Expressions, and how they are put together: `ofSet`, `repeated`, `sequence` and `choice` give equal
expressions for some equal things, so that `sequence` has no sequence as a part, and `choice` no
choice.
-/

namespace Motif

open Text

inductive Regex where
  | empty
  /-- Some characters, one after the other. -/
  | literal (text : List Char)
  | oneOf (chars : CharSet)
  | anchor (a : Regex.Anchor)
  | group (index : Nat) (r : Regex)
  | seq (rs : List Regex)
  | alt (rs : List Regex)
  /-- At least `min` times in a row, and at most `max` times if there is such a bound; as often as
  possible or as seldom as possible. -/
  | count (r : Regex) (min : Nat) (max : Option Nat) (greedy : Bool)
  deriving Repr, BEq, Inhabited

namespace Regex

def byteCount (cs : List Char) : Nat := cs.foldl (fun n c => n + Utf8.width c.toNat) 0

mutual

/-- The least and the greatest number of bytes of a match. There is no least number if nothing
matches, and no greatest if there is no bound. -/
def lengths : Regex → Option Nat × Option Nat
  | .empty | .anchor _ => (some 0, some 0)
  | .literal cs => (some (byteCount cs), some (byteCount cs))
  | .oneOf s => (s.ranges[0]?.map fun r => Utf8.width r.1, s.ranges.back?.map fun r => Utf8.width r.2)
  | .group _ r => lengths r
  | .seq rs => seqLengths rs
  | .alt rs => altLengths rs
  | .count r min max _ =>
    let (least, greatest) := lengths r
    (least.map (· * min), greatest.bind fun n => max.map (n * ·))

def seqLengths : List Regex → Option Nat × Option Nat
  | [] => (some 0, some 0)
  | r :: rs =>
    let ((least, greatest), (least', greatest')) := (lengths r, seqLengths rs)
    (least.bind fun n => least'.map (n + ·), greatest.bind fun n => greatest'.map (n + ·))

def altLengths : List Regex → Option Nat × Option Nat
  | [] => (none, none)
  | [r] => lengths r
  | r :: rs =>
    let ((least, greatest), (least', greatest')) := (lengths r, altLengths rs)
    (least.bind fun n => least'.map (Nat.min n), greatest.bind fun n => greatest'.map (Nat.max n))

end

def takesSome (r : Regex) : Bool := r.lengths.1.any (0 < ·)

def takesNone (r : Regex) : Bool := r.lengths.2 == some 0

def ofSet (s : CharSet) : Regex :=
  match s.theOnly? with
  | some code => .literal [Char.ofNat code]
  | none => .oneOf s

/-- A repetition. What takes no character is repeated once at most. -/
def repeated (r : Regex) (min : Nat) (max : Option Nat) (greedy : Bool) : Regex :=
  let (min, max) := if r.takesNone then (Nat.min min 1, some (Nat.min (max.getD 1) 1)) else (min, max)
  if max == some 0 then .empty
  else if min == 1 && max == some 1 then r
  else .count r min max greedy

def parts : Regex → List Regex
  | .empty => []
  | .seq rs => rs
  | r => [r]

def joinLiterals : List Regex → List Regex
  | [] => []
  | r :: rs =>
    match r, joinLiterals rs with
    | .literal cs, .literal ds :: rest => .literal (cs ++ ds) :: rest
    | r, rest => r :: rest

def sequence (rs : List Regex) : Regex :=
  match joinLiterals (rs.flatMap parts) with
  | [] => .empty
  | [r] => r
  | rs => .seq rs

def alternatives : Regex → List Regex
  | .alt rs => rs
  | r => [r]

def charSet? : Regex → Option CharSet
  | .oneOf s => some s
  | _ => none

def onlyChar? : Regex → Option Char
  | .literal [c] => some c
  | _ => none

def commonStart : List Regex → List Regex → List Regex
  | r :: rs, s :: ss => if r == s then r :: commonStart rs ss else []
  | _, _ => []

/-- The parts with which all of some sequences begin. Anything else begins with nothing. -/
def sharedStart : List Regex → List Regex
  | .seq rs :: others =>
    others.foldl (fun shared r =>
      match r with
      | .seq ss => commonStart shared ss
      | _ => []) rs
  | _ => []

/-- One of some expressions. Choices between characters become sets, and what all alternatives begin
with is taken out; the remaining alternatives are a choice again, which is shorter. -/
def choiceUpTo : Nat → List Regex → Regex
  | fuel, rs =>
    match rs.flatMap alternatives with
    | [] => .oneOf .empty
    | [r] => r
    | rs =>
      match rs.mapM onlyChar?, rs.mapM charSet? with
      | some cs, _ => ofSet (.ofRanges (cs.map fun c => (c.toNat, c.toNat)))
      | none, some sets => ofSet (sets.foldl CharSet.union .empty)
      | none, none =>
        match fuel, sharedStart rs with
        | fuel + 1, first :: more =>
          let shared := first :: more
          let rests := rs.map fun r => sequence (r.parts.drop shared.length)
          sequence (shared ++ [choiceUpTo fuel rests])
        | _, _ => .alt rs

/-- One of some expressions. Alternatives become shorter at most as often as the first has parts. -/
def choice (rs : List Regex) : Regex :=
  choiceUpTo (((rs.flatMap alternatives).map fun r => r.parts.length).foldl Nat.max 0) rs

end Regex

end Motif
