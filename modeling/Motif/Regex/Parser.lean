import Motif.Regex.Bracket

/-!
# Reading regular expressions

The text is read from left to right, with a stack of the groups that are open. Each piece knows how
deep it is, for expressions that are too deep are refused.
-/

namespace Motif.Regex

open Text

/-! ## Pieces -/

structure Piece where
  regex : Regex
  /-- How many levels of sets, repetitions, groups, sequences and choices it has. -/
  depth : Nat := 0
  repeatable : Bool := true

/-- What has been read of a group: the finished alternatives, and the pieces of the current one,
both last first. -/
structure Group where
  alternatives : List Piece := []
  pieces : List Piece := []

namespace Group

def push (g : Group) (p : Piece) : Group := { g with pieces := p :: g.pieces }

def deeper (ps : List Piece) : Nat := (ps.map Piece.depth).foldl Nat.max 0 + 1

def current (g : Group) : Piece :=
  match g.pieces with
  | [] => { regex := .empty }
  | [p] => p
  | ps => { regex := sequence (ps.map Piece.regex).reverse, depth := deeper ps }

def nextAlternative (g : Group) : Group := { alternatives := g.current :: g.alternatives }

def close (g : Group) : Piece :=
  match g.alternatives with
  | [] => g.current
  | _ =>
    let ps := g.current :: g.alternatives
    { regex := choice (ps.map Piece.regex).reverse, depth := deeper ps }

def repeatLast? (g : Group) (min : Nat) (max : Option Nat) (greedy : Bool) : Option Group :=
  match g.pieces with
  | [] => none
  | p :: ps =>
    if p.repeatable then
      some { g with pieces := { regex := repeated p.regex min max greedy, depth := p.depth + 1 } :: ps }
    else none

end Group

/-! ## Counted repetitions -/

def maxCount : Nat := 0xFFFFFFFF

def countDigits (f : Flags) : Nat → List Char → List Char × List Char
  | n + 1, c :: cs =>
    if c.isDigit then
      let (digits, rest) := countDigits f n (f.skip cs)
      (c :: digits, rest)
    else ([], c :: cs)
  | _, cs => ([], cs)

def decimal (f : Flags) (cs : List Char) : Option (Nat × List Char) :=
  let (digits, rest) := countDigits f cs.length (cs.dropWhile isBlank)
  let value := digits.foldl (fun n d => n * 10 + (d.toNat - '0'.toNat)) 0
  if digits.isEmpty || maxCount < value then none
  else some (value, f.skip (rest.dropWhile isBlank))

def counted (f : Flags) (cs : List Char) : Option ((Nat × Option Nat) × List Char) := do
  let (min, rest) ← decimal f (f.skip cs)
  match rest with
  | '\x7d' :: rest => some ((min, some min), rest)
  | ',' :: rest =>
    match f.skip rest with
    | '\x7d' :: rest => some ((min, none), rest)
    | rest =>
      let (max, '\x7d' :: rest) ← decimal f rest | none
      if min ≤ max then some ((min, some max), rest) else none
  | _ => none

/-! ## Groups -/

def isNameStart (letters : CharSet) (c : Char) : Bool := c == '_' || letters.contains c.toNat

def isNameChar (letters numbers : CharSet) (c : Char) : Bool :=
  c == '_' || c == '.' || c == '[' || c == ']' || letters.contains c.toNat ||
    numbers.contains c.toNat

def groupName (cs : List Char) : Option (String × List Char) := do
  let letters ← Property.byName? "Alphabetic"
  let numbers ← Property.byName? "Number"
  let name := cs.takeWhile (isNameChar letters numbers)
  match cs.drop name.length with
  | '>' :: rest => if name.head?.any (isNameStart letters) then some (String.ofList name, rest) else none
  | _ => none

inductive GroupStart where
  /-- A group whose text is kept, with its name if it has one. -/
  | kept (name : Option String)
  | plain (flags : Flags)
  /-- No group, but flags for the rest of the group around it. -/
  | setting (flags : Flags)

def groupFlags (f : Flags) (cs : List Char) : Option (GroupStart × List Char) := do
  let letters := cs.takeWhile fun c => c != ':' && c != ')'
  let flags ← f.updateAll? letters
  match cs.drop letters.length with
  | ':' :: rest => some (.plain flags, rest)
  | ')' :: rest => if letters.isEmpty then none else some (.setting flags, rest)
  | _ => none

def groupStart (f : Flags) (cs : List Char) : Option (GroupStart × List Char) :=
  match f.skip cs with
  | '?' :: 'P' :: '<' :: rest => (groupName rest).map fun (name, rest) => (.kept (some name), rest)
  | '?' :: '<' :: rest => (groupName rest).map fun (name, rest) => (.kept (some name), rest)
  | '?' :: rest => groupFlags f rest
  | cs => some (.kept none, cs)

/-! ## Single pieces -/

/-- A character, in both cases if letters stand for both. Only the letters of ASCII do so where
classes are not those of all scripts. -/
def literalRegex (f : Flags) (code : Nat) : Regex :=
  if f.unicode || code < 128 then ofSet (f.fold (.single code)) else .literal [Char.ofNat code]

/-- Any character that the dot stands for; without the characters of all scripts it would stand for
bytes that are no characters. -/
def dot? (f : Flags) : Option Regex :=
  let excluded := if f.dotAll then [] else if f.carriageReturns then [10, 13] else [10]
  if f.unicode then some (ofSet (CharSet.ofRanges (excluded.map fun c => (c, c))).complement)
  else none

def lineStart (f : Flags) : Anchor :=
  if !f.multiline then .textStart else if f.carriageReturns then .lineStartCr else .lineStart

def lineEnd (f : Flags) : Anchor :=
  if !f.multiline then .textEnd else if f.carriageReturns then .lineEndCr else .lineEnd

def piece (f : Flags) : List Char → Option (Piece × List Char)
  | [] => none
  | '[' :: rest => do
    let (c, rest) ← bracketed f rest
    return ({ regex := ofSet c.set, depth := c.depth }, rest)
  | '\\' :: rest => do
    match ← escape f rest with
    | (.literal code byte, rest) =>
      if byte && !f.unicode && 127 < code then none
      else return ({ regex := literalRegex f code }, rest)
    | (.set s, rest) => return ({ regex := ofSet s }, rest)
    | (.anchor a, rest) => return ({ regex := .anchor a }, rest)
  | '^' :: rest => some ({ regex := .anchor (lineStart f) }, rest)
  | '$' :: rest => some ({ regex := .anchor (lineEnd f) }, rest)
  | '.' :: rest => (dot? f).map fun r => ({ regex := r }, rest)
  | c :: rest => some ({ regex := literalRegex f c.toNat }, rest)

/-! ## The whole text -/

/-- A group that is open: the number it has if its text is kept, what stands before it in the group
around it, and the flags there. -/
structure Outer where
  index : Option Nat
  group : Group
  flags : Flags

structure State where
  flags : Flags
  group : Group := {}
  outer : List Outer := []
  kept : Nat := 0
  names : List String := []

namespace State

def openGroup? (s : State) : GroupStart → Option State
  | .kept name =>
    let names := match name with
      | some name => name :: s.names
      | none => s.names
    if names.Nodup then
      some { s with
        group := {}
        outer := ⟨some (s.kept + 1), s.group, s.flags⟩ :: s.outer
        kept := s.kept + 1
        names }
    else none
  | .plain flags => some { s with group := {}, outer := ⟨none, s.group, s.flags⟩ :: s.outer, flags }
  | .setting flags => some { s with group := s.group.push { regex := .empty, repeatable := false }, flags }

def closeGroup? (s : State) : Option State :=
  match s.outer with
  | [] => none
  | o :: outer =>
    let p := s.group.close
    let regex := match o.index with
      | some index => .group index p.regex
      | none => p.regex
    some { s with group := o.group.push { regex, depth := p.depth + 1 }, outer, flags := o.flags }

/-- Repeats the last piece. A question mark turns around how long the repetition is. -/
def repeatLast (s : State) (min : Nat) (max : Option Nat) (cs : List Char) :
    Option (State × List Char) := do
  let (other, rest) := match cs with
    | '?' :: rest => (true, rest)
    | _ => (false, cs)
  let group ← s.group.repeatLast? min max (other == s.flags.lazyFirst)
  return ({ s with group }, rest)

def next (s : State) : List Char → Option (State × List Char)
  | '(' :: rest => do
    let (start, rest) ← groupStart s.flags rest
    return (← s.openGroup? start, rest)
  | ')' :: rest => (s.closeGroup?).map (·, rest)
  | '|' :: rest => some ({ s with group := s.group.nextAlternative }, rest)
  | '?' :: rest => s.repeatLast 0 (some 1) rest
  | '*' :: rest => s.repeatLast 0 none rest
  | '+' :: rest => s.repeatLast 1 none rest
  | '\x7b' :: rest => do
    let ((min, max), rest) ← counted s.flags rest
    s.repeatLast min max (s.flags.skip rest)
  | cs => do
    let (p, rest) ← piece s.flags cs
    return ({ s with group := s.group.push p }, rest)

def readAll : Nat → State → List Char → Option State
  | n, s, cs =>
    match n, s.flags.skip cs with
    | _, [] => some s
    | 0, _ => none
    | n + 1, cs => do
      let (s, rest) ← s.next cs
      s.readAll n rest

end State

def maxDepth : Nat := 250

def parse? (pattern flags : String) : Option Regex := do
  let s ← State.readAll pattern.length { flags := .ofText flags } pattern.toList
  let [] := s.outer | none
  let p := s.group.close
  if p.depth ≤ maxDepth then some p.regex else none

end Motif.Regex
