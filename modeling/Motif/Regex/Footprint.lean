import Motif.Regex.Basic
import Std.Data.HashMap

/-!
# Footprints

How much memory an automaton over bytes takes for an expression. An expression is refused if the
automaton that reads texts forwards or the one that reads them backwards takes more than the limit.

A state takes 32 bytes. A state that distinguishes several ranges of bytes takes 8 more for each,
and a state with several successors takes 4 more for each. States for the encodings of characters
are shared as far as a table of bounded size remembers them.
-/

namespace Motif.Regex

open Text

namespace Footprint

def limit : Nat := 10 * 1024 * 1024

structure Size where
  states : Nat := 0
  extra : Nat := 0

namespace Size

def bytes (s : Size) : Nat := 32 * s.states + s.extra

def isOver (s : Size) : Bool := limit < s.bytes

def addStates (s : Size) (n : Nat) : Size := { s with states := s.states + n }

def addRanges (s : Size) (n : Nat) : Size := { s with extra := s.extra + 8 * n }

def addLinks (s : Size) (n : Nat) : Size := { s with extra := s.extra + 4 * n }

end Size

/-- An automaton for a part of an expression: its size, and whether its last state is one that can
have several successors, so that going on from it takes memory. -/
structure Part where
  size : Size
  forks : Bool := false

namespace Part

def link (p : Part) : Size := if p.forks then p.size.addLinks 1 else p.size

def closed (size : Size) : Part := { size }

end Part

/-! ## Encodings of characters -/

def slot (size : UInt64) (numbers : List Nat) : Nat :=
  let hash := numbers.foldl (fun h n => (h ^^^ n.toUInt64) * 1099511628211) 14695981039346656037
  (hash % size).toNat

/-- A table that remembers one state for each slot. -/
abbrev Table := Std.HashMap Nat (List Nat × Nat)

def known? (table : Table) (slot : Nat) (numbers : List Nat) : Option Nat :=
  match table[slot]? with
  | some (known, state) => if known == numbers then some state else none
  | none => none

/-- Adds a state with transitions, unless there is such a state already. A transition is the ends of
a range of bytes and the next state. -/
def addNode (transitions : List (Nat × Nat × Nat)) : StateM (Size × Table) Nat := do
  let (size, table) ← get
  let key := transitions.flatMap fun (first, last, next) => [first, last, next]
  let place := slot 10000 key
  match known? table place key with
  | some state => return state
  | none =>
    set ((size.addStates 1).addRanges transitions.length, table.insert place (key, size.states))
    return size.states

/-- Adds states for encodings, of the given greatest length, that lead to a state. Encodings that
begin with the same range of bytes follow each other. -/
def addTree (goal : Nat) : Nat → List Utf8.Pattern → StateM (Size × Table) Nat
  | 0, _ => pure goal
  | depth + 1, patterns => do
    let same := fun (p q : Utf8.Pattern) => p.head? == q.head?
    let transitions ← (patterns.splitBy same).filterMapM fun ps => do
      match ps with
      | (first :: _) :: _ =>
        let rests := (ps.map List.tail).filter fun rest => !rest.isEmpty
        let next ← if rests.isEmpty then pure goal else addTree goal depth rests
        return some (first.1, first.2, next)
      | _ => return none
    addNode transitions

def setForwards (s : CharSet) (size : Size) : Size :=
  let goal := size.states
  (addTree goal 4 (Utf8.ofSet s) (size.addStates 1, ∅)).2.1

def addBackwards : Utf8.Pattern → Nat → Size × Table → Size × Table
  | [], _, acc => acc
  | (first, last) :: rest, goal, (size, table) =>
    let key := [goal, first, last]
    let place := slot 1000 key
    match known? table place key with
    | some state => addBackwards rest state (size, table)
    | none => addBackwards rest size.states (size.addStates 1, table.insert place (key, size.states))

/-- The states of a set of characters, read backwards: a state with all encodings as successors. -/
def setBackwards (s : CharSet) (size : Size) : Size :=
  let goal := size.states + 1
  let step := fun (acc : Size × Table) pattern =>
    let (size, table) := addBackwards pattern goal acc
    (size.addLinks 1, table)
  ((Utf8.ofSet s).foldl step (size.addStates 2, ∅)).1

/-- The states of a set of characters. ASCII characters need one state and its successor. -/
def addSet (backwards : Bool) (s : CharSet) (size : Size) : Size :=
  if s.isAscii then (size.addStates 2).addRanges s.ranges.size
  else if backwards then setBackwards s size
  else setForwards s size

/-! ## Choices between literals -/

def chunks (texts : List (List UInt8)) : List (List (List UInt8)) :=
  texts.foldr (fun t acc =>
    match t, acc with
    | [], acc => [] :: acc
    | t, chunk :: rest => (t :: chunk) :: rest
    | t, [] => [[t]]) [[]]

def firstBytes (texts : List (List UInt8)) : List UInt8 := (texts.filterMap List.head?).eraseDups

/-- The states of a tree of texts, which is as deep as the longest text. A text that ends where
another goes on divides the texts before it from those after it. -/
def addTrie : Nat → List (List UInt8) → Size → Size
  | 0, _, size => size
  | depth + 1, texts, size =>
    let chunks := chunks texts
    let full := chunks.filter fun chunk => !chunk.isEmpty
    let size := full.foldl (fun size chunk =>
      let bytes := firstBytes chunk
      let size := bytes.foldl (fun size b =>
        let rests := (chunk.filter fun t => t.head? == some b).map List.tail
        if rests.all List.isEmpty then size else addTrie depth rests size) size
      let size := size.addStates 1
      if bytes.length == 1 then size else size.addRanges bytes.length) size
    (size.addStates 1).addLinks (full.length + (chunks.length - 1))

def literalBytes? : Regex → Option (List UInt8)
  | .literal cs => some (String.ofList cs).toUTF8.toList
  | _ => none

def addTexts (backwards : Bool) (texts : List (List UInt8)) (size : Size) : Size :=
  let texts := if backwards then texts.map List.reverse else texts
  let depth := texts.foldl (fun n t => Nat.max n t.length) 0
  addTrie depth texts (size.addStates 1)

/-! ## Expressions -/

/-- Something a number of times, one after the other, after what is there. -/
def times (add : Size → Part) : Nat → Part → Part
  | 0, p => p
  | n + 1, p =>
    if p.size.isOver then p
    else
      let next := add p.size
      times add n { next with size := if p.forks then next.size.addLinks 1 else next.size }

/-- Something a number of times in a row, or one state if it is done no time. -/
def exactly (add : Size → Part) (n : Nat) (size : Size) : Part :=
  match n with
  | 0 => .closed (size.addStates 1)
  | n + 1 => times add n (add size)

/-- Something up to a number of times in a row, each time with a state that can leave it out. -/
def optionally (add : Size → Part) : Nat → Part → Part
  | 0, p => p
  | n + 1, p =>
    if p.size.isOver then p
    else
      let next := add (p.link.addStates 1)
      optionally add n { next with size := next.size.addLinks 2 }

def atLeast (add : Size → Part) (takesSome : Bool) (n : Nat) (size : Size) : Part :=
  match n with
  | 0 =>
    if takesSome then { size := (add (size.addStates 1)).link.addLinks 1, forks := true }
    else .closed (((add size).link.addStates 3).addLinks 4)
  | 1 => { size := ((add size).link.addStates 1).addLinks 1, forks := true }
  | n + 2 =>
    let last := times add 1 (exactly add (n + 1) size)
    { size := (last.link.addStates 1).addLinks 1, forks := true }

mutual

def add (backwards : Bool) : Regex → Size → Part
  | .empty, size | .anchor _, size => .closed (size.addStates 1)
  | .literal cs, size => .closed (size.addStates (byteCount cs))
  | .oneOf s, size => .closed (addSet backwards s size)
  | .group _ r, size =>
    if backwards then add backwards r size
    else .closed ((add backwards r (size.addStates 1)).link.addStates 1)
  | .seq rs, size => addSeq backwards rs { size }
  | .alt rs, size =>
    match rs.mapM literalBytes? with
    | some texts => .closed (addTexts backwards texts size)
    | none => .closed (addAlt backwards rs 0 size)
  | .count r min none _, size => atLeast (add backwards r) r.takesSome min size
  | .count r min (some max) _, size =>
    if min == 0 && max == 1 then
      .closed (((add backwards r (size.addStates 1)).link.addStates 1).addLinks 2)
    else
      let required := exactly (add backwards r) min size
      if min == max then required
      else
        let start := { required with size := required.size.addStates 1 }
        .closed (optionally (add backwards r) (max - min) start).link

def addSeq (backwards : Bool) : List Regex → Part → Part
  | [], p => p
  | r :: rs, p =>
    if backwards then
      let rest := addSeq backwards rs p
      let part := add backwards r rest.size
      { part with size := if rest.forks then part.size.addLinks 1 else part.size }
    else
      let part := add backwards r p.size
      addSeq backwards rs { part with size := if p.forks then part.size.addLinks 1 else part.size }

/-- Alternatives, of which the first `done` are there. The state that leads to them and the one that
they lead to come after the second. -/
def addAlt (backwards : Bool) : List Regex → (done : Nat) → Size → Size
  | [], _, size => size
  | r :: rs, done, size =>
    let size := (add backwards r size).link.addLinks 1
    addAlt backwards rs (done + 1) (if done == 1 then size.addStates 2 else size)

end

/-! ## A quick estimate -/

/-- At least as many encodings as a range of code points has. -/
def patternBound (r : Nat × Nat) : Nat :=
  if r.1 / 64 == r.2 / 64 then 1 else if Utf8.width r.1 == Utf8.width r.2 then 14 else 28

mutual

/-- No automaton of an expression takes more bytes than this. -/
def bound : Regex → Nat
  | .empty | .anchor _ => 32
  | .literal cs => 96 * byteCount cs + 32
  | .oneOf s => s.ranges.foldl (fun n r => n + 168 * patternBound r) 64
  | .group _ r => bound r + 64
  | .seq rs | .alt rs => boundAll rs + 64
  | .count r min max _ => (max.getD (min + 1)) * (bound r + 48) + 160

def boundAll : List Regex → Nat
  | [] => 0
  | r :: rs => bound r + boundAll rs + 8

end

/-! ## The whole automaton -/

mutual

def startsText : Regex → Bool
  | .anchor a => a == .textStart
  | .group _ r => startsText r
  | .seq rs => seqStartsText rs
  | .alt rs => altStartsText rs
  | .count r min _ _ => 0 < min && startsText r
  | _ => false

def seqStartsText : List Regex → Bool
  | [] => false
  | r :: rs => startsText r || (r.takesNone && seqStartsText rs)

def altStartsText : List Regex → Bool
  | [] => true
  | r :: rs => startsText r && altStartsText rs

end

mutual

def endsText : Regex → Bool
  | .anchor a => a == .textEnd
  | .group _ r => endsText r
  | .seq rs => (seqEndsText rs).1
  | .alt rs => altEndsText rs
  | .count r min _ _ => 0 < min && endsText r
  | _ => false

/-- Whether a sequence can only end at the end of the text, and whether it takes no character. -/
def seqEndsText : List Regex → Bool × Bool
  | [] => (false, true)
  | r :: rs =>
    let (ends, bare) := seqEndsText rs
    (ends || (bare && endsText r), bare && r.takesNone)

def altEndsText : List Regex → Bool
  | [] => true
  | r :: rs => endsText r && altEndsText rs

end

/-- The size of an automaton that reads a text in a direction. A match can begin anywhere unless the
expression is tied to an end of the text. -/
def ofRegex (backwards : Bool) (r : Regex) : Size :=
  let tied := if backwards then endsText r else startsText r
  let start : Size := if tied then { states := 1 } else { states := 3, extra := 16 }
  (add backwards (.group 0 r) start).link.addStates 1

end Footprint

/-- Whether the automata of an expression stay within the limit. Most do so by far, which the
estimate shows. -/
def fits (r : Regex) : Bool :=
  Footprint.bound r + 256 ≤ Footprint.limit ||
    (!(Footprint.ofRegex false r).isOver && !(Footprint.ofRegex true r).isOver)

end Motif.Regex
