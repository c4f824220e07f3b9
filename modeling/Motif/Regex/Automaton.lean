import Motif.Regex.Basic

/-!
# Automata

An expression becomes a list of steps, each of which names the steps that may follow. A text is
read once from left to right; at each position the steps that can be reached are known, so the time
is the length of the text times the number of steps.
-/

namespace Motif.Regex

open Text

inductive Step where
  | char (code : Nat) (next : Nat)
  | oneOf (chars : CharSet) (next : Nat)
  | anchor (a : Anchor) (next : Nat)
  | fork (left right : Nat)
  | accept
  deriving Repr, Inhabited

structure Automaton where
  steps : Array Step
  start : Nat
  deriving Repr, Inhabited

namespace Automaton

/-! ## Building -/

/-- The steps so far. Expressions are added from their end to their beginning: adding one takes the
step that follows it and gives the step that it begins with. -/
abbrev Build := StateM (Array Step)

def push (s : Step) : Build Nat := do
  modify (·.push s)
  return (← get).size - 1

def times (add : Nat → Build Nat) : Nat → Nat → Build Nat
  | 0, next => pure next
  | n + 1, next => do times add n (← add next)

/-- Adds something that may be left out, up to a number of times in a row. Whoever leaves it out
goes on with `stop`. -/
def optionally (add : Nat → Build Nat) (stop : Nat) : Nat → Nat → Build Nat
  | 0, next => pure next
  | n + 1, next => do optionally add stop n (← push (.fork (← add next) stop))

def loop (add : Nat → Build Nat) (next : Nat) : Build Nat := do
  let entry ← push .accept
  let body ← add entry
  modify (·.setIfInBounds entry (.fork body next))
  return entry

mutual

def add : Regex → Nat → Build Nat
  | .empty, next => pure next
  | .literal cs, next => cs.foldrM (fun c next => push (.char c.toNat next)) next
  | .oneOf s, next => push (.oneOf s next)
  | .anchor a, next => push (.anchor a next)
  | .group _ r, next => add r next
  | .seq rs, next => addSeq rs next
  | .alt rs, next => addAlt rs next
  | .count r min none _, next => do times (add r) min (← loop (add r) next)
  | .count r min (some max) _, next => do
    times (add r) min (← optionally (add r) next (max - min) next)

def addSeq : List Regex → Nat → Build Nat
  | [], next => pure next
  | r :: rs, next => do add r (← addSeq rs next)

/-- Adds alternatives. With none to take, only a character of the empty set goes on. -/
def addAlt : List Regex → Nat → Build Nat
  | [], next => push (.oneOf .empty next)
  | [r], next => add r next
  | r :: rs, next => do
    let left ← add r next
    let right ← addAlt rs next
    push (.fork left right)

end

def ofRegex (r : Regex) : Automaton :=
  let (start, steps) := (do add r (← push .accept) : Build Nat).run #[]
  { steps, start }

/-! ## Running -/

structure Frontier where
  /-- For each step, one more than the last position at which it was reached, or zero. -/
  marks : Array Nat
  taking : List Nat
  accepted : Bool

/-- Follows the steps that take no character. Each step is followed once at a position and leads to
two others at most, which bounds how long the list of steps to visit can last. -/
def follow (a : Automaton) (text : Array Char) (i : Nat) :
    Nat → (visits : List Nat) → (marks : Array Nat) → (taking : List Nat) → Frontier
  | 0, _, marks, taking => ⟨marks, taking, false⟩
  | _ + 1, [], marks, taking => ⟨marks, taking, false⟩
  | n + 1, k :: ks, marks, taking =>
    if marks.getD k 0 == i + 1 then a.follow text i n ks marks taking
    else
      let marks := marks.setIfInBounds k (i + 1)
      match a.steps[k]? with
      | none => a.follow text i n ks marks taking
      | some .accept => ⟨marks, taking, true⟩
      | some (.fork left right) => a.follow text i n (left :: right :: ks) marks taking
      | some (.anchor c next) => a.follow text i n (if c.holds text i then next :: ks else ks) marks taking
      | some _ => a.follow text i n ks marks (k :: taking)

def take? (a : Automaton) (c : Nat) (k : Nat) : Option Nat :=
  match a.steps[k]? with
  | some (.char code next) => if c == code then some next else none
  | some (.oneOf s next) => if s.contains c then some next else none
  | _ => none

/-- Whether a match ends at one of the next positions, of which there are one more than `left`. A
match may begin at each of them, and those that have begun go on with `entries`. -/
def run (a : Automaton) (text : Array Char) : (left i : Nat) → (marks : Array Nat) → (entries : List Nat) → Bool
  | left, i, marks, entries =>
    let fuel := entries.length + 2 * a.steps.size + 2
    let f := a.follow text i fuel (a.start :: entries) marks []
    if f.accepted then true
    else
      match left, text[i]? with
      | left + 1, some c => a.run text left (i + 1) f.marks (f.taking.filterMap (a.take? c.toNat))
      | _, _ => false

def isMatch (a : Automaton) (text : String) : Bool :=
  let chars := text.toList.toArray
  a.run chars chars.size 0 (Array.replicate a.steps.size 0) []

end Automaton

end Motif.Regex
