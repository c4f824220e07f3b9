import Motif.Regex.Escape

/-!
# Bracketed sets

A set in brackets is the union of its members, or what operators make of such unions. Where letters
stand for both cases, each member has both, and so have all sets that are made of them. Sets can
stand in sets; the depth is counted for the limit on nesting.
-/

namespace Motif.Regex

open Text

structure Class where
  set : CharSet
  depth : Nat := 0

structure Members where
  set : CharSet := .empty
  count : Nat := 0
  depth : Nat := 0

namespace Members

def push (m : Members) (c : Class) : Members :=
  { set := m.set.union c.set, count := m.count + 1, depth := Nat.max m.depth c.depth }

def pushChar (m : Members) (c : Char) : Members := m.push { set := .single c.toNat }

def close (m : Members) : Class := { set := m.set, depth := if 1 < m.count then m.depth + 1 else m.depth }

end Members

inductive SetOp where
  | inter
  | diff
  | symmDiff

def SetOp.apply (op : SetOp) (left right : Class) : Class :=
  let set := match op with
    | .inter => left.set.inter right.set
    | .diff => left.set.diff right.set
    | .symmDiff => left.set.symmDiff right.set
  { set, depth := Nat.max left.depth right.depth + 1 }

/-- What has been read of a set: an operator with what stands left of it, and members. -/
structure OpenSet where
  pending : Option (SetOp × Class) := none
  members : Members := {}

namespace OpenSet

def close (o : OpenSet) : Class :=
  match o.pending with
  | none => o.members.close
  | some (op, left) => op.apply left o.members.close

def push (o : OpenSet) (c : Class) : OpenSet := { o with members := o.members.push c }

def operator (o : OpenSet) (op : SetOp) : OpenSet := { pending := some (op, o.close) }

end OpenSet

/-! ## Members -/

/-- A character as a member. Only ASCII can stand where classes are not those of all scripts. -/
def memberCode? (f : Flags) (code : Nat) : Option Nat := if f.unicode || code < 128 then some code else none

def member (f : Flags) : List Char → Option ((Nat ⊕ CharSet) × List Char)
  | [] => none
  | '\\' :: rest => do
    match ← escape f rest with
    | (.literal code _, rest) => return (.inl (← memberCode? f code), rest)
    | (.set s, rest) => some (.inr s, rest)
    | (.anchor _, _) => none
  | c :: rest => do return (.inl (← memberCode? f c.toNat), rest)

def memberRange (f : Flags) (cs : List Char) : Option (CharSet × List Char) := do
  let (first, rest) ← member f cs
  let single := match first with
    | .inl code => f.fold (.single code)
    | .inr s => s
  match f.skip rest with
  | [] => none
  | '-' :: after =>
    if f.peek after == some ']' || f.peek after == some '-' then some (single, '-' :: after)
    else
      match first, ← member f (f.skip after) with
      | .inl first, (.inl last, rest) =>
        if first ≤ last then some (f.fold (.range first last), rest) else none
      | _, _ => none
  | rest => some (single, rest)

/-- The classes that can be named inside a set. -/
def namedRanges : String → Option (List (Char × Char))
  | "alnum" => some [('0', '9'), ('A', 'Z'), ('a', 'z')]
  | "alpha" => some [('A', 'Z'), ('a', 'z')]
  | "ascii" => some [('\x00', '\x7f')]
  | "blank" => some [('\t', '\t'), (' ', ' ')]
  | "cntrl" => some [('\x00', '\x1f'), ('\x7f', '\x7f')]
  | "digit" => some [('0', '9')]
  | "graph" => some [('!', '~')]
  | "lower" => some [('a', 'z')]
  | "print" => some [(' ', '~')]
  | "punct" => some [('!', '/'), (':', '@'), ('[', '\x60'), ('\x7b', '~')]
  | "space" => some [('\t', '\r'), (' ', ' ')]
  | "upper" => some [('A', 'Z')]
  | "word" => some [('0', '9'), ('A', 'Z'), ('_', '_'), ('a', 'z')]
  | "xdigit" => some [('0', '9'), ('A', 'F'), ('a', 'f')]
  | _ => none

/-- Reads the rest of a named class such as `[:alpha:]` after its bracket: its characters, and
whether the others are meant. -/
def namedClass : List Char → Option ((CharSet × Bool) × List Char)
  | ':' :: rest => do
    let (negated, rest) := match rest with
      | '^' :: rest => (true, rest)
      | _ => (false, rest)
    let name := rest.takeWhile (· != ':')
    let ':' :: ']' :: rest := rest.drop name.length | none
    let ranges ← namedRanges (String.ofList name)
    return ((.ofRanges (ranges.map fun (a, b) => (a.toNat, b.toNat)), negated), rest)
  | _ => none

/-! ## Sets -/

def hyphens (f : Flags) : Nat → Members → List Char → Members × List Char
  | n + 1, m, '-' :: rest => hyphens f n (m.pushChar '-') (f.skip rest)
  | _, m, cs => (m, cs)

/-- Reads the beginning of a set after its bracket: whether it is negated, and the hyphens or the
closing bracket that stand for themselves there. -/
def setStart (f : Flags) (cs : List Char) : Option ((Bool × Members) × List Char) :=
  let cs := f.skip cs
  let (negated, cs) := match cs with
    | '^' :: rest => (true, f.skip rest)
    | _ => (false, cs)
  match hyphens f cs.length {} cs with
  | (m, ']' :: rest) =>
    if m.count == 0 then some ((negated, m.pushChar ']'), f.skip rest)
    else some ((negated, m), ']' :: rest)
  | (m, cs) => some ((negated, m), cs)

def bracketClass? (f : Flags) (negated : Bool) (c : Class) : Option Class := do
  return { set := ← f.negateIf? negated c.set, depth := c.depth + 1 }

def setRest (f : Flags) : Nat → OpenSet → List Char → Option (Class × List Char)
  | 0, _, _ => none
  | n + 1, o, cs =>
    match f.skip cs with
    | [] => none
    | ']' :: rest => some (o.close, rest)
    | '[' :: rest =>
      match namedClass rest with
      | some ((s, negated), rest) => do
        setRest f n (o.push { set := ← f.negateIf? negated (f.fold s) }) rest
      | none => do
        let ((negated, m), rest) ← setStart f rest
        let (inner, rest) ← setRest f n { members := m } rest
        setRest f n (o.push (← bracketClass? f negated inner)) rest
    | '&' :: '&' :: rest => setRest f n (o.operator .inter) rest
    | '-' :: '-' :: rest => setRest f n (o.operator .diff) rest
    | '~' :: '~' :: rest => setRest f n (o.operator .symmDiff) rest
    | cs => do
      let (s, rest) ← memberRange f cs
      setRest f n (o.push { set := s }) rest

/-- Reads a set after its opening bracket. Every member takes a character. -/
def bracketed (f : Flags) (cs : List Char) : Option (Class × List Char) := do
  let ((negated, m), rest) ← setStart f cs
  let (c, rest) ← setRest f (cs.length + 1) { members := m } rest
  return (← bracketClass? f negated c, rest)

end Motif.Regex
