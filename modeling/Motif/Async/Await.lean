import Motif.Async.World
import Motif.Tree.Kind

/-!
# Awaiting

What can be awaited is a value, a continuation, or a collection of such. It is folded into one
continuation: a collection as a whole settles with the array of its values once all are known, or
with the first failure; of any of a collection the first outcome counts.
-/

namespace Motif.Async

inductive Awaitable where
  | ready (v : Value)
  | pending (continuation : Nat)
  | many (items : List Awaitable)

structure Suspend where
  mode : Resolver
  value : Awaitable

variable {κ ρ σ : Type}

def newGroup (target size : Nat) : Act κ ρ σ Nat :=
  modifyGet fun w =>
    let group := { target, slots := List.replicate size none, remaining := size }
    (w.groups.length, { w with groups := w.groups ++ [group] })

def setGroup (group : Nat) (g : Group) : Act κ ρ σ Unit :=
  modify fun w => { w with groups := w.groups.set group g }

def Group.fill (g : Group) (index : Nat) (v : Value) : Group :=
  { g with slots := g.slots.set index (some v), remaining := g.remaining - 1 }

def Group.values (g : Group) : List Value := g.slots.map fun slot => slot.getD .nothing

/-- Takes the outcome for one place of a group. With the last value the group is emptied. -/
def fillSlot (group index : Nat) (outcome : Outcome) : Act κ ρ σ Unit := do
  match (← get).groups[group]? with
  | none => pure ()
  | some g =>
    match outcome with
    | .error e => discard (settle g.target (.error e))
    | .ok v =>
      let g := g.fill index v
      if g.remaining = 0 then
        setGroup group { g with slots := [] }
        discard (settle g.target (.ok (.array g.values)))
      else setGroup group g

mutual

/-- The continuation for an awaitable; a collection is awaited as a whole. -/
def awaitValue : Awaitable → Act κ ρ σ Nat
  | .ready v => newResolved v
  | .pending c => pure c
  | .many items => do
    let target ← newContinuation
    if items.isEmpty then discard (settle target (.ok (.array [])))
    else awaitItems (← newGroup target items.length) 0 items
    return target

def awaitItems (group : Nat) : Nat → List Awaitable → Act κ ρ σ Unit
  | _, [] => pure ()
  | index, item :: rest => do
    onSettled (← awaitValue item) (.slot group index)
    awaitItems group (index + 1) rest

end

/-- The continuation for the first outcome in a collection. An empty one fails, as nothing could
settle it. -/
def awaitAny : Awaitable → Act κ ρ σ Nat
  | .many items => do
    let target ← newContinuation
    if items.isEmpty then
      discard (settle target (.error (.rejected "await any of an empty collection")))
    else
      items.forM fun item => do onSettled (← awaitValue item) (.forward target)
    return target
  | a => awaitValue a

def Suspend.resolve (s : Suspend) : Act κ ρ σ Nat :=
  match s.mode with
  | .any => awaitAny s.value
  | .value => awaitValue s.value
  | .all => awaitValue s.value

end Motif.Async
