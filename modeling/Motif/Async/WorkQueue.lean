/-!
# Work queues

A queue of items that are taken out oldest first. Taken items leave empty slots in front of the
head; the empty slots are dropped when nothing is pending, or when there are many of them and no
fewer than pending items.
-/

namespace Motif.Async

structure WorkQueue (α : Type) where
  slots : Array (Option α) := #[]
  head : Nat := 0
  /-- The number of empty slots that are put up with. -/
  threshold : Nat := 1024
  /-- How often empty slots have been dropped while items were pending. -/
  compactions : Nat := 0
  deriving Repr

namespace WorkQueue

variable {α : Type}

/-- An empty queue; the threshold is at least one. -/
def withThreshold (threshold : Nat) : WorkQueue α := { threshold := max threshold 1 }

def length (q : WorkQueue α) : Nat := q.slots.size - q.head

def isEmpty (q : WorkQueue α) : Bool := q.length == 0

def toList (q : WorkQueue α) : List α := (q.slots.toList.drop q.head).filterMap id

def push (q : WorkQueue α) (item : α) : WorkQueue α := { q with slots := q.slots.push (some item) }

def compact (q : WorkQueue α) : WorkQueue α :=
  if q.head = q.slots.size then { q with slots := #[], head := 0 }
  else if q.threshold ≤ q.head ∧ q.slots.size ≤ q.head * 2 then
    { q with slots := q.slots.extract q.head, head := 0, compactions := q.compactions + 1 }
  else q

def pop (q : WorkQueue α) : Option α × WorkQueue α :=
  match q.slots[q.head]? with
  | none => (none, q)
  | some item => (item, compact { q with slots := q.slots.setIfInBounds q.head none, head := q.head + 1 })

def drain (q : WorkQueue α) (max : Nat) : List α × WorkQueue α :=
  let stop := min q.slots.size (q.head + max)
  let taken := stop - q.head
  let batch := (q.slots.extract q.head stop).toList.filterMap id
  let slots := q.slots.extract 0 q.head ++ Array.replicate taken none ++ q.slots.extract stop
  (batch, compact { q with slots, head := stop })

def summary (q : WorkQueue α) : String :=
  "WorkQueue \x7b len: " ++ toString q.length ++ ", head: " ++ toString q.head ++
    ", compactions: " ++ toString q.compactions ++ " \x7d"

end WorkQueue

end Motif.Async
