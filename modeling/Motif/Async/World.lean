import Motif.Async.WorkQueue
import Motif.Value.Text

/-!
# Concurrency: continuations and tasks

A continuation is settled once, with a value or a failure; those who wait for it are told in the
order in which they registered. They are never told at once: the message is a task, and tasks wait
in a queue until the scheduler gets to them.

What belongs to a client of the scheduler is left open. Its tasks and callbacks are known by labels
`κ`, its coroutines have states `ρ`, and it has a state `σ` of its own.
-/

namespace Motif.Async

inductive Failure where
  | alreadySettled
  | rejected (reason : String)
  | coroutineFailed (message : String)
  deriving Repr, DecidableEq, Inhabited

def Failure.message : Failure → String
  | .alreadySettled => "continuation already settled"
  | .rejected reason => "rejected: " ++ reason
  | .coroutineFailed message => "coroutine failed: " ++ message

abbrev Outcome := Except Failure Value

inductive Callback (κ : Type) where
  | client (label : κ)
  /-- A place in a collection that is awaited as a whole. -/
  | slot (group index : Nat)
  /-- A continuation that takes over the outcome, if nothing else has settled it. -/
  | forward (target : Nat)
  | resume (coroutine : Nat)
  deriving Repr, DecidableEq

inductive Task (κ : Type) where
  | client (label : κ)
  | notify (callback : Callback κ) (outcome : Outcome)
  | start (coroutine : Nat)

structure Continuation (κ : Type) where
  outcome : Option Outcome := none
  waiting : List (Callback κ) := []

/-- A collection that is awaited as a whole, with the values known so far. -/
structure Group where
  target : Nat
  slots : List (Option Value)
  remaining : Nat

/-- A coroutine with the continuation that it settles in the end. Only a generator has a sink for
what it emits. -/
structure Coroutine (κ ρ : Type) where
  state : ρ
  sink : Option κ
  done : Nat

structure World (κ ρ σ : Type) where
  queue : WorkQueue (Task κ) := {}
  batchSize : Nat := 64
  completed : Nat := 0
  continuations : List (Continuation κ) := []
  groups : List Group := []
  coroutines : List (Coroutine κ ρ) := []
  own : σ

variable {κ ρ σ : Type}

/-- A world whose scheduler takes at most `batchSize` tasks at once, and at least one. -/
def World.withBatchSize (batchSize : Nat) (own : σ) : World κ ρ σ := { batchSize := max batchSize 1, own }

def World.pending (w : World κ ρ σ) : Nat := w.queue.length

def World.summary (w : World κ ρ σ) : String :=
  "Scheduler \x7b pending: " ++ toString w.pending ++ ", batch_size: " ++ toString w.batchSize ++
    ", completed: " ++ toString w.completed ++ " \x7d"

def World.outcome? (w : World κ ρ σ) (c : Nat) : Option Outcome :=
  w.continuations[c]?.bind Continuation.outcome

abbrev Act (κ ρ σ : Type) := StateM (World κ ρ σ)

def enqueue (task : Task κ) : Act κ ρ σ Unit := modify fun w => { w with queue := w.queue.push task }

/-! ## Continuations -/

def addContinuation (value : Continuation κ) : Act κ ρ σ Nat :=
  modifyGet fun w => (w.continuations.length, { w with continuations := w.continuations ++ [value] })

def newContinuation : Act κ ρ σ Nat := addContinuation {}

def newResolved (v : Value) : Act κ ρ σ Nat := addContinuation { outcome := some (.ok v) }

def setContinuation (c : Nat) (value : Continuation κ) : Act κ ρ σ Unit :=
  modify fun w => { w with continuations := w.continuations.set c value }

/-- Settles a continuation and tells those who wait. If it is settled nothing happens. -/
def settle (c : Nat) (outcome : Outcome) : Act κ ρ σ (Except Failure Unit) := do
  match (← get).continuations[c]? with
  | some { outcome := none, waiting } =>
    setContinuation c { outcome := some outcome }
    waiting.forM fun callback => enqueue (.notify callback outcome)
    return .ok ()
  | _ => return .error .alreadySettled

def onSettled (c : Nat) (callback : Callback κ) : Act κ ρ σ Unit := do
  match (← get).continuations[c]? with
  | some { outcome := some outcome, .. } => enqueue (.notify callback outcome)
  | some { outcome := none, waiting } => setContinuation c { waiting := waiting ++ [callback] }
  | none => pure ()

/-! ## Debug dumps -/

def Failure.debugText : Failure → String
  | .alreadySettled => "AlreadySettled"
  | .rejected reason => "Rejected(" ++ Value.debugText reason ++ ")"
  | .coroutineFailed message => "CoroutineFailed(" ++ Value.debugText message ++ ")"

def outcomeText : Option Outcome → String
  | none => "None"
  | some (.ok v) => "Some(Ok(" ++ v.debug ++ "))"
  | some (.error e) => "Some(Err(" ++ e.debugText ++ "))"

def Continuation.summary (c : Continuation κ) : String :=
  "Continuation \x7b outcome: " ++ outcomeText c.outcome ++ ", waiting: " ++
    toString c.waiting.length ++ " \x7d"

end Motif.Async
