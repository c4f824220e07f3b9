import Motif.Async.Await

/-!
# The scheduler

Tasks run one after the other, in the order in which they were enqueued; what a task enqueues runs
on a later tick. A coroutine runs until it suspends itself, completes or fails.

What client code does is given by a `Client`. It may itself call the scheduler, so it is given the
means to; every such call within a call uses up one unit of fuel.
-/

namespace Motif.Async

inductive Step where
  | suspend (s : Suspend)
  | emit (v : Value)
  | complete (v : Value)
  | fail (message : String)

inductive TickResult where
  | progress
  | idle
  deriving Repr, DecidableEq, Inhabited

variable {κ ρ σ : Type}

/-- What client code does. Each part is given the means to run the scheduler. -/
structure Client (κ ρ σ : Type) where
  task : Act κ ρ σ TickResult → κ → Act κ ρ σ Unit
  callback : Act κ ρ σ TickResult → κ → Outcome → Act κ ρ σ Unit
  sink : κ → Value → Act κ ρ σ Unit
  resume : Act κ ρ σ TickResult → ρ → Outcome → Act κ ρ σ (Step × ρ)

/-! ## Coroutines -/

def spawn (state : ρ) (sink : Option κ) : Act κ ρ σ Nat := do
  let done ← newContinuation
  let coroutine := (← get).coroutines.length
  modify fun w => { w with coroutines := w.coroutines ++ [{ state, sink, done }] }
  enqueue (.start coroutine)
  return done

def setState (coroutine : Nat) (state : ρ) : Act κ ρ σ Unit :=
  modify fun w => { w with coroutines := w.coroutines.modify coroutine fun c => { c with state } }

/-- Resumes a coroutine until it suspends itself or ends, at most `fuel` times. -/
def drive (client : Client κ ρ σ) (tick : Act κ ρ σ TickResult) (coroutine : Nat) :
    Nat → Outcome → Act κ ρ σ Unit
  | 0, _ => pure ()
  | fuel + 1, input => do
    match (← get).coroutines[coroutine]? with
    | none => pure ()
    | some c =>
      let (step, state) ← client.resume tick c.state input
      setState coroutine state
      match step with
      | .suspend s => onSettled (← s.resolve) (.resume coroutine)
      | .complete v => discard (settle c.done (.ok v))
      | .fail message => discard (settle c.done (.error (.coroutineFailed message)))
      | .emit v =>
        match c.sink with
        | some sink =>
          client.sink sink v
          drive client tick coroutine fuel (.ok .nothing)
        | none => discard (settle c.done (.error (.coroutineFailed "emit outside a generate block")))

/-! ## Ticks -/

def runTask (client : Client κ ρ σ) (tick : Act κ ρ σ TickResult) (fuel : Nat) : Task κ → Act κ ρ σ Unit
  | .client label => client.task tick label
  | .start coroutine => drive client tick coroutine fuel (.ok .nothing)
  | .notify (.client label) outcome => client.callback tick label outcome
  | .notify (.slot group index) outcome => fillSlot group index outcome
  | .notify (.forward target) outcome => discard (settle target outcome)
  | .notify (.resume coroutine) outcome => drive client tick coroutine fuel outcome

def takeBatch : Act κ ρ σ (List (Task κ)) :=
  modifyGet fun w =>
    let (batch, queue) := w.queue.drain w.batchSize
    (batch, { w with queue })

/-- Runs one batch of tasks. They count as completed when all have been run. -/
def tick (client : Client κ ρ σ) : Nat → Act κ ρ σ TickResult
  | 0 => pure .idle
  | fuel + 1 => do
    let batch ← takeBatch
    if batch.isEmpty then return .idle
    batch.forM (runTask client (tick client fuel) (fuel + 1))
    modify fun w => { w with completed := w.completed + batch.length }
    return .progress

def untilIdle (tick : Act κ ρ σ TickResult) : Nat → Act κ ρ σ Unit
  | 0 => pure ()
  | fuel + 1 => do
    match ← tick with
    | .progress => untilIdle tick fuel
    | .idle => pure ()

/-- Runs all tasks, also those that are enqueued on the way; gives their number. -/
def runUntilIdle (tick : Act κ ρ σ TickResult) (fuel : Nat) : Act κ ρ σ Nat := do
  let before := (← get).completed
  untilIdle tick fuel
  return (← get).completed - before

end Motif.Async
