import Motif.Async.Scheduler
import Motif.Dict

/-!
# Scenarios

Scripted use of the scheduler. Commands act on continuations that are known by names, tasks and
callbacks run commands of their own, and coroutines follow scripts. What happens is recorded.
-/

namespace Motif.Async.Scenario

inductive Source where
  | ready (v : Value)
  | pending (name : String)
  | many (items : List Source)

mutual

inductive Command where
  /-- Mentions a name; a continuation is made at its first mention. -/
  | new (name : String)
  /-- Makes a name stand for a new continuation that is settled. -/
  | resolved (name : String) (v : Value)
  | settle (name : String) (outcome : Outcome)
  | on (name label : String) (commands : List Command)
  | task (label : String) (commands : List Command)
  | await (name : String) (mode : Resolver) (source : Source)
  | spawn (isGenerator : Bool) (name : String) (script : List Item)
  | tick
  | run
  | debug (name : String)
  | debugScheduler
  /-- Whether a continuation is settled, and how many tasks are waiting. -/
  | status (name : String)

inductive Item where
  | suspend (mode : Resolver) (source : Source)
  | emit (v : Value)
  | complete (v : Value)
  | fail (message : String)
  /-- Completes with the input, or fails with its failure. -/
  | echo
  | emitInput
  | commands (commands : List Command)

end

def Command.word : Command → String
  | .new _ => "new"
  | .resolved .. => "resolved"
  | .settle _ (.ok _) => "resolve"
  | .settle _ (.error (.coroutineFailed _)) => "fail"
  | .settle _ (.error _) => "reject"
  | .on .. => "on"
  | .task .. => "task"
  | .await .. => "await"
  | .spawn true _ _ => "gen"
  | .spawn false _ _ => "do"
  | .tick => "tick"
  | .run => "run"
  | .debug _ => "debug"
  | .debugScheduler => "sched"
  | .status _ => "same"

inductive Answer where
  | none
  | settled
  | failed (e : Failure)
  | ticked (result : TickResult)
  | count (n : Nat)
  | text (s : String)
  | status (isSettled : Bool) (pending : Nat)
  deriving Inhabited

inductive Entry where
  | task (label : String)
  | on (label : String) (outcome : Outcome)
  /-- A command that was run inside a task, by its word. -/
  | command (word : String) (answer : Answer)
  | input (name : String) (outcome : Outcome)
  | emitted (name : String) (v : Value)

inductive Label where
  | commands (label : String) (commands : List Command)
  | sink (name : String)

structure Script where
  name : String
  items : List Item

structure State where
  names : List (String × Nat) := []
  log : List Entry := []

abbrev World := Async.World Label Script State

abbrev Act := Async.Act Label Script State

def record (entry : Entry) : Act Unit :=
  modify fun w => { w with own := { w.own with log := w.own.log ++ [entry] } }

def setName (name : String) (c : Nat) : Act Unit :=
  modify fun w => { w with own := { w.own with names := Dict.set name c w.own.names } }

def continuation (name : String) : Act Nat := do
  match Dict.get? name (← get).own.names with
  | some c => return c
  | none =>
    let c ← newContinuation
    setName name c
    return c

mutual

def awaitable : Source → Act Awaitable
  | .ready v => pure (.ready v)
  | .pending name => do return .pending (← continuation name)
  | .many items => do return .many (← awaitables items)

def awaitables : List Source → Act (List Awaitable)
  | [] => pure []
  | item :: rest => do
    let a ← awaitable item
    return a :: (← awaitables rest)

end

def suspend (mode : Resolver) (source : Source) : Act Suspend := do
  return { mode, value := ← awaitable source }

def maxTicks : Nat := 1000000

def perform (tick : Act TickResult) : Command → Act Answer
  | .new name => do
    let _ ← continuation name
    return .none
  | .resolved name v => do
    setName name (← newResolved v)
    return .none
  | .settle name outcome => do
    match ← Async.settle (← continuation name) outcome with
    | .ok () => return .settled
    | .error e => return .failed e
  | .on name label commands => do
    onSettled (← continuation name) (.client (.commands label commands))
    return .none
  | .task label commands => do
    enqueue (.client (.commands label commands))
    return .none
  | .await name mode source => do
    setName name (← (← suspend mode source).resolve)
    return .none
  | .spawn isGenerator name script => do
    let sink := if isGenerator then some (Label.sink name) else none
    setName name (← Async.spawn { name, items := script } sink)
    return .none
  | .tick => do return .ticked (← tick)
  | .run => do return .count (← runUntilIdle tick maxTicks)
  | .debug name => do
    let c ← continuation name
    return .text ((((← get).continuations[c]?).map Continuation.summary).getD "")
  | .debugScheduler => do return .text (← get).summary
  | .status name => do
    let c ← continuation name
    let w ← get
    return .status (w.outcome? c).isSome w.pending

def performAll (tick : Act TickResult) : List Command → Act Unit
  | [] => pure ()
  | c :: rest => do
    let answer ← perform tick c
    record (.command c.word answer)
    performAll tick rest

def follow (tick : Act TickResult) (input : Outcome) : List Item → Act (Step × List Item)
  | [] => pure (.complete .nothing, [])
  | .suspend mode source :: rest => do return (.suspend (← suspend mode source), rest)
  | .emit v :: rest => pure (.emit v, rest)
  | .complete v :: rest => pure (.complete v, rest)
  | .fail message :: rest => pure (.fail message, rest)
  | .echo :: rest =>
    match input with
    | .ok v => pure (.complete v, rest)
    | .error e => pure (.fail e.message, rest)
  | .emitInput :: rest =>
    match input with
    | .ok v => pure (.emit v, rest)
    | .error e => pure (.emit (.string e.message), rest)
  | .commands commands :: rest => do
    performAll tick commands
    follow tick input rest

def client : Client Label Script State where
  task tick
    | .commands label commands => do
      record (.task label)
      performAll tick commands
    | .sink _ => pure ()
  callback tick label outcome :=
    match label with
    | .commands label commands => do
      record (.on label outcome)
      performAll tick commands
    | .sink _ => pure ()
  sink label v :=
    match label with
    | .sink name => record (.emitted name v)
    | .commands .. => pure ()
  resume tick script input := do
    record (.input script.name input)
    let (step, items) ← follow tick input script.items
    return (step, { script with items })

structure Report where
  answer : Answer
  log : List Entry
  outcomes : List (String × Option Outcome)
  pending : Nat
  completed : Nat

def step (fuel : Nat) (command : Command) : Act Report := do
  modify fun w => { w with own := { w.own with log := [] } }
  let answer ← perform (tick client fuel) command
  let w ← get
  return { answer
           log := w.own.log
           outcomes := w.own.names.map fun (name, c) => (name, w.outcome? c)
           pending := w.pending
           completed := w.completed }

def play (batchSize : Option Nat) (fuel : Nat) (commands : List Command) : List Report :=
  let start : World := match batchSize with
    | some n => .withBatchSize n {}
    | none => { own := {} }
  ((commands.mapM (step fuel)).run start).1

end Motif.Async.Scenario
