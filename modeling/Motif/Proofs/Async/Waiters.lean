import Mathlib.Data.List.Perm.Basic
import Motif.Proofs.Async.Continuation

/-!
# Those who wait for a continuation

Client code settles a continuation, registers callbacks for its outcome and ticks the scheduler, in any
order; callbacks and other tasks are client code again and may do the same. Whatever it does, only the
first outcome counts, and every callback is told about it once. As long as only the outermost code
ticks, callbacks are told in the order in which they were registered.

The argument is one equation: the callbacks that were registered are those that have been run, those in
the batches that are being run, those in the queue, and those that wait.
-/

namespace Motif.Async

open List

variable {κ : Type} {R : List κ → List κ → Prop} {outcome : Outcome}

/-! ## Histories -/

/-- What can happen to a continuation. -/
inductive Event (κ : Type) where
  | registered (callback : κ)
  | settled (outcome : Outcome) (result : Except Failure Unit)
  | ran (callback : κ) (outcome : Outcome)

abbrev History (κ : Type) := List (Event κ)

namespace History

variable {h : History κ}

def registered (h : History κ) : List κ :=
  h.filterMap fun
    | .registered callback => some callback
    | _ => none

def ran (h : History κ) : List κ :=
  h.filterMap fun
    | .ran callback _ => some callback
    | _ => none

def outcome? (h : History κ) : Option Outcome :=
  h.findSome? fun
    | .settled outcome _ => some outcome
    | _ => none

/-- An event that may follow. The first settlement succeeds and the others do not. A callback is run
    with the first outcome, and if it is next: `R` relates the callbacks as they were registered to the
    callbacks as they are run, of which this one and some `later` ones have not yet been. -/
def Due (R : List κ → List κ → Prop) (past : History κ) : Event κ → Prop
  | .registered _ => True
  | .settled _ result => result = if past.outcome?.isSome then .error .alreadySettled else .ok ()
  | .ran callback outcome =>
    past.outcome? = some outcome ∧ ∃ later, R past.registered (past.ran ++ callback :: later)

def Lawful (R : List κ → List κ → Prop) (h : History κ) : Prop := ∀ past e, past ++ [e] <+: h → Due R past e

theorem registered_append (h h' : History κ) : registered (h ++ h') = h.registered ++ h'.registered :=
  filterMap_append

theorem ran_append (h h' : History κ) : ran (h ++ h') = h.ran ++ h'.ran := filterMap_append

theorem outcome?_append_of_isSome (hh : h.outcome?.isSome) (e : Event κ) :
    outcome? (h ++ [e]) = h.outcome? := by
  rw [outcome?, findSome?_append]
  exact Option.or_of_isSome hh

theorem outcome?_append_of_none (hh : h.outcome? = none) (e : Event κ) :
    outcome? (h ++ [e]) = outcome? [e] := by
  rw [outcome?, findSome?_append]
  exact Option.or_of_isNone (Option.isNone_iff_eq_none.mpr hh)

theorem lawful_nil (R : List κ → List κ → Prop) : Lawful R [] := by
  intro past e h
  exact absurd (prefix_nil.mp h) (by simp)

theorem Lawful.snoc (hh : h.Lawful R) {e : Event κ} (he : Due R h e) : Lawful R (h ++ [e]) := by
  intro past e' hpast
  obtain heq | hpast := prefix_concat_iff.mp hpast
  · obtain ⟨rfl, hlast⟩ := append_inj' heq rfl
    obtain rfl := singleton_inj.mp hlast
    exact he
  · exact hh past e' hpast

end History

/-! ## Client code -/

abbrev Recorded (κ : Type) := World κ Empty (History κ)

/-- What client code does with one continuation and its scheduler. It may go on according to what it
    gets back, and according to all there is to see. -/
inductive Program (κ : Type) where
  | done
  | settle (outcome : Outcome) (next : Except Failure Unit → Program κ)
  | register (callback : κ) (next : Program κ)
  | enqueue (task : κ) (next : Program κ)
  | tick (next : TickResult → Program κ)
  | look (next : Recorded κ → Program κ)

abbrev Deed (κ : Type) := Act κ Empty (History κ)

def note (e : Event κ) : Deed κ Unit := modify fun w => { w with own := w.own ++ [e] }

def settleNoted (outcome : Outcome) : Deed κ (Except Failure Unit) := do
  let result ← settle 0 outcome
  note (.settled outcome result)
  return result

def registerNoted (callback : κ) : Deed κ Unit := do
  onSettled 0 (.client callback)
  note (.registered callback)

namespace Program

def perform (tick : Deed κ TickResult) : Program κ → Deed κ Unit
  | .done => pure ()
  | .settle outcome next => do
    let result ← settleNoted outcome
    (next result).perform tick
  | .register callback next => do
    registerNoted callback
    next.perform tick
  | .enqueue task next => do
    Async.enqueue (.client task)
    next.perform tick
  | .tick next => do
    let result ← tick
    (next result).perform tick
  | .look next => do
    let w ← get
    (next w).perform tick

/-- The program makes no tick of its own. -/
def TickFree : Program κ → Prop
  | .done => True
  | .settle _ next => ∀ result, (next result).TickFree
  | .register _ next => next.TickFree
  | .enqueue _ next => next.TickFree
  | .tick _ => False
  | .look next => ∀ w, (next w).TickFree

end Program

/-- The programs that tasks and callbacks run. -/
structure Handlers (κ : Type) where
  task : κ → Program κ
  callback : κ → Outcome → Program κ

namespace Handlers

def client (handlers : Handlers κ) : Client κ Empty (History κ) where
  task tick label := (handlers.task label).perform tick
  callback tick label outcome := do
    note (.ran label outcome)
    (handlers.callback label outcome).perform tick
  sink _ _ := pure ()
  resume _ state _ := nomatch state

structure TickFree (handlers : Handlers κ) : Prop where
  task : ∀ label, (handlers.task label).TickFree
  callback : ∀ label outcome, (handlers.callback label outcome).TickFree

/-- The world once a program has been run for a continuation that is new. -/
def after (handlers : Handlers κ) (batchSize fuel : Nat) (program : Program κ) : Recorded κ :=
  let start := (newContinuation.run (World.withBatchSize batchSize [])).2
  ((program.perform (tick handlers.client fuel)).run start).2

end Handlers

/-! ## Keeping accounts -/

def told (tasks : List (Task κ)) : List κ :=
  tasks.filterMap fun
    | .notify (.client callback) _ => some callback
    | _ => none

theorem told_append (tasks tasks' : List (Task κ)) : told (tasks ++ tasks') = told tasks ++ told tasks' :=
  filterMap_append

theorem told_notify (callbacks : List κ) (outcome : Outcome) :
    told ((callbacks.map Callback.client).map (Task.notify · outcome)) = callbacks := by
  induction callbacks with
  | nil => rfl
  | cons callback callbacks ih => exact congrArg (callback :: ·) ih

/-- A task of the client, or one of its callbacks with the outcome that counts. -/
def Fit (outcome : Option Outcome) : Task κ → Prop
  | .client _ => True
  | .notify (.client _) o => outcome = some o
  | _ => False

theorem Fit.of_none {task : Task κ} (h : Fit none task) (outcome : Option Outcome) : Fit outcome task := by
  cases task with
  | client label => trivial
  | notify callback o =>
    cases callback with
    | client label => cases h
    | slot | forward | resume => exact h
  | start => exact h

/-- An order in which callbacks may be run: what is registered last may be run last. -/
structure Discipline (R : List κ → List κ → Prop) : Prop where
  nil : R [] []
  snoc : ∀ {registered run}, R registered run → ∀ callback,
    R (registered ++ [callback]) (run ++ [callback])

def Unordered (R : List κ → List κ → Prop) : Prop :=
  ∀ {registered run run'}, R registered run → run.Perm run' → R registered run'

/-- The books of a continuation: what has happened, the tasks that are still to be run, and who waits
    for it to be settled. -/
structure Balanced (R : List κ → List κ → Prop) (h : History κ) (tasks : List (Task κ))
    (waiting : List κ) : Prop where
  accounts : R h.registered (h.ran ++ told tasks ++ waiting)
  fit : ∀ task ∈ tasks, Fit h.outcome? task
  nobody : h.outcome?.isSome → waiting = []
  lawful : h.Lawful R

namespace Balanced

variable {R : List κ → List κ → Prop} {h : History κ} {tasks : List (Task κ)} {waiting : List κ}

theorem start (hR : Discipline R) : Balanced R [] [] [] :=
  ⟨hR.nil, forall_mem_nil _, fun _ => rfl, History.lawful_nil R⟩

theorem settled (hb : Balanced R h tasks waiting) (hnone : h.outcome? = none) (outcome : Outcome) :
    Balanced R (h ++ [Event.settled outcome (.ok ())])
      (tasks ++ (waiting.map Callback.client).map (Task.notify · outcome)) [] where
  accounts := by
    rw [told_append, told_notify, History.registered_append, History.ran_append]
    simpa [History.registered, History.ran] using hb.accounts
  fit := by
    rw [History.outcome?_append_of_none hnone]
    refine forall_mem_append.mpr ⟨fun task htask => (hnone ▸ hb.fit task htask).of_none _, ?_⟩
    exact forall_mem_map.mpr (forall_mem_map.mpr fun callback _ => rfl)
  nobody _ := rfl
  lawful := hb.lawful.snoc (by simp [History.Due, hnone])

theorem refused (hb : Balanced R h tasks waiting) (hsome : h.outcome?.isSome) (outcome : Outcome) :
    Balanced R (h ++ [Event.settled outcome (.error .alreadySettled)]) tasks waiting where
  accounts := by
    rw [History.registered_append, History.ran_append]
    simpa [History.registered, History.ran] using hb.accounts
  fit := by
    rw [History.outcome?_append_of_isSome hsome]
    exact hb.fit
  nobody _ := hb.nobody hsome
  lawful := hb.lawful.snoc (by simp [History.Due, hsome])

theorem registered_waiting (hb : Balanced R h tasks waiting) (hR : Discipline R) (hnone : h.outcome? = none)
    (callback : κ) : Balanced R (h ++ [Event.registered callback]) tasks (waiting ++ [callback]) where
  accounts := by
    rw [History.registered_append, History.ran_append]
    simpa [History.registered, History.ran] using hR.snoc hb.accounts callback
  fit := by
    rw [History.outcome?_append_of_none hnone]
    exact fun task htask => (hnone ▸ hb.fit task htask).of_none _
  nobody hsome := by
    rw [History.outcome?_append_of_none hnone] at hsome
    cases hsome
  lawful := hb.lawful.snoc trivial

theorem registered_settled (hb : Balanced R h tasks waiting) (hR : Discipline R)
    (hsome : h.outcome? = some outcome) (callback : κ) :
    Balanced R (h ++ [Event.registered callback]) (tasks ++ [Task.notify (.client callback) outcome])
      waiting where
  accounts := by
    have haccounts := hR.snoc hb.accounts callback
    rw [hb.nobody (Option.isSome_of_eq_some hsome)] at haccounts ⊢
    rw [told_append, History.registered_append, History.ran_append]
    simpa [History.registered, History.ran, told] using haccounts
  fit := by
    rw [History.outcome?_append_of_isSome (Option.isSome_of_eq_some hsome)]
    exact forall_mem_append.mpr ⟨hb.fit, forall_mem_singleton.mpr hsome⟩
  nobody _ := hb.nobody (Option.isSome_of_eq_some hsome)
  lawful := hb.lawful.snoc trivial

theorem enqueued (hb : Balanced R h tasks waiting) (label : κ) :
    Balanced R h (tasks ++ [Task.client label]) waiting where
  accounts := by
    rw [told_append]
    simpa [told] using hb.accounts
  fit := forall_mem_append.mpr ⟨hb.fit, forall_mem_singleton.mpr trivial⟩
  nobody := hb.nobody
  lawful := hb.lawful

theorem dequeued {label : κ} (hb : Balanced R h (.client label :: tasks) waiting) :
    Balanced R h tasks waiting where
  accounts := by simpa [told] using hb.accounts
  fit := (forall_mem_cons.mp hb.fit).2
  nobody := hb.nobody
  lawful := hb.lawful

theorem ran {callback : κ} (hb : Balanced R h (.notify (.client callback) outcome :: tasks) waiting) :
    Balanced R (h ++ [Event.ran callback outcome]) tasks waiting := by
  have hsome : h.outcome? = some outcome := hb.fit _ mem_cons_self
  have hnext : R h.registered (h.ran ++ callback :: (told tasks ++ waiting)) := by
    simpa [told] using hb.accounts
  constructor
  case accounts =>
    rw [History.registered_append, History.ran_append]
    simpa [History.registered, History.ran] using hnext
  case fit =>
    rw [History.outcome?_append_of_isSome (Option.isSome_of_eq_some hsome)]
    exact (forall_mem_cons.mp hb.fit).2
  case nobody => exact fun _ => hb.nobody (Option.isSome_of_eq_some hsome)
  case lawful => exact hb.lawful.snoc ⟨hsome, _, hnext⟩

theorem reorder (hb : Balanced R h tasks waiting) (hR : Unordered R) {tasks' : List (Task κ)}
    (hperm : tasks.Perm tasks') : Balanced R h tasks' waiting where
  accounts := hR hb.accounts (((hperm.filterMap _).append_left _).append_right _)
  fit task htask := hb.fit task (hperm.mem_iff.mpr htask)
  nobody := hb.nobody
  lawful := hb.lawful

end Balanced

/-! ## The books of a world -/

/-- The books of a world are balanced while the tasks in `running` are still to be run. -/
structure Kept (R : List κ → List κ → Prop) (running : List (Task κ)) (w : Recorded κ) : Prop where
  balanced : ∃ waiting : List κ,
    w.continuations = [{ outcome := w.own.outcome?, waiting := waiting.map .client }] ∧
    Balanced R w.own (running ++ w.queue.toList) waiting
  inBounds : w.queue.InBounds

def Keeps {α : Type} (R : List κ → List κ → Prop) (running : List (Task κ)) (x : Deed κ α) : Prop :=
  ∀ w, Kept R running w → Kept R running (x.run w).2

section Steps

variable {α β : Type} {R : List κ → List κ → Prop} {running : List (Task κ)} {w : Recorded κ}

theorem Kept.outcome? (h : Kept R running w) : w.outcome? 0 = w.own.outcome? := by
  obtain ⟨waiting, hc, -⟩ := h.balanced
  rw [World.outcome?, hc]
  rfl

theorem keeps_pure (a : α) : Keeps R running (pure a) := fun _ h => h

theorem Keeps.bind {x : Deed κ α} {f : α → Deed κ β}
    (hx : Keeps R running x) (hf : ∀ a, Keeps R running (f a)) : Keeps R running (x >>= f) :=
  fun w h => hf (x.run w).1 (x.run w).2 (hx w h)

theorem keeps_settleNoted (outcome : Outcome) : Keeps R running (settleNoted outcome) := by
  intro w h
  obtain ⟨waiting, hc, hb⟩ := h.balanced
  rw [settleNoted, StateT.run_bind]
  cases houtcome : w.own.outcome? with
  | none =>
    rw [houtcome] at hc
    rw [settle_of_waiting (congrArg (·[0]?) hc)]
    refine ⟨⟨[], ?_, ?_⟩, h.inBounds.pushAll _⟩
    · show w.continuations.set 0 _ = [{ outcome := History.outcome? (w.own ++ [_]), waiting := _ }]
      rw [hc, History.outcome?_append_of_none houtcome]
      rfl
    · show Balanced R _ (running ++ (w.queue.pushAll _).toList) []
      rw [WorkQueue.toList_pushAll h.inBounds, ← append_assoc]
      exact hb.settled houtcome outcome
  | some settled =>
    have hsome := Option.isSome_of_eq_some houtcome
    rw [settle_of_settled (h.outcome?.symm ▸ hsome)]
    refine ⟨⟨waiting, ?_, hb.refused hsome outcome⟩, h.inBounds⟩
    show w.continuations = [{ outcome := History.outcome? (w.own ++ [_]), waiting := _ }]
    rw [hc, History.outcome?_append_of_isSome hsome]

theorem keeps_registerNoted (hR : Discipline R) (callback : κ) : Keeps R running (registerNoted callback) := by
  intro w h
  obtain ⟨waiting, hc, hb⟩ := h.balanced
  rw [registerNoted, StateT.run_bind]
  cases houtcome : w.own.outcome? with
  | none =>
    rw [houtcome] at hc
    rw [onSettled_of_waiting (congrArg (·[0]?) hc)]
    refine ⟨⟨waiting ++ [callback], ?_, hb.registered_waiting hR houtcome callback⟩, h.inBounds⟩
    show w.continuations.set 0 _ = [{ outcome := History.outcome? (w.own ++ [_]), waiting := _ }]
    rw [hc, History.outcome?_append_of_none houtcome, map_append]
    rfl
  | some outcome =>
    rw [onSettled_of_settled (h.outcome?.trans houtcome)]
    refine ⟨⟨waiting, ?_, ?_⟩, h.inBounds.push _⟩
    · show w.continuations = [{ outcome := History.outcome? (w.own ++ [_]), waiting := _ }]
      rw [hc, History.outcome?_append_of_isSome (Option.isSome_of_eq_some houtcome)]
    · show Balanced R _ (running ++ (w.queue.push _).toList) waiting
      rw [WorkQueue.toList_push h.inBounds, ← append_assoc]
      exact hb.registered_settled hR houtcome callback

theorem keeps_enqueue (label : κ) : Keeps R running (enqueue (.client label)) := by
  intro w h
  obtain ⟨waiting, hc, hb⟩ := h.balanced
  refine ⟨⟨waiting, hc, ?_⟩, h.inBounds.push _⟩
  show Balanced R _ (running ++ (w.queue.push _).toList) waiting
  rw [WorkQueue.toList_push h.inBounds, ← append_assoc]
  exact hb.enqueued label

theorem Kept.ran {callback : κ} (h : Kept R (.notify (.client callback) outcome :: running) w) :
    Kept R running ((note (.ran callback outcome)).run w).2 := by
  obtain ⟨waiting, hc, hb⟩ := h.balanced
  refine ⟨⟨waiting, ?_, hb.ran⟩, h.inBounds⟩
  have hsome : w.own.outcome? = some outcome := hb.fit _ mem_cons_self
  show w.continuations = [{ outcome := History.outcome? (w.own ++ [_]), waiting := _ }]
  rw [hc, History.outcome?_append_of_isSome (Option.isSome_of_eq_some hsome)]

theorem Kept.takeBatch (h : Kept R running w) (hR : Unordered R ∨ running = []) :
    Kept R ((takeBatch.run w).1 ++ running) (takeBatch.run w).2 := by
  obtain ⟨waiting, hc, hb⟩ := h.balanced
  refine ⟨⟨waiting, hc, ?_⟩, h.inBounds.drain _⟩
  show Balanced R _ ((w.queue.drain w.batchSize).1 ++ running ++ (w.queue.drain w.batchSize).2.toList) _
  rw [← WorkQueue.drain_append h.inBounds w.batchSize, ← append_assoc] at hb
  rcases hR with hR | rfl
  · exact hb.reorder hR (perm_append_comm.append_right _)
  · rwa [append_nil]

/-! ## Programs and ticks -/

theorem keeps_perform (hR : Discipline R) {tick : Deed κ TickResult} (program : Program κ)
    (htick : program.TickFree ∨ Keeps R running tick) : Keeps R running (program.perform tick) := by
  induction program with
  | done => exact keeps_pure ()
  | settle outcome next ih =>
    exact (keeps_settleNoted outcome).bind fun result => ih result (htick.imp_left fun h => h result)
  | register callback next ih => exact (keeps_registerNoted hR callback).bind fun _ => ih htick
  | enqueue task next ih => exact (keeps_enqueue task).bind fun _ => ih htick
  | tick next ih =>
    have hkeeps := htick.resolve_left fun h => h
    exact hkeeps.bind fun result => ih result (.inr hkeeps)
  | look next ih => exact fun w h => ih w (htick.imp_left fun h => h w) w h

variable {handlers : Handlers κ}

theorem Kept.runTask (hR : Discipline R) {tick : Deed κ TickResult}
    (htick : handlers.TickFree ∨ Keeps R running tick) (fuel : Nat) {task : Task κ}
    (h : Kept R (task :: running) w) : Kept R running ((runTask handlers.client tick fuel task).run w).2 := by
  obtain ⟨waiting, hc, hb⟩ := h.balanced
  have hfit := hb.fit task mem_cons_self
  cases task with
  | client label =>
    refine keeps_perform hR _ (htick.imp_left fun h => h.task label) w ?_
    exact ⟨⟨waiting, hc, hb.dequeued⟩, h.inBounds⟩
  | notify callback outcome =>
    cases callback with
    | client label => exact keeps_perform hR _ (htick.imp_left fun h => h.callback label outcome) _ h.ran
    | slot | forward | resume => exact hfit.elim
  | start => exact hfit.elim

theorem Kept.runTasks (hR : Discipline R) {tick : Deed κ TickResult}
    (htick : handlers.TickFree ∨ ∀ running, Keeps R running tick) (fuel : Nat)
    {batch : List (Task κ)} (h : Kept R (batch ++ running) w) :
    Kept R running ((batch.forM (Async.runTask handlers.client tick fuel)).run w).2 := by
  induction batch generalizing w with
  | nil => exact h
  | cons task batch ih => exact ih (h.runTask hR (htick.imp_right fun h => h _) fuel)

/-- A tick keeps the books: inside of another one if the order does not matter, and otherwise if no
    task and no callback ticks. -/
theorem keeps_tick (hR : Discipline R) (hhandlers : handlers.TickFree ∨ Unordered R) (fuel : Nat)
    (hrunning : Unordered R ∨ running = []) : Keeps R running (tick handlers.client fuel) := by
  induction fuel generalizing running with
  | zero => exact keeps_pure _
  | succ fuel ih =>
    have hinner : handlers.TickFree ∨ ∀ running, Keeps R running (tick handlers.client fuel) :=
      hhandlers.imp_right fun h running => ih (.inl h)
    intro w h
    obtain ⟨batch, w₁, htake⟩ : ∃ batch w₁, takeBatch.run w = (batch, w₁) := ⟨_, _, rfl⟩
    have htaken := h.takeBatch hrunning
    rw [htake] at htaken
    rw [tick, StateT.run_bind, htake]
    cases batch with
    | nil => exact htaken
    | cons task batch =>
      have hrun := htaken.runTasks hR hinner (fuel + 1)
      exact ⟨hrun.balanced, hrun.inBounds⟩

end Steps

/-! ## Results -/

theorem discipline_eq : Discipline (@Eq (List κ)) where
  nil := rfl
  snoc h callback := congrArg (· ++ [callback]) h

theorem discipline_perm : Discipline (@List.Perm κ) where
  nil := .nil
  snoc h callback := h.append_right [callback]

theorem unordered_perm : Unordered (@List.Perm κ) := fun h hperm => h.trans hperm

/-- What can be said of a world with one continuation when nothing is being run. Every event was due
    when it happened; and once the continuation is settled and nothing is left to run, the callbacks
    that were registered are those that were run. -/
structure Told (R : List κ → List κ → Prop) (w : Recorded κ) : Prop where
  outcome : w.outcome? 0 = w.own.outcome?
  lawful : w.own.Lawful R
  complete : (w.outcome? 0).isSome → w.pending = 0 → R w.own.registered w.own.ran

theorem Kept.told {w : Recorded κ} (h : Kept R [] w) : Told R w where
  outcome := h.outcome?
  lawful := by
    obtain ⟨waiting, -, hb⟩ := h.balanced
    exact hb.lawful
  complete hsome hidle := by
    obtain ⟨waiting, -, hb⟩ := h.balanced
    have haccounts := hb.accounts
    rw [h.outcome?] at hsome
    rw [hb.nobody hsome, WorkQueue.toList_eq_nil hidle] at haccounts
    simpa [Async.told] using haccounts

theorem Handlers.told_after (hR : Discipline R) {handlers : Handlers κ}
    (h : handlers.TickFree ∨ Unordered R) (batchSize fuel : Nat) (program : Program κ) :
    Told R (handlers.after batchSize fuel program) := by
  have hstart : Kept R [] (newContinuation.run (World.withBatchSize batchSize [])).2 :=
    ⟨⟨[], rfl, .start hR⟩, WorkQueue.inBounds_empty⟩
  exact (keeps_perform hR program (.inr (keeps_tick hR h fuel (.inr rfl))) _ hstart).told

/-- Whatever client code does with a continuation and its scheduler, only the first settlement
    succeeds, and every callback is run once, with the outcome of the first settlement; and if no task
    and no callback ticks, callbacks are run in the order in which they were registered. A settlement
    that is refused changes nothing, and neither settling nor registering runs client code. -/
theorem waiters_told_once (handlers : Handlers κ) (batchSize fuel : Nat) (program : Program κ) :
    Told List.Perm (handlers.after batchSize fuel program) ∧
      (handlers.TickFree → Told Eq (handlers.after batchSize fuel program)) ∧
      (∀ (w : Recorded κ) outcome, (w.outcome? 0).isSome →
        (settle 0 outcome).run w = (.error .alreadySettled, w)) ∧
      ∀ (w : Recorded κ) outcome callback, ((settle 0 outcome).run w).2.own = w.own ∧
        ((onSettled 0 callback).run w).2.own = w.own :=
  ⟨handlers.told_after discipline_perm (.inr unordered_perm) batchSize fuel program,
    fun h => handlers.told_after discipline_eq (.inl h) batchSize fuel program,
    fun _ outcome h => settle_of_settled h outcome,
    fun w outcome callback => ⟨own_settle 0 outcome w, own_onSettled 0 callback w⟩⟩

def busy : Handlers String where
  task _ := .done
  callback label _ :=
    if label = "a" then .settle (.error (.rejected "late")) fun _ => .register "c" .done else .done

def earlyAndLate : Program String :=
  .register "a" (.enqueue "task" (.settle (.ok .null) fun _ =>
    .register "b" (.tick fun _ => .tick fun _ => .done)))

theorem waiters_told_once_busy :
    busy.TickFree ∧ Told Eq (busy.after 2 1 earlyAndLate) ∧
      ((busy.after 2 1 earlyAndLate).outcome? 0).isSome ∧
      (busy.after 2 1 earlyAndLate).pending = 0 ∧
      (busy.after 2 1 earlyAndLate).own.ran = ["a", "b", "c"] := by
  have hfree : busy.TickFree := by
    refine ⟨fun _ => trivial, fun label outcome => ?_⟩
    unfold busy
    dsimp only
    split
    · exact fun _ => trivial
    · trivial
  exact ⟨hfree, (waiters_told_once busy 2 1 earlyAndLate).2.1 hfree, rfl, rfl, rfl⟩

def impatient : Handlers String where
  task _ := .done
  callback label _ := if label = "a" then .tick fun _ => .done else .done

def threeWaiters : Program String :=
  .register "a" (.register "b" (.register "c" (.settle (.ok .null) fun _ => .tick fun _ => .done)))

/-- A tick inside of a tick runs later callbacks before the rest of its batch. -/
theorem nested_tick_overtakes :
    (impatient.after 2 2 threeWaiters).own.registered = ["a", "b", "c"] ∧
      (impatient.after 2 2 threeWaiters).own.ran = ["a", "c", "b"] := ⟨rfl, rfl⟩

end Motif.Async
