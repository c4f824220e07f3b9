import Motif.Async.Scheduler
import Motif.Proofs.Async.Continuation

/-!
# The order of tasks

Tasks that do nothing but enqueue further tasks run in the order in which they were enqueued, each of them
once. How many are taken from the queue at once makes no difference, and neither does it where one tick ends
and the next one begins.

While a batch is run its rest is held apart from the queue, and what its tasks enqueue is added to the queue.
The rest of the batch and the queue together are at any moment what is still to be run (`Carries`).
-/

namespace Motif.Async

open List

variable {κ ρ σ : Type} {f : κ → σ → List κ × σ} {own own' : σ} {label : κ} {labels batch order : List κ}

/-! ## Tasks that enqueue tasks -/

/-- What has been run and enqueued, beside the state of the client. -/
structure Journal (κ σ : Type) where
  ran : List κ
  enqueued : List κ
  own : σ

/-- A client whose tasks enqueue further tasks, and note it. What they enqueue may depend on what has been
    done before. -/
def recording (f : κ → σ → List κ × σ) : Client κ Empty (Journal κ σ) where
  task _ label := do
    let (further, own) := f label (← get).own.own
    modify fun w => { w with own :=
      { ran := w.own.ran ++ [label], enqueued := w.own.enqueued ++ further, own } }
    further.forM fun label => enqueue (.client label)
  callback _ _ _ := pure ()
  sink _ _ := pure ()
  resume _ state := nomatch state

/-- Tasks, and whatever they enqueue, can all be run one by one: then these are run, in this order. -/
inductive Exhausts (f : κ → σ → List κ × σ) : σ → List κ → List κ → σ → Prop
  | nil {own : σ} : Exhausts f own [] [] own
  | cons {own own' : σ} {label : κ} {labels order : List κ}
    (h : Exhausts f (f label own).2 (labels ++ (f label own).1) order own') :
    Exhausts f own (label :: labels) (label :: order) own'

theorem run_recording (tick : Act κ Empty (Journal κ σ) TickResult) (label : κ)
    (w : World κ Empty (Journal κ σ)) :
    ((recording f).task tick label).run w = ((), { w with
      own := { ran := w.own.ran ++ [label], enqueued := w.own.enqueued ++ (f label w.own.own).1,
               own := (f label w.own.own).2 }
      queue := w.queue.pushAll ((f label w.own.own).1.map .client) }) :=
  run_enqueueAll Task.client (f label w.own.own).1 _

/-! ## A batch -/

variable {w : World κ Empty (Journal κ σ)}

/-- The rest of a batch and what is in the queue are still to be run. -/
structure Carries (f : κ → σ → List κ × σ) (order : List κ) (own' : σ) (w : World κ Empty (Journal κ σ))
    (batch : List κ) : Prop where
  inBounds : w.queue.InBounds
  full : w.queue.Full
  size : 0 < w.batchSize
  rest : ∃ labels rest, w.queue.toList = labels.map .client ∧
    Exhausts f w.own.own (batch ++ labels) rest own' ∧ w.own.ran ++ rest = order ∧
    w.own.enqueued = w.own.ran ++ (batch ++ labels)

theorem Carries.task (h : Carries f order own' w (label :: batch))
    (tick : Act κ Empty (Journal κ σ) TickResult) :
    Carries f order own' (((recording f).task tick label).run w).2 batch := by
  rw [run_recording]
  obtain ⟨labels, rest, hqueue, hexhausts, hran, henqueued⟩ := h.rest
  cases hexhausts with
  | @cons _ _ _ _ rest hexhausts =>
    refine ⟨h.inBounds.pushAll _, h.full.pushAll h.inBounds _, h.size,
      labels ++ (f label w.own.own).1, rest, ?_, ?_, ?_, ?_⟩
    · -- what it enqueues comes after all that is still to be run
      rw [WorkQueue.toList_pushAll h.inBounds, hqueue, map_append]
    · rw [← append_assoc]
      exact hexhausts
    · rw [append_assoc]
      exact hran
    · show w.own.enqueued ++ _ = _
      rw [henqueued]
      simp

theorem Carries.runAll (h : Carries f order own' w batch)
    (tick : Act κ Empty (Journal κ σ) TickResult) (bound : Nat) :
    ∃ w', ((batch.map Task.client).forM (runTask (recording f) tick bound)).run w = ((), w') ∧
      Carries f order own' w' [] ∧ w'.own.ran = w.own.ran ++ batch ∧ w'.completed = w.completed := by
  induction batch generalizing w with
  | nil => exact ⟨w, rfl, h, (append_nil _).symm, rfl⟩
  | cons label batch ih =>
    obtain ⟨w', hrun, hcarries, hran, hcompleted⟩ := ih (h.task tick)
    rw [run_recording] at hran hcompleted
    refine ⟨w', hrun, hcarries, ?_, hcompleted⟩
    rw [hran]
    exact append_assoc _ [label] batch

theorem Carries.takeBatch (h : Carries f order own' w []) :
    ∃ batch w', takeBatch.run w = (batch.map .client, w') ∧ Carries f order own' w' batch ∧
      w'.own = w.own ∧ w'.completed = w.completed ∧ (batch = [] → w'.queue.toList = []) := by
  obtain ⟨labels, rest, hqueue, hexhausts, hran, henqueued⟩ := h.rest
  have hbatch : (w.queue.drain w.batchSize).1 = (labels.take w.batchSize).map .client := by
    rw [h.full.drain_fst, hqueue, map_take]
  have hleft : (w.queue.drain w.batchSize).2.toList = (labels.drop w.batchSize).map .client := by
    rw [h.full.drain_snd h.inBounds, hqueue, map_drop]
  have htake : Async.takeBatch.run w =
      ((w.queue.drain w.batchSize).1, { w with queue := (w.queue.drain w.batchSize).2 }) := rfl
  rw [htake, hbatch]
  refine ⟨_, _, rfl, ⟨h.inBounds.drain _, h.full.drain h.inBounds _, h.size, _, rest, hleft, ?_, hran, ?_⟩,
    rfl, rfl, ?_⟩
  · rw [take_append_drop]
    exact hexhausts
  · rw [take_append_drop]
    exact henqueued
  · intro hempty
    rcases take_eq_nil_iff.mp hempty with hzero | rfl
    · exact absurd h.size (Nat.not_lt.mpr (Nat.le_of_eq hzero))
    · rw [drop_nil] at hleft
      exact hleft

/-- Everything was run in this order, and nothing is left to do. -/
structure Finished (order : List κ) (own' : σ) (w : World κ Empty (Journal κ σ)) : Prop where
  journal : w.own = { ran := order, enqueued := order, own := own' }
  idle : w.pending = 0

theorem Carries.finished (h : Carries f order own' w []) (hempty : w.queue.toList = []) :
    Finished order own' w := by
  obtain ⟨labels, rest, hqueue, hexhausts, hran, henqueued⟩ := h.rest
  obtain rfl : labels = [] := map_eq_nil_iff.mp (hqueue.symm.trans hempty)
  cases hexhausts
  constructor
  · rw [← hran, append_nil]
    show (⟨w.own.ran, w.own.enqueued, w.own.own⟩ : Journal κ σ) = _
    rw [henqueued, append_nil, append_nil]
  · rw [World.pending, h.full.length_eq, hempty]
    rfl

/-! ## Ticks -/

structure Between (f : κ → σ → List κ × σ) (order : List κ) (own' : σ)
    (w : World κ Empty (Journal κ σ)) : Prop where
  carries : Carries f order own' w []
  completed : w.completed = w.own.ran.length

theorem Between.length_le (h : Between f order own' w) : w.own.ran.length ≤ order.length := by
  obtain ⟨_, rest, -, -, hran, -⟩ := h.carries.rest
  rw [← hran, length_append]
  exact Nat.le_add_right _ _

theorem Between.next (h : Between f order own' w) (fuel : Nat) :
    ∃ result w', (tick (recording f) (fuel + 1)).run w = (result, w') ∧ Between f order own' w' ∧
      match result with
      | .progress => w.own.ran.length < w'.own.ran.length
      | .idle => Finished order own' w' := by
  obtain ⟨batch, w₁, htake, hcarries, hown, hcompleted, hempty⟩ := h.carries.takeBatch
  have hcount : w₁.completed = w₁.own.ran.length := by
    rw [hcompleted, hown]
    exact h.completed
  rw [tick, StateT.run_bind, htake]
  cases batch with
  | nil => exact ⟨.idle, w₁, rfl, ⟨hcarries, hcount⟩, hcarries.finished (hempty rfl)⟩
  | cons label batch =>
    obtain ⟨w₂, hrun, hcarries₂, hran, hcompleted₂⟩ := hcarries.runAll (tick (recording f) fuel) (fuel + 1)
    refine ⟨.progress, { w₂ with completed := w₂.completed + ((label :: batch).map Task.client).length },
      ?_, ⟨?_, ?_⟩, ?_⟩
    · show (do
        ((label :: batch).map Task.client).forM (runTask (recording f) (tick (recording f) fuel) (fuel + 1))
        modify fun w => { w with completed := w.completed + ((label :: batch).map Task.client).length }
        pure .progress : Act κ Empty (Journal κ σ) TickResult).run w₁ = _
      rw [StateT.run_bind, hrun]
      rfl
    · exact ⟨hcarries₂.inBounds, hcarries₂.full, hcarries₂.size, hcarries₂.rest⟩
    · show w₂.completed + _ = w₂.own.ran.length
      rw [hran, hcompleted₂, hcount, length_append, length_map]
    · show w.own.ran.length < w₂.own.ran.length
      rw [hran, hown, length_append]
      exact Nat.lt_add_of_pos_right (Nat.succ_pos _)

def ticks (tick : Act κ ρ σ TickResult) : Nat → Act κ ρ σ Unit
  | 0 => pure ()
  | n + 1 => do
    discard tick
    ticks tick n

theorem Between.ticks (h : Between f order own' w) (fuel n : Nat) :
    Between f order own' ((ticks (tick (recording f) (fuel + 1)) n).run w).2 := by
  induction n generalizing w with
  | zero => exact h
  | succ n ih =>
    obtain ⟨result, w', hrun, hbetween, -⟩ := h.next fuel
    have hsplit : (Async.ticks (tick (recording f) (fuel + 1)) (n + 1)).run w =
        (Async.ticks (tick (recording f) (fuel + 1)) n).run ((tick (recording f) (fuel + 1)).run w).2 := rfl
    rw [hsplit, hrun]
    exact ih hbetween

/-- Ticks until there is nothing to run. Every one but the last runs something. -/
theorem Between.untilIdle (h : Between f order own' w) (fuel limit : Nat)
    (hlimit : order.length < w.own.ran.length + limit) :
    Between f order own' ((untilIdle (tick (recording f) (fuel + 1)) limit).run w).2 ∧
      Finished order own' ((untilIdle (tick (recording f) (fuel + 1)) limit).run w).2 := by
  induction limit generalizing w with
  | zero =>
    -- more than all tasks would have been run
    exact absurd h.length_le (Nat.not_le.mpr hlimit)
  | succ limit ih =>
    obtain ⟨result, w', hrun, hbetween, hresult⟩ := h.next fuel
    rw [Async.untilIdle, StateT.run_bind, hrun]
    cases result with
    | idle => exact ⟨hbetween, hresult⟩
    | progress =>
      have hmore : w.own.ran.length < w'.own.ran.length := hresult
      have hlimit' : order.length < w'.own.ran.length + limit := by omega
      exact ih hbetween hlimit'

/-! ## The order -/

def scheduled (batchSize : Nat) (labels : List κ) (own : σ) : World κ Empty (Journal κ σ) :=
  ((labels.forM fun label => enqueue (.client label)).run
    (.withBatchSize batchSize { ran := [], enqueued := labels, own })).2

theorem between_scheduled (h : Exhausts f own labels order own') (batchSize : Nat) :
    Between f order own' (scheduled batchSize labels own) := by
  have hempty : WorkQueue.InBounds ({} : WorkQueue (Task κ)) := WorkQueue.inBounds_empty
  rw [scheduled, run_enqueueAll]
  refine ⟨⟨hempty.pushAll _, WorkQueue.full_empty.pushAll hempty _, ?_, labels, order, ?_, h, rfl, rfl⟩, rfl⟩
  · exact Nat.le_max_right batchSize 1
  · exact WorkQueue.toList_pushAll hempty _

/-- A scheduler that was given some tasks and has ticked `n` times. -/
def ticked (f : κ → σ → List κ × σ) (batchSize n fuel : Nat) (labels : List κ) (own : σ) :
    World κ Empty (Journal κ σ) :=
  ((ticks (tick (recording f) (fuel + 1)) n).run (scheduled batchSize labels own)).2

/-- The number of tasks that are run after that until there is nothing to run, and how it ends. -/
def emptied (f : κ → σ → List κ × σ) (batchSize n fuel limit : Nat) (labels : List κ) (own : σ) :
    Nat × World κ Empty (Journal κ σ) :=
  (runUntilIdle (tick (recording f) (fuel + 1)) limit).run (ticked f batchSize n fuel labels own)

theorem emptied_finished (h : Exhausts f own labels order own') (batchSize n fuel : Nat) {limit : Nat}
    (hlimit : order.length < limit) :
    Finished order own' (emptied f batchSize n fuel limit labels own).2 ∧
      (ticked f batchSize n fuel labels own).own.ran.length +
        (emptied f batchSize n fuel limit labels own).1 = order.length := by
  have hticked : Between f order own' (ticked f batchSize n fuel labels own) :=
    (between_scheduled h batchSize).ticks fuel n
  obtain ⟨hbetween, hfinished⟩ := hticked.untilIdle fuel limit
    (Nat.lt_of_lt_of_le hlimit (Nat.le_add_left limit _))
  refine ⟨hfinished, ?_⟩
  have hcount : (emptied f batchSize n fuel limit labels own).1 =
      (emptied f batchSize n fuel limit labels own).2.completed -
        (ticked f batchSize n fuel labels own).completed := rfl
  have hcompleted : (emptied f batchSize n fuel limit labels own).2.completed = order.length :=
    hbetween.completed.trans (congrArg (List.length ∘ Journal.ran) hfinished.journal)
  rw [hcount, hcompleted, hticked.completed]
  exact Nat.add_sub_cancel' hticked.length_le

/-- Tasks of which there are finitely many in all run in the order in which they were enqueued, each of them
    once, whatever the size of a batch and however often the scheduler has ticked before. Then nothing is
    pending, and those that were not run before are counted. So two schedulers come to the same. -/
theorem runUntilIdle_inOrder (h : Exhausts f own labels order own') (fuel limit : Nat)
    (hlimit : order.length < limit) :
    (∀ batchSize n, Finished order own' (emptied f batchSize n fuel limit labels own).2 ∧
      (ticked f batchSize n fuel labels own).own.ran.length +
        (emptied f batchSize n fuel limit labels own).1 = order.length) ∧
    ∀ batchSize batchSize' n n', (emptied f batchSize n fuel limit labels own).2.own =
      (emptied f batchSize' n' fuel limit labels own).2.own := by
  constructor
  · intro batchSize n
    exact emptied_finished h batchSize n fuel hlimit
  · intro batchSize batchSize' n n'
    rw [(emptied_finished h batchSize n fuel hlimit).1.journal,
      (emptied_finished h batchSize' n' fuel hlimit).1.journal]

def lesser (n sum : Nat) : List Nat × Nat :=
  match n with
  | 0 => ([], sum)
  | 1 => ([0], sum + 1)
  | n + 2 => ([n + 1, n], sum + n + 2)

theorem exhausts_lesser : Exhausts lesser 0 [2, 1] [2, 1, 1, 0, 0, 0] 4 :=
  .cons (.cons (.cons (.cons (.cons (.cons .nil)))))

theorem runUntilIdle_inOrder_lesser :
    (emptied lesser 1 2 0 7 [2, 1] 0).2.own = ⟨[2, 1, 1, 0, 0, 0], [2, 1, 1, 0, 0, 0], 4⟩ ∧
      (emptied lesser 1 2 0 7 [2, 1] 0).1 = 4 ∧
      (emptied lesser 4 0 0 7 [2, 1] 0).2.own = (emptied lesser 1 2 0 7 [2, 1] 0).2.own := by
  obtain ⟨horder, hsame⟩ := runUntilIdle_inOrder exhausts_lesser 0 7 (by decide)
  obtain ⟨hfinished, hcount⟩ := horder 1 2
  have hticked : (ticked lesser 1 2 0 [2, 1] 0).own.ran.length = 2 := by decide
  rw [hticked] at hcount
  exact ⟨hfinished.journal, Nat.add_left_cancel hcount, hsame 4 1 0 2⟩

end Motif.Async
