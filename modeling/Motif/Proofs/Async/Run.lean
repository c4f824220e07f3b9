import Motif.Proofs.Async.Continuation

/-!
# Runs

What happens while client code uses a scheduler, move by move. At every moment something may be left to
do by those who are at work: tasks of a batch, a coroutine that was resumed, a value for a sink. Client
code may call the scheduler at any moment.

Whatever code made of such calls does is a run, and so is a tick of the scheduler if tasks, callbacks,
coroutines and sinks are such code (`explained_tick`). A statement about all runs is one about every order
of calls and ticks, ticks inside of ticks included.

The moves of a run say when a coroutine is resumed and what its sink is given, and the client can tell
whether that is what happened: it may take notes in its own state, one each time that a coroutine is resumed
and one each time that a sink is given something. Then the notes of a tick are those that the moves of the run
say, in the same order, and no others. A driver that resumed a coroutine twice for one reason, or gave a value
to a sink twice, would leave notes that no run explains.
-/

namespace Motif.Async

open List

variable {κ ρ σ : Type} {since : World κ ρ σ} {emits fuel : Nat}

/-! ## Moves -/

/-- What a client may ask of the scheduler. -/
inductive Call (κ ρ : Type) where
  | create
  | resolved (v : Value)
  | settle (c : Nat) (outcome : Outcome)
  | register (c : Nat) (label : κ)
  | enqueue (label : κ)
  | await (request : Suspend)
  | spawn (state : ρ) (sink : Option κ)

def Call.perform : Call κ ρ → Act κ ρ σ Unit
  | .create => discard newContinuation
  | .resolved v => discard (newResolved v)
  | .settle c outcome => discard (Async.settle c outcome)
  | .register c label => onSettled c (.client label)
  | .enqueue label => Async.enqueue (.client label)
  | .await request => discard request.resolve
  | .spawn state sink => discard (Async.spawn state sink)

/-- What has been begun and is to be gone on with. -/
inductive Work (κ ρ σ : Type) where
  | task (task : Task κ)
  /-- A coroutine is to be resumed. It has emitted so many values since it was resumed by a task. -/
  | drive (coroutine : Nat) (input : Outcome) (emits : Nat)
  /-- A coroutine was resumed in the world `since` and has not answered. -/
  | running (coroutine : Nat) (c : Coroutine κ ρ) (input : Outcome) (emits : Nat) (since : World κ ρ σ)
  /-- The sink of a coroutine was given a value in the world `since` and has not returned. -/
  | hand (coroutine : Nat) (sink : κ) (v : Value) (emits : Nat) (since : World κ ρ σ)

/-- A world, and what is going on in it. -/
structure Scene (κ ρ σ : Type) where
  /-- What is still to be done, innermost first. -/
  agenda : List (Work κ ρ σ)
  world : World κ ρ σ

def Scene.start (batchSize : Nat) (own : σ) : Scene κ ρ σ := ⟨[], .withBatchSize batchSize own⟩

def Scene.Idle (s : Scene κ ρ σ) : Prop := s.agenda = [] ∧ s.world.pending = 0

/-- One thing that happens while a scheduler is at work. -/
inductive Move (κ ρ : Type) where
  | noted
  | called (call : Call κ ρ)
  | took (isNested : Bool)
  | ran (task : Task κ)
  | resumed (coroutine : Nat) (input : Outcome)
  | suspended (coroutine : Nat) (request : Suspend) (awaited : Nat)
  | emitted (coroutine : Nat) (v : Value)
  | received (coroutine : Nat) (sink : κ) (v : Value)
  | ended (coroutine : Nat) (step : Step) (outcome : Outcome)
  | stalled (coroutine : Nat) (emits : Nat)
  | lost (coroutine : Nat)

def Task.effect : Task κ → Act κ ρ σ Unit
  | .notify (.slot group index) outcome => fillSlot group index outcome
  | .notify (.forward target) outcome => discard (settle target outcome)
  | _ => pure ()

def Task.work : Task κ → List (Work κ ρ σ)
  | .start coroutine => [.drive coroutine (.ok .nothing) 0]
  | .notify (.resume coroutine) outcome => [.drive coroutine outcome 0]
  | _ => []

def Step.result? (sink : Option κ) : Step → Option Outcome
  | .complete v => some (.ok v)
  | .fail message => some (.error (.coroutineFailed message))
  | .emit _ => if sink.isSome then none else some (.error (.coroutineFailed "emit outside a generate block"))
  | .suspend _ => none

def waitFor (request : Suspend) (coroutine : Nat) : Act κ ρ σ Unit := do
  onSettled (← request.resolve) (.resume coroutine)

/-- A coroutine that was resumed in the world `since` has answered in the world `w`. In `w'` its state is
    kept. -/
def Answers (client : Client κ ρ σ) (i : Nat) (c : Coroutine κ ρ) (input : Outcome)
    (since w : World κ ρ σ) (step : Step) (w' : World κ ρ σ) : Prop :=
  ∃ fuel state, (client.resume (tick client fuel) c.state input).run since = ((step, state), w) ∧
    w' = ((setState i state).run w).2

/-- What a move makes of a scene. -/
inductive Moves (client : Client κ ρ σ) : Scene κ ρ σ → Move κ ρ → Scene κ ρ σ → Prop
  | noted {a w} (own : σ) (completed : Nat) :
    Moves client ⟨a, w⟩ .noted ⟨a, { w with own, completed }⟩
  | called {a w} (call : Call κ ρ) :
    Moves client ⟨a, w⟩ (.called call) ⟨a, (call.perform.run w).2⟩
  | took {a w} : Moves client ⟨a, w⟩ (.took !a.isEmpty)
      ⟨(takeBatch.run w).1.map .task ++ a, (takeBatch.run w).2⟩
  | ran {a w} (task : Task κ) :
    Moves client ⟨.task task :: a, w⟩ (.ran task) ⟨task.work ++ a, (task.effect.run w).2⟩
  | resumed {a w i c input emits} (h : w.coroutines[i]? = some c) :
    Moves client ⟨.drive i input emits :: a, w⟩ (.resumed i input) ⟨.running i c input emits w :: a, w⟩
  | suspended {a w i c input emits since request w'}
    (h : Answers client i c input since w (.suspend request) w')
    (hc : (request.resolve.run w').1 < (request.resolve.run w').2.continuations.length) :
    Moves client ⟨.running i c input emits since :: a, w⟩
      (.suspended i request (request.resolve.run w').1) ⟨a, ((waitFor request i).run w').2⟩
  | emitted {a w i c input emits since v sink w'} (h : Answers client i c input since w (.emit v) w')
    (hsink : c.sink = some sink) :
    Moves client ⟨.running i c input emits since :: a, w⟩ (.emitted i v)
      ⟨.hand i sink v (emits + 1) w' :: a, w'⟩
  | received {a w i sink v emits since} (h : ((client.sink sink v).run since).2 = w) :
    Moves client ⟨.hand i sink v emits since :: a, w⟩ (.received i sink v)
      ⟨.drive i (.ok .nothing) emits :: a, w⟩
  | ended {a w i c input emits since step outcome w'} (h : Answers client i c input since w step w')
    (hresult : step.result? c.sink = some outcome) :
    Moves client ⟨.running i c input emits since :: a, w⟩ (.ended i step outcome)
      ⟨a, ((settle c.done outcome).run w').2⟩
  | stalled {a w i input emits} (h : 0 < emits) :
    Moves client ⟨.drive i input emits :: a, w⟩ (.stalled i emits) ⟨a, w⟩
  | missing {a w i input emits} (h : w.coroutines[i]? = none) :
    Moves client ⟨.drive i input emits :: a, w⟩ (.lost i) ⟨a, w⟩
  | lost {a w i c input emits since request w'}
    (h : Answers client i c input since w (.suspend request) w')
    (hc : (request.resolve.run w').2.continuations.length ≤ (request.resolve.run w').1) :
    Moves client ⟨.running i c input emits since :: a, w⟩ (.lost i) ⟨a, ((waitFor request i).run w').2⟩

/-- The moves that lead from one scene to another. -/
inductive Run (client : Client κ ρ σ) (s : Scene κ ρ σ) : List (Move κ ρ) → Scene κ ρ σ → Prop
  | refl : Run client s [] s
  | snoc {moves m s' s''} (h : Run client s moves s') (hm : Moves client s' m s'') :
    Run client s (moves ++ [m]) s''

variable {client : Client κ ρ σ} {s s' s'' : Scene κ ρ σ} {m : Move κ ρ} {moves moves' : List (Move κ ρ)}

theorem Moves.run (h : Moves client s m s') : Run client s [m] s' := Run.refl.snoc h

theorem Run.trans (h : Run client s moves s') (h' : Run client s' moves' s'') :
    Run client s (moves ++ moves') s'' := by
  induction h' with
  | refl => rwa [append_nil]
  | snoc _ hm ih =>
    rw [← append_assoc]
    exact ih.snoc hm

theorem Run.exists_first {p : Scene κ ρ σ → Prop} (h : Run client s moves s') (hs : ¬ p s) (hs' : p s') :
    ∃ moves₁ m moves₂ s₁ s₂, moves = moves₁ ++ m :: moves₂ ∧ Run client s moves₁ s₁ ∧ ¬ p s₁ ∧
      Moves client s₁ m s₂ ∧ p s₂ ∧ Run client s₂ moves₂ s' := by
  induction h with
  | refl => exact absurd hs' hs
  | @snoc moves m s' s'' hrun hm ih =>
    by_cases hp : p s'
    · obtain ⟨moves₁, m₁, moves₂, s₁, s₂, rfl, hrun₁, hs₁, hm₁, hs₂, hrun₂⟩ := ih hp
      exact ⟨moves₁, m₁, moves₂ ++ [m], s₁, s₂, by simp, hrun₁, hs₁, hm₁, hs₂, hrun₂.snoc hm⟩
    · exact ⟨moves, m, [], s', s'', rfl, hrun, hp, hm, hs', .refl⟩

/-- Client code settles none of the continuations `C`. -/
def Spared (C : Nat → Prop) (moves : List (Move κ ρ)) : Prop :=
  ∀ c outcome, .called (.settle c outcome) ∈ moves → ¬ C c

theorem Spared.subset {C : Nat → Prop} (h : Spared C moves) (hsub : moves' ⊆ moves) : Spared C moves' :=
  fun c outcome hmem => h c outcome (hsub hmem)

theorem Spared.of_mem {C : Nat → Prop} {c : Nat} (h : Spared C moves) (hmem : m ∈ moves) (hc : C c)
    (outcome : Outcome) : m ≠ .called (.settle c outcome) := by
  rintro rfl
  exact h c outcome hmem hc

/-! ## What a client is told -/

/-- What the parts of a client are told by the driver: that a coroutine is resumed, and what a sink is
    given. -/
inductive Note (κ : Type) where
  | resumed (input : Outcome)
  | received (sink : κ) (v : Value)

def Move.note? : Move κ ρ → Option (Note κ)
  | .resumed _ input => some (.resumed input)
  | .received _ sink v => some (.received sink v)
  | _ => none

def notesOf (moves : List (Move κ ρ)) : List (Note κ) := moves.filterMap Move.note?

/-! ## Code that is explained by runs -/

/-- The manners of client code: what it calls, and what it notes of what it is told. -/
structure Manner (κ ρ σ : Type) where
  calls : Call κ ρ → Prop
  /-- Whether tasks, callbacks and coroutines tick. -/
  nested : Prop
  /-- How many values a coroutine may emit in a row, at least, before it is given up. -/
  patience : Nat
  /-- What is noted when it is told. -/
  takes : Note κ → Bool := fun _ => false
  /-- The notes in the client's own state. -/
  notes : σ → List (Note κ) := fun _ => []

def Move.Admitted (manner : Manner κ ρ σ) : Move κ ρ → Prop
  | .called call => manner.calls call
  | .took isNested => isNested → manner.nested
  | .stalled _ emits => manner.patience ≤ emits
  | _ => True

/-- A run leads from the one scene to the other. In the meantime what its moves say was noted, and before and
    after that what is in `first` and `last`. -/
def Tells (client : Client κ ρ σ) (manner : Manner κ ρ σ) (first last : List (Note κ))
    (s s' : Scene κ ρ σ) : Prop :=
  ∃ moves, Run client s moves s' ∧ (∀ m ∈ moves, m.Admitted manner) ∧ manner.notes s'.world.own =
    manner.notes s.world.own ++ (first ++ notesOf moves ++ last).filter manner.takes

abbrev Reaches (client : Client κ ρ σ) (manner : Manner κ ρ σ) (s s' : Scene κ ρ σ) : Prop :=
  Tells client manner [] [] s s'

variable {α β : Type} {manner : Manner κ ρ σ} {a a' a'' : List (Work κ ρ σ)} {first last : List (Note κ)}

theorem Tells.refl (s : Scene κ ρ σ) : Reaches client manner s s :=
  ⟨[], .refl, forall_mem_nil _, (append_nil _).symm⟩

theorem Tells.trans (h : Tells client manner first [] s s') (h' : Tells client manner [] last s' s'') :
    Tells client manner first last s s'' := by
  obtain ⟨moves, hrun, hmoves, hnotes⟩ := h
  obtain ⟨moves', hrun', hmoves', hnotes'⟩ := h'
  refine ⟨moves ++ moves', hrun.trans hrun', forall_mem_append.mpr ⟨hmoves, hmoves'⟩, ?_⟩
  rw [hnotes', hnotes]
  simp [notesOf]

theorem Moves.reaches (h : Moves client s m s') (hnote : m.note? = none)
    (hown : s'.world.own = s.world.own) (hm : m.Admitted manner) : Reaches client manner s s' := by
  refine ⟨[m], h.run, forall_mem_singleton.mpr hm, ?_⟩
  rw [hown]
  simp [notesOf, hnote]

/-- Whatever the code does is a run by which one agenda becomes another. -/
def Leads (client : Client κ ρ σ) (manner : Manner κ ρ σ) (a a' : List (Work κ ρ σ))
    (x : Act κ ρ σ α) : Prop :=
  ∀ w, Reaches client manner ⟨a, w⟩ ⟨a', (x.run w).2⟩

abbrev Explained (client : Client κ ρ σ) (manner : Manner κ ρ σ)
    (a : List (Work κ ρ σ)) (x : Act κ ρ σ α) : Prop :=
  Leads client manner a a x

theorem explained_pure (value : α) : Explained client manner a (pure value) := fun _ => .refl _

theorem Leads.bind {x : Act κ ρ σ α} {f : α → Act κ ρ σ β} (hx : Leads client manner a a' x)
    (hf : ∀ value, Leads client manner a' a'' (f value)) : Leads client manner a a'' (x >>= f) :=
  fun w => (hx w).trans (hf (x.run w).1 (x.run w).2)

theorem Call.keepsOwn_perform (call : Call κ ρ) : KeepsOwn (call.perform : Act κ ρ σ Unit) := by
  cases call with
  | create | resolved | enqueue | spawn => exact fun _ => rfl
  | settle c outcome => exact keepsOwn_settle c outcome
  | register c label => exact own_onSettled c _
  | await request => exact keepsOwn_resolve request

theorem explained_call (call : Call κ ρ) (h : manner.calls call) {x : Act κ ρ σ α}
    (hx : ∀ w, (x.run w).2 = (call.perform.run w).2) : Explained client manner a x := by
  intro w
  rw [hx w]
  exact (Moves.called call).reaches rfl (call.keepsOwn_perform w) h

/-! ## Ticks -/

/-- The parts of a client are explained if ticks are. Where ticks inside of ticks are not wanted, they are
    explained whatever a tick does. Before a coroutine does anything it notes what it is resumed with, and a
    sink notes in the end what it was given; all else that is noted is what ticks note. -/
structure Client.Plain (client : Client κ ρ σ) (manner : Manner κ ρ σ) : Prop where
  task : ∀ tick, (manner.nested → ∀ a, Explained client manner a tick) →
    ∀ label a, Explained client manner a (client.task tick label)
  callback : ∀ tick, (manner.nested → ∀ a, Explained client manner a tick) →
    ∀ label outcome a, Explained client manner a (client.callback tick label outcome)
  sink : ∀ label v a w, Tells client manner [] [.received label v] ⟨a, w⟩
    ⟨a, ((client.sink label v).run w).2⟩
  resume : ∀ tick, (manner.nested → ∀ a, Explained client manner a tick) →
    ∀ state input a w, Tells client manner [.resumed input] [] ⟨a, w⟩
      ⟨a, ((client.resume tick state input).run w).2⟩

theorem keepsOwn_waitFor (request : Suspend) (i : Nat) : KeepsOwn (waitFor request i : Act κ ρ σ Unit) :=
  (keepsOwn_resolve request).bind fun c => own_onSettled c _

theorem Task.keepsOwn_effect (task : Task κ) : KeepsOwn (task.effect : Act κ ρ σ Unit) := by
  cases task with
  | client | start => exact keepsOwn_pure ()
  | notify callback outcome =>
    cases callback with
    | client | resume => exact keepsOwn_pure ()
    | slot group index => exact keepsOwn_fillSlot group index outcome
    | forward target => exact keepsOwn_settle target outcome

section Driving

variable {i : Nat} {c : Coroutine κ ρ} {input : Outcome} {w w' : World κ ρ σ} {step : Step}

theorem Answers.own_eq (h : Answers client i c input since w step w') : w'.own = w.own := by
  obtain ⟨_, _, -, rfl⟩ := h
  rfl

theorem Answers.reaches (h : Answers client i c input since w step w') {outcome : Outcome}
    (hresult : step.result? c.sink = some outcome) :
    Reaches client manner ⟨.running i c input emits since :: a, w⟩ ⟨a, ((settle c.done outcome).run w').2⟩ :=
  (Moves.ended h hresult).reaches rfl ((own_settle _ _ _).trans h.own_eq) trivial

theorem Answers.reaches_suspend {request : Suspend}
    (h : Answers client i c input since w (.suspend request) w') :
    Reaches client manner ⟨.running i c input emits since :: a, w⟩ ⟨a, ((waitFor request i).run w').2⟩ := by
  have hown : ((waitFor request i).run w').2.own = w.own := (keepsOwn_waitFor request i w').trans h.own_eq
  rcases Nat.lt_or_ge (request.resolve.run w').1 (request.resolve.run w').2.continuations.length
    with hc | hc
  · exact (Moves.suspended h hc).reaches rfl hown trivial
  · exact (Moves.lost h hc).reaches rfl hown trivial

/-- To resume a coroutine is one move and whatever the coroutine then does; the note that it takes first is the
    one of the move. -/
theorem Client.Plain.reaches_resume (hclient : client.Plain manner) {tick : Act κ ρ σ TickResult}
    (htick : manner.nested → ∀ a, Explained client manner a tick) (hc : w.coroutines[i]? = some c) :
    Reaches client manner ⟨.drive i input emits :: a, w⟩
      ⟨.running i c input emits w :: a, ((client.resume tick c.state input).run w).2⟩ := by
  obtain ⟨moves, hrun, hmoves, hnotes⟩ :=
    hclient.resume tick htick c.state input (.running i c input emits w :: a) w
  refine ⟨.resumed i input :: moves, (Moves.resumed hc).run.trans hrun, ?_, ?_⟩
  · exact forall_mem_cons.mpr ⟨trivial, hmoves⟩
  · rw [hnotes]
    simp [notesOf, Move.note?]

/-- A sink is given something; when it is done, that is one move, with the note that it takes last. -/
theorem Client.Plain.reaches_sink (hclient : client.Plain manner) (label : κ) (v : Value) :
    Reaches client manner ⟨.hand i label v emits w :: a, w⟩
      ⟨.drive i (.ok .nothing) emits :: a, ((client.sink label v).run w).2⟩ := by
  obtain ⟨moves, hrun, hmoves, hnotes⟩ := hclient.sink label v (.hand i label v emits w :: a) w
  refine ⟨moves ++ [.received i label v], hrun.snoc (.received rfl), ?_, ?_⟩
  · exact forall_mem_append.mpr ⟨hmoves, forall_mem_singleton.mpr trivial⟩
  · rw [hnotes]
    simp [notesOf, Move.note?]

end Driving

theorem leads_drive (hclient : client.Plain manner)
    (htick : manner.nested → ∀ a, Explained client manner a (tick client fuel)) (i bound : Nat)
    (input : Outcome) (hpos : 0 < emits + bound) (hpatience : manner.patience ≤ emits + bound) :
    Leads client manner (.drive i input emits :: a) a (drive client (tick client fuel) i bound input) := by
  induction bound generalizing input emits with
  | zero =>
    -- as it has been driven on for so long it has emitted something each time
    exact fun w => (Moves.stalled hpos).reaches rfl rfl hpatience
  | succ bound ih =>
    intro w
    rw [drive, StateT.run_bind, StateT.run_get]
    cases hc : w.coroutines[i]? with
    | none =>
      simp only [pure_bind, hc]
      exact (Moves.missing hc).reaches rfl rfl trivial
    | some c =>
      simp only [pure_bind, hc, StateT.run_bind]
      refine (hclient.reaches_resume htick hc).trans ?_
      obtain ⟨⟨step, state⟩, w₁, hanswer⟩ :
          ∃ answer w₁, (client.resume (tick client fuel) c.state input).run w = (answer, w₁) :=
        ⟨_, _, rfl⟩
      rw [hanswer]
      have hanswers : Answers client i c input w w₁ step ((setState i state).run w₁).2 :=
        ⟨fuel, state, hanswer, rfl⟩
      cases step with
      | suspend request => exact hanswers.reaches_suspend
      | complete v => exact hanswers.reaches rfl
      | fail message => exact hanswers.reaches rfl
      | emit v =>
        cases hsink : c.sink with
        | none => exact hanswers.reaches (by rw [hsink]; rfl)
        | some sink =>
          refine ((Moves.emitted hanswers hsink).reaches rfl rfl trivial).trans ?_
          exact (hclient.reaches_sink sink v).trans (ih _ (by omega) (by omega) _)

theorem leads_runTask (hclient : client.Plain manner)
    (htick : manner.nested → ∀ a, Explained client manner a (tick client fuel)) {bound : Nat}
    (hpos : 0 < bound) (hpatience : manner.patience ≤ bound) (task : Task κ) :
    Leads client manner (.task task :: a) a (runTask client (tick client fuel) bound task) := by
  intro w
  refine ((Moves.ran task).reaches rfl (task.keepsOwn_effect w) trivial).trans ?_
  cases task with
  | client label => exact hclient.task _ htick label _ w
  | start coroutine => exact leads_drive hclient htick coroutine bound _ (by omega) (by omega) w
  | notify callback outcome =>
    cases callback with
    | client label => exact hclient.callback _ htick label outcome _ w
    | slot group index => exact .refl _
    | forward target => exact .refl _
    | resume coroutine => exact leads_drive hclient htick coroutine bound _ (by omega) (by omega) w

theorem leads_runTasks (hclient : client.Plain manner)
    (htick : manner.nested → ∀ a, Explained client manner a (tick client fuel)) {bound : Nat}
    (hpos : 0 < bound) (hpatience : manner.patience ≤ bound) (batch : List (Task κ)) :
    Leads client manner (batch.map .task ++ a) a (batch.forM (runTask client (tick client fuel) bound)) := by
  induction batch with
  | nil => exact explained_pure ()
  | cons task batch ih => exact (leads_runTask hclient htick hpos hpatience task).bind fun _ => ih

/-- Whether a tick with this fuel is patient enough. A tick inside of another may have little fuel. -/
def Manner.Suits (manner : Manner κ ρ σ) (fuel : Nat) : Prop :=
  manner.patience ≤ 1 ∨ (¬ manner.nested ∧ manner.patience ≤ fuel)

theorem explained_tick (hclient : client.Plain manner) (hfuel : manner.Suits fuel)
    (ha : a = [] ∨ manner.nested) : Explained client manner a (tick client fuel) := by
  induction fuel generalizing a with
  | zero => exact explained_pure _
  | succ fuel ih =>
    have hpatience : manner.patience ≤ fuel + 1 := by
      rcases hfuel with hone | ⟨-, hle⟩
      · exact Nat.le_trans hone (Nat.le_add_left 1 fuel)
      · exact hle
    have hinner : manner.nested → ∀ a, Explained client manner a (tick client fuel) := by
      intro hnested a
      refine ih (hfuel.imp_right fun hnot => ?_) (.inr hnested)
      exact absurd hnested hnot.1
    have htook : (Move.took (!a.isEmpty) : Move κ ρ).Admitted manner := by
      rcases ha with rfl | hnested
      · exact fun h => nomatch h
      · exact fun _ => hnested
    intro w
    refine (Moves.took.reaches rfl rfl htook).trans ?_
    obtain ⟨batch, w₁, htake⟩ : ∃ batch w₁, takeBatch.run w = (batch, w₁) := ⟨_, _, rfl⟩
    rw [tick, StateT.run_bind, htake]
    cases batch with
    | nil => exact .refl _
    | cons task batch =>
      refine (leads_runTasks hclient hinner (Nat.succ_pos fuel) hpatience _ w₁).trans ?_
      exact (Moves.noted _ _).reaches rfl rfl trivial

/-- Ticks are runs, those inside of ticks as well, in which client code keeps to what its parts keep to, and
    when a tick is over what it was told is noted. -/
def Client.TicksRun (client : Client κ ρ σ) : Prop :=
  ∀ (manner : Manner κ ρ σ), client.Plain manner → ∀ fuel a, manner.Suits fuel → a = [] ∨ manner.nested →
    Explained client manner a (tick client fuel)

theorem ticksRun (client : Client κ ρ σ) : client.TicksRun :=
  fun _ hclient _ _ hfuel ha => explained_tick hclient hfuel ha

/-- A coroutine that is driven takes the turns of a run, and what it and its sink were told is noted. -/
def Client.DrivesRun (client : Client κ ρ σ) : Prop :=
  ∀ (manner : Manner κ ρ σ), client.Plain manner → ∀ fuel bound a, manner.Suits fuel → 0 < bound →
    manner.patience ≤ bound → ∀ i input,
      Leads client manner (.drive i input 0 :: a) a (drive client (tick client fuel) i bound input)

theorem drivesRun (client : Client κ ρ σ) : client.DrivesRun := by
  intro manner hclient fuel bound a hfuel hpos hpatience i input
  exact leads_drive hclient (fun hnested _ => explained_tick hclient hfuel (.inr hnested)) i bound input
    (by omega) (by omega)

/-! ### A client that does nothing -/

def quiet : Client Empty Empty Unit where
  task _ label := nomatch label
  callback _ label := nomatch label
  sink label := nomatch label
  resume _ state := nomatch state

theorem plain_quiet (manner : Manner Empty Empty Unit) : quiet.Plain manner where
  task _ _ label := nomatch label
  callback _ _ label := nomatch label
  sink label := nomatch label
  resume _ _ state := nomatch state

end Motif.Async
