import Motif.Async.Scheduler
import Motif.Proofs.Async.Queue

/-!
# What is done to a continuation

A continuation that is settled stays as it is, and whoever waits for it is put into the queue. Neither
settling nor registering runs anything, and nothing that is done to continuations, awaiting included,
touches what the client keeps for itself (`KeepsOwn`).
-/

namespace Motif.Async

/-! ## Adding many items to a queue -/

namespace WorkQueue

variable {α : Type} {q : WorkQueue α}

def pushAll (q : WorkQueue α) (items : List α) : WorkQueue α := items.foldl push q

theorem InBounds.pushAll (h : q.InBounds) (items : List α) : (q.pushAll items).InBounds := by
  induction items generalizing q with
  | nil => exact h
  | cons item items ih => exact ih (h.push item)

theorem toList_pushAll (h : q.InBounds) (items : List α) : (q.pushAll items).toList = q.toList ++ items := by
  induction items generalizing q with
  | nil => exact (List.append_nil _).symm
  | cons item items ih =>
    show ((q.push item).pushAll items).toList = _
    rw [ih (h.push item), toList_push h, List.append_assoc, List.singleton_append]

theorem Full.pushAll (h : q.Full) (hbounds : q.InBounds) (items : List α) : (q.pushAll items).Full := by
  induction items generalizing q with
  | nil => exact h
  | cons item items ih => exact ih (h.push hbounds item) (hbounds.push item)

end WorkQueue

/-! ## Settling and registering -/

variable {κ ρ σ : Type} {w : World κ ρ σ} {c : Nat} {outcome : Outcome}
  {waiting : List (Callback κ)}

theorem run_enqueueAll {α : Type} (f : α → Task κ) (items : List α) (w : World κ ρ σ) :
    (items.forM fun item => enqueue (f item)).run w =
      ((), { w with queue := w.queue.pushAll (items.map f) }) := by
  induction items generalizing w with
  | nil => rfl
  | cons item items ih => exact ih { w with queue := w.queue.push (f item) }

theorem settle_of_waiting (h : w.continuations[c]? = some { outcome := none, waiting }) (outcome : Outcome) :
    (settle c outcome).run w = (.ok (), { w with
      continuations := w.continuations.set c { outcome := some outcome }
      queue := w.queue.pushAll (waiting.map (Task.notify · outcome)) }) := by
  simp only [settle, StateT.run_bind, StateT.run_get, pure_bind, h, run_enqueueAll]
  rfl

theorem settle_of_settled (h : (w.outcome? c).isSome) (outcome : Outcome) :
    (settle c outcome).run w = (.error .alreadySettled, w) := by
  obtain ⟨settled, h⟩ := Option.isSome_iff_exists.mp h
  obtain ⟨⟨_, waiting⟩, hc, rfl⟩ := Option.bind_eq_some_iff.mp h
  simp only [settle, StateT.run_bind, StateT.run_get, pure_bind, hc]
  rfl

theorem settle_of_missing (h : w.continuations[c]? = none) (outcome : Outcome) :
    (settle c outcome).run w = (.error .alreadySettled, w) := by
  simp only [settle, StateT.run_bind, StateT.run_get, pure_bind, h]
  rfl

theorem onSettled_of_waiting (h : w.continuations[c]? = some { outcome := none, waiting })
    (callback : Callback κ) : (onSettled c callback).run w = ((), { w with
      continuations := w.continuations.set c { waiting := waiting ++ [callback] } }) := by
  simp only [onSettled, StateT.run_bind, StateT.run_get, pure_bind, h]
  rfl

theorem onSettled_of_settled (h : w.outcome? c = some outcome) (callback : Callback κ) :
    (onSettled c callback).run w = ((), { w with queue := w.queue.push (.notify callback outcome) }) := by
  obtain ⟨⟨_, waiting⟩, hc, rfl⟩ := Option.bind_eq_some_iff.mp h
  simp only [onSettled, StateT.run_bind, StateT.run_get, pure_bind, hc]
  rfl

theorem onSettled_of_missing (h : w.continuations[c]? = none) (callback : Callback κ) :
    (onSettled c callback).run w = ((), w) := by
  simp only [onSettled, StateT.run_bind, StateT.run_get, pure_bind, h]
  rfl

theorem World.continuation_cases (w : World κ ρ σ) (c : Nat) : w.continuations[c]? = none ∨
      (∃ waiting, w.continuations[c]? = some { outcome := none, waiting }) ∨
      ∃ outcome, w.outcome? c = some outcome := by
  obtain hc | ⟨⟨outcome, waiting⟩, hc⟩ := Option.eq_none_or_eq_some w.continuations[c]?
  · exact .inl hc
  · cases outcome with
    | none => exact .inr (.inl ⟨waiting, hc⟩)
    | some outcome => exact .inr (.inr ⟨outcome, by rw [outcome?, hc]; rfl⟩)

theorem own_settle (c : Nat) (outcome : Outcome) (w : World κ ρ σ) :
    ((settle c outcome).run w).2.own = w.own := by
  obtain hc | ⟨waiting, hc⟩ | ⟨_, hc⟩ := w.continuation_cases c
  · rw [settle_of_missing hc]
  · rw [settle_of_waiting hc]
  · rw [settle_of_settled (Option.isSome_of_eq_some hc)]

theorem own_onSettled (c : Nat) (callback : Callback κ) (w : World κ ρ σ) :
    ((onSettled c callback).run w).2.own = w.own := by
  obtain hc | ⟨waiting, hc⟩ | ⟨_, hc⟩ := w.continuation_cases c
  · rw [onSettled_of_missing hc]
  · rw [onSettled_of_waiting hc]
  · rw [onSettled_of_settled hc]

/-! ## What the client keeps for itself -/

/-- The code leaves the client's own state as it is. -/
def KeepsOwn {α : Type} (x : Act κ ρ σ α) : Prop := ∀ w, (x.run w).2.own = w.own

theorem KeepsOwn.bind {α β : Type} {x : Act κ ρ σ α} {f : α → Act κ ρ σ β} (hx : KeepsOwn x)
    (hf : ∀ value, KeepsOwn (f value)) : KeepsOwn (x >>= f) :=
  fun w => (hf (x.run w).1 (x.run w).2).trans (hx w)

theorem keepsOwn_pure {α : Type} (value : α) : KeepsOwn (pure value : Act κ ρ σ α) := fun _ => rfl

theorem keepsOwn_forM {α : Type} {items : List α} {f : α → Act κ ρ σ Unit} (hf : ∀ item, KeepsOwn (f item)) :
    KeepsOwn (items.forM f) := by
  induction items with
  | nil => exact keepsOwn_pure ()
  | cons item items ih => exact (hf item).bind fun _ => ih

theorem keepsOwn_addContinuation (value : Continuation κ) :
    KeepsOwn (addContinuation value : Act κ ρ σ Nat) := fun _ => rfl

theorem keepsOwn_settle (c : Nat) (outcome : Outcome) :
    KeepsOwn (discard (settle c outcome) : Act κ ρ σ Unit) :=
  own_settle c outcome

theorem keepsOwn_fillSlot (group index : Nat) (outcome : Outcome) :
    KeepsOwn (fillSlot group index outcome : Act κ ρ σ Unit) := by
  refine KeepsOwn.bind (fun _ => rfl) fun w => ?_
  cases w.groups[group]? with
  | none => exact keepsOwn_pure ()
  | some g =>
    cases outcome with
    | error e => exact keepsOwn_settle g.target (.error e)
    | ok v =>
      dsimp only
      split
      · exact KeepsOwn.bind (fun _ => rfl) fun _ => keepsOwn_settle g.target _
      · exact fun _ => rfl

mutual

theorem keepsOwn_awaitValue : ∀ x : Awaitable, KeepsOwn (awaitValue x : Act κ ρ σ Nat)
  | .ready v => by
    rw [awaitValue]
    exact keepsOwn_addContinuation _
  | .pending c => by
    rw [awaitValue]
    exact keepsOwn_pure c
  | .many items => by
    rw [awaitValue]
    refine KeepsOwn.bind (keepsOwn_addContinuation _) fun target => ?_
    split
    · exact (keepsOwn_settle target _).bind fun _ => keepsOwn_pure target
    · exact KeepsOwn.bind (fun _ => rfl) fun group =>
        (keepsOwn_awaitItems group 0 items).bind fun _ => keepsOwn_pure target

theorem keepsOwn_awaitItems (group : Nat) :
    ∀ (index : Nat) (items : List Awaitable), KeepsOwn (awaitItems group index items : Act κ ρ σ Unit)
  | _, [] => by
    rw [awaitItems]
    exact keepsOwn_pure ()
  | index, item :: rest => by
    rw [awaitItems]
    refine (keepsOwn_awaitValue item).bind fun c => ?_
    exact KeepsOwn.bind (own_onSettled c _) fun _ => keepsOwn_awaitItems group (index + 1) rest

end

theorem keepsOwn_resolve (request : Suspend) : KeepsOwn (request.resolve : Act κ ρ σ Nat) := by
  obtain ⟨mode, value⟩ := request
  cases mode with
  | value | all => exact keepsOwn_awaitValue value
  | any =>
    cases value with
    | ready | pending => exact keepsOwn_awaitValue _
    | many items =>
      refine KeepsOwn.bind (keepsOwn_addContinuation _) fun target => ?_
      split
      · exact (keepsOwn_settle target _).bind fun _ => keepsOwn_pure target
      · refine (keepsOwn_forM fun item => ?_).bind fun _ => keepsOwn_pure target
        exact (keepsOwn_awaitValue item).bind fun c => own_onSettled c _

end Motif.Async
