import Motif.Proofs.Async.Race

/-!
# Awaiting any of a collection

When any of a collection is awaited, a race is set up in which every item takes part, one after the other.
From then on it is kept by every move that it is a race, and, as long as no tick is made inside of a tick,
who is in front (`awaitAny_raced`). A tick inside of a tick can have somebody overtake
(`nested_tick_outruns`).
-/

namespace Motif.Async

open List

variable {κ ρ σ : Type} {client : Client κ ρ σ} {s s' : Scene κ ρ σ} {m : Move κ ρ}
  {moves : List (Move κ ρ)} {a : List (Work κ ρ σ)} {w w₀ w₁ : World κ ρ σ} {target c : Nat} {cs : List Nat}
  {item : Awaitable} {items done : List Awaitable} {outcome : Outcome}

/-! ## A race is set up -/

theorem Grown.outcome?_eq (h : Grown a w w₁) (hc : c < w.continuations.length) :
    w₁.outcome? c = w.outcome? c := by
  obtain ⟨xs, hpath, hxs⟩ := h.path
  refine hpath.outcome?_eq hc fun outcome hmem => ?_
  exact Nat.not_lt.mpr (hxs _ hmem) hc

theorem Races.grown (h : Races ⟨a, w⟩ target items cs) (hgrown : Grown a w w₁) :
    Races ⟨a, w₁⟩ target items cs := by
  obtain ⟨xs, hpath, hxs⟩ := hgrown.path
  refine h.along hpath ?_ ?_ (h.exclusive.step (hgrown.effect (m := .noted)))
  · intro x hx hconcerns
    have hfresh := hxs x hx
    cases x with
    | push | add | settle | shuffle => exact hconcerns
    | pop => exact hfresh
    | register d callback =>
      obtain rfl : callback = .forward target := hconcerns
      exact Nat.not_lt.mpr hfresh.1 h.exclusive.lt
  · intro outcome hmem
    exact Nat.not_lt.mpr (hxs _ hmem) h.exclusive.lt

theorem races_new (hs : Sound ⟨a, w⟩) : Races ⟨a, (newContinuation.run w).2⟩ w.continuations.length [] [] := by
  have hstep : Ledger.Step (Scene.ledger ⟨a, w⟩) (.add none) (Scene.ledger ⟨a, (newContinuation.run w).2⟩) :=
    .add
  have hnobody (x : Settler) := hs.not_settledBy (Nat.le_refl _) x
  refine ⟨⟨?_, fun x hx => ?_⟩, ?_, fun _ => forall_mem_nil _, fun hwon => ?_, forall_mem_nil _,
    forall_mem_nil _⟩
  · exact lt_newContinuation w
  · cases x with
    | group i => exact absurd hx (hnobody (.group i))
    | coroutine i => exact absurd hx (hnobody (.coroutine i))
    | race => rfl
  · refine hstep.confined ⟨fun hk hmem => ?_, fun hmem => ?_⟩ fun _ => nofun
    · refine absurd (mem_append_right _ ?_) (hnobody .race)
      exact mem_flatMap.mpr ⟨_, mem_of_getElem? hk, hmem⟩
    · refine absurd (mem_append_left _ ?_) (hnobody .race)
      exact mem_filterMap.mpr ⟨_, hmem, rfl⟩
  · cases hwon.symm.trans (outcome?_newContinuation w)

theorem Races.register (h : Races ⟨a, w⟩ target done cs) (hbounds : w.queue.InBounds)
    (hlt : c < w.continuations.length) (hunsettled : w.outcome? target = none) (hracer : Racer ⟨a, w⟩ c item) :
    Races ⟨a, ((onSettled c (.forward target)).run w).2⟩ target (done ++ [item]) (cs ++ [c]) := by
  have ht := touches_onSettled (a := a) hbounds c (.forward target)
  have hstep := step_onSettled (a := a) hbounds hlt (.forward target)
  have hnone := hstep.outcome?_eq h.exclusive.lt fun _ => nofun
  refine ⟨⟨Nat.lt_of_lt_of_le h.exclusive.lt ht.length_le, fun x hx => ?_⟩, ?_, fun _ => ?_, fun hwon => ?_,
    ?_, ?_⟩
  · cases x with
    | group group =>
      obtain ⟨g, hg, htarget⟩ := hx
      exact h.exclusive.only (.group group) ⟨g, ht.groups ▸ hg, htarget⟩
    | coroutine i =>
      obtain ⟨co, hco, hdone⟩ := hx
      exact h.exclusive.only (.coroutine i) ⟨co, ht.coroutines ▸ hco, hdone⟩
    | race => rfl
  · refine hstep.confined (h.confined.mono fun d hd => mem_append_left _ hd) ?_
    intro d heq
    cases heq
    exact mem_append_right _ (mem_singleton.mpr rfl)
  · refine forall_mem_append.mpr ⟨fun d hd => ?_, forall_mem_singleton.mpr hstep.located_register⟩
    exact hstep.located (h.located hunsettled d hd) fun _ => nofun
  · cases hwon.symm.trans (hnone.trans hunsettled)
  · refine forall_mem_append.mpr ⟨fun item hitem => ?_, forall_mem_singleton.mpr ?_⟩
    · obtain ⟨d, hd, hracer'⟩ := h.racer item hitem
      exact ⟨d, mem_append_left _ hd, hracer'.along hstep.path⟩
    · exact ⟨c, mem_append_right _ (mem_singleton.mpr rfl), hracer.along hstep.path⟩
  · refine forall_mem_append.mpr ⟨fun d hd => ?_, forall_mem_singleton.mpr ?_⟩
    · obtain ⟨item, hitem, hracer'⟩ := h.entry d hd
      exact ⟨item, mem_append_left _ hitem, hracer'.along hstep.path⟩
    · exact ⟨item, mem_append_right _ (mem_singleton.mpr rfl), hracer.along hstep.path⟩

theorem next?_register (hbounds : w.queue.InBounds) (hlt : c < w.continuations.length) :
    (Scene.ledger ⟨a, ((onSettled c (.forward target)).run w).2⟩).next? target =
      ((Scene.ledger ⟨a, w⟩).next? target).or (w.outcome? c) := by
  obtain hc | ⟨waiting, hc⟩ | ⟨outcome, hc⟩ := w.continuation_cases c
  · rw [getElem?_eq_getElem hlt] at hc
    cases hc
  · rw [onSettled_of_waiting hc, World.outcome?, hc]
    exact (Option.or_none).symm
  · rw [onSettled_of_settled hc, hc]
    simp only [Ledger.next?, Scene.ledger, WorkQueue.toList_push hbounds, ← append_assoc]
    rw [findSome?_append, findSome?_singleton, Task.forwarded?_eq_some.mpr rfl]

theorem racer_awaitValue (hgrown : Grown a w₀ w) (hsingle : item.Single w₀) :
    Racer ⟨a, ((awaitValue item).run w).2⟩ ((awaitValue item).run w).1 item ∧
      ((awaitValue item).run w).1 < ((awaitValue item).run w).2.continuations.length ∧
      ((awaitValue item).run w).2.outcome? ((awaitValue item).run w).1 = item.settled? w₀ ∧
      ((awaitValue item).run w).2.queue = w.queue := by
  cases item with
  | ready v =>
    have hready : (w.continuations ++ [{ outcome := some (.ok v) }])[w.continuations.length]?.bind
        Continuation.outcome = some (.ok v : Outcome) := by
      rw [getElem?_concat_length]
      rfl
    refine ⟨hready, ?_, hready, rfl⟩
    show w.continuations.length < (w.continuations ++ [_]).length
    simp
  | pending d => exact ⟨rfl, Nat.lt_of_lt_of_le hsingle hgrown.length_le, hgrown.outcome?_eq hsingle, rfl⟩
  | many => exact hsingle.elim

abbrev enter (target : Nat) (items : List Awaitable) : Act κ ρ σ Unit :=
  items.forM fun item => do onSettled (← awaitValue item) (.forward target)

theorem run_enter_cons {rest : List Awaitable} (hawait : (awaitValue item).run w = (c, w₁)) :
    (enter target (item :: rest)).run w =
      (enter target rest).run ((onSettled c (.forward target)).run w₁).2 := by
  show ((awaitValue item >>= fun c => onSettled c (.forward target)) >>= fun _ => enter target rest).run w = _
  rw [StateT.run_bind, StateT.run_bind, hawait]
  rfl

/-- All take part. The first of those who are settled will be told first, unless somebody is in front. -/
theorem races_enter (hgrown : Grown a w₀ w) (htarget : w₀.continuations.length ≤ target)
    (h : Races ⟨a, w⟩ target done cs) (hunsettled : w.outcome? target = none)
    (hsingle : ∀ item ∈ items, item.Single w₀) :
    (∃ cs, Races ⟨a, ((enter target items).run w).2⟩ target (done ++ items) cs) ∧
      ((enter target items).run w).2.outcome? target = none ∧
      (Scene.ledger ⟨a, ((enter target items).run w).2⟩).next? target =
        ((Scene.ledger ⟨a, w⟩).next? target).or (items.findSome? (Awaitable.settled? w₀)) := by
  induction items generalizing w done cs with
  | nil =>
    refine ⟨⟨cs, ?_⟩, hunsettled, (Option.or_none).symm⟩
    rw [append_nil]
    exact h
  | cons item rest ih =>
    obtain ⟨c, w₁, hawait⟩ : ∃ c w₁, (awaitValue item).run w = (c, w₁) := ⟨_, _, rfl⟩
    obtain ⟨hracer, hlt, houtcome, hqueue⟩ := racer_awaitValue hgrown (hsingle item mem_cons_self)
    have hvalue : Grown a w ((awaitValue item).run w).2 := grown_awaitValue item hgrown.inBounds
    simp only [hawait] at hracer hlt houtcome hqueue hvalue
    have hunsettled₁ := (hvalue.outcome?_eq h.exclusive.lt).trans hunsettled
    have hregister := (h.grown hvalue).register hvalue.inBounds hlt hunsettled₁ hracer
    have hnext : (Scene.ledger ⟨a, ((onSettled c (.forward target)).run w₁).2⟩).next? target =
        ((Scene.ledger ⟨a, w⟩).next? target).or (item.settled? w₀) := by
      rw [next?_register hvalue.inBounds hlt, houtcome, Ledger.next?, Scene.ledger, hqueue]
      rfl
    have ht := touches_onSettled (a := a) hvalue.inBounds c (.forward target)
    have hstep := step_onSettled (a := a) hvalue.inBounds hlt (.forward target)
    have hunsettled₂ := (hstep.outcome?_eq (h.grown hvalue).exclusive.lt (by simp)).trans hunsettled₁
    have hgrown₂ := (hgrown.trans hvalue).touch ht (by
      rintro x rfl
      exact ⟨htarget, hregister.exclusive.lt⟩)
    obtain ⟨⟨cs', hraces⟩, hunsettled', hnext'⟩ := ih hgrown₂ hregister hunsettled₂
      (forall_mem_cons.mp hsingle).2
    rw [run_enter_cons hawait]
    rw [append_assoc, singleton_append] at hraces
    refine ⟨⟨cs', hraces⟩, hunsettled', hnext'.trans ?_⟩
    rw [hnext, Option.or_assoc, findSome?_cons]
    cases item.settled? w₀ <;> rfl

theorem races_awaitAny (hs : Sound ⟨a, w⟩) (hne : items ≠ []) (hsingle : ∀ item ∈ items, item.Single w) :
    (∃ cs, Races ⟨a, ((awaitAny (.many items)).run w).2⟩ w.continuations.length items cs) ∧
      ((awaitAny (.many items)).run w).2.outcome? w.continuations.length = none ∧
      Scene.front? ⟨a, ((awaitAny (.many items)).run w).2⟩ w.continuations.length =
        items.findSome? (Awaitable.settled? w) := by
  have hnew : Grown a w (newContinuation.run w).2 := (Grown.refl hs.inBounds).addContinuation none
  have hnobody : Scene.front? ⟨a, (newContinuation.run w).2⟩ w.continuations.length = none := by
    cases hfront : Scene.front? ⟨a, (newContinuation.run w).2⟩ w.continuations.length with
    | none => rfl
    | some outcome =>
      obtain ⟨c, hc, -⟩ := (races_new hs).front?_mem hfront
      cases hc
  obtain ⟨hraces, hunsettled', hnext'⟩ := races_enter hnew (Nat.le_refl _) (races_new hs)
    (outcome?_newContinuation w) hsingle
  cases items with
  | nil => exact absurd rfl hne
  | cons item rest =>
    refine ⟨hraces, hunsettled', ?_⟩
    rw [(Option.or_eq_none_iff.mp hnobody).2, Option.none_or] at hnext'
    show (((enter w.continuations.length (item :: rest)).run (newContinuation.run w).2).2.outcome?
      w.continuations.length).or _ = _
    rw [hunsettled', Option.none_or]
    exact hnext'

/-! ## Runs -/

def Move.forwarded? (target : Nat) : Move κ ρ → Option Outcome
  | .ran task => task.forwarded? target
  | _ => none

theorem Races.first_step (h : Races s target items cs) (hs : Sound s) (hm : Moves client s m s')
    (hclient : ∀ outcome, m ≠ .called (.settle target outcome))
    (hfirst : moves.findSome? (Move.forwarded? target) = s.world.outcome? target) :
    (moves ++ [m]).findSome? (Move.forwarded? target) = s'.world.outcome? target := by
  rw [findSome?_append, findSome?_singleton, hfirst]
  by_cases htold : ∃ outcome, m = .ran (.notify (.forward target) outcome)
  · obtain ⟨outcome, rfl⟩ := htold
    rw [hm.forwards h.exclusive.lt, Move.forwarded?, Task.forwarded?_eq_some.mpr rfl]
  · have hnone : m.forwarded? target = none := by
      cases hforwarded : m.forwarded? target with
      | none => rfl
      | some outcome =>
        cases m with
        | ran task =>
          obtain rfl := Task.forwarded?_eq_some.mp hforwarded
          exact absurd ⟨outcome, rfl⟩ htold
        | _ => cases hforwarded
    rw [hnone, Option.or_none]
    exact (h.exclusive.outcome?_eq hs hm hclient fun outcome hran => htold ⟨outcome, hran⟩).symm

theorem Run.races (h : Run client s moves s') (hs : Sound s) (hraces : Races s target items cs)
    (hclient : Spared (· = target) moves) : Races s' target items cs := by
  induction h with
  | refl => exact hraces
  | @snoc moves m s' s'' hrun hm ih =>
    have hbefore := hclient.subset (subset_append_left moves [m])
    exact (ih hbefore).step (hrun.sound hs) hm (hclient.of_mem mem_concat_self rfl)

theorem Run.forwarded? (h : Run client s moves s') (hs : Sound s) (hraces : Races s target items cs)
    (hclient : Spared (· = target) moves) (hunsettled : s.world.outcome? target = none) :
    moves.findSome? (Move.forwarded? target) = s'.world.outcome? target := by
  induction h with
  | refl => exact hunsettled.symm
  | @snoc moves m s' s'' hrun hm ih =>
    have hbefore := hclient.subset (subset_append_left moves [m])
    exact (hrun.races hs hraces hbefore).first_step (hrun.sound hs) hm
      (hclient.of_mem mem_concat_self rfl) (ih hbefore)

theorem Run.front? (h : Run client s moves s') (hs : Sound s) (hraces : Races s target items cs)
    (hclient : Spared (· = target) moves) (hnested : .took true ∉ moves)
    (hfront : s.front? target = some outcome) : s'.front? target = some outcome := by
  induction h with
  | refl => exact hfront
  | @snoc moves m s' s'' hrun hm ih =>
    have hbefore := hclient.subset (subset_append_left moves [m])
    refine (hrun.races hs hraces hbefore).front?_step (hrun.sound hs) hm
      (hclient.of_mem mem_concat_self rfl) ?_
      (ih hbefore fun hmem => hnested (mem_append_left _ hmem))
    rintro rfl
    exact hnested mem_concat_self

/-! ## Any of a collection -/

/-- In a run one of some items gets an outcome by a move before which none of them had one. -/
def SettledFirst (client : Client κ ρ σ) (items : List Awaitable) (s : Scene κ ρ σ)
    (moves : List (Move κ ρ)) (s' : Scene κ ρ σ) (outcome : Outcome) : Prop :=
  ∃ moves₁ m moves₂ s₁ s₂, moves = moves₁ ++ m :: moves₂ ∧ Run client s moves₁ s₁ ∧
    (∀ item ∈ items, item.settled? s₁.world = none) ∧ Moves client s₁ m s₂ ∧
    (∃ item ∈ items, item.settled? s₂.world = some outcome) ∧ Run client s₂ moves₂ s'

/-- What is to be said of any of a collection that is awaited in the scene `s₀`, after some moves. -/
structure Raced (client : Client κ ρ σ) (items : List Awaitable) (s₀ : Scene κ ρ σ) (target : Nat)
    (moves : List (Move κ ρ)) (s : Scene κ ρ σ) : Prop where
  /-- As long as nothing is settled the target is not settled. -/
  unsettled : (∀ item ∈ items, item.settled? s.world = none) → s.world.outcome? target = none
  /-- In the end it has the outcome of one that is settled, if there is one. -/
  settled : s.Idle → (∃ item ∈ items, (item.settled? s.world).isSome) →
    ∃ item ∈ items, ∃ outcome, item.settled? s.world = some outcome ∧
      s.world.outcome? target = some outcome
  /-- It is the outcome that it was told first. -/
  told : s.world.outcome? target = moves.findSome? (Move.forwarded? target)
  /-- It is settled once: to settle it again fails and does nothing, and its outcome stays. -/
  once : ∀ outcome, s.world.outcome? target = some outcome →
    (∀ again, (settle target again).run s.world = (.error .alreadySettled, s.world)) ∧
      ∀ moves' s', Run client s moves' s' → s'.world.outcome? target = some outcome
  /-- If something was settled, the first such is what counts, unless ticks are made inside of ticks. -/
  early : .took true ∉ moves → s.Idle →
    ∀ outcome, items.findSome? (Awaitable.settled? s₀.world) = some outcome →
      s.world.outcome? target = some outcome
  /-- If nothing was settled, what is settled first is what counts, unless ticks are made inside of ticks. -/
  late : .took true ∉ moves → s.Idle → (∀ item ∈ items, item.settled? s₀.world = none) →
    (∃ item ∈ items, (item.settled? s.world).isSome) →
    ∃ outcome, SettledFirst client items ⟨s₀.agenda, ((awaitAny (.many items)).run s₀.world).2⟩ moves s
      outcome ∧ s.world.outcome? target = some outcome

theorem Races.settled?_none (h : Races s target items cs) :
    (∀ item ∈ items, item.settled? s.world = none) ↔ ∀ c ∈ cs, s.world.outcome? c = none := by
  constructor
  · intro hitems c hc
    obtain ⟨item, hitem, hracer⟩ := h.entry c hc
    exact hracer.settled?.symm.trans (hitems item hitem)
  · intro hcs item hitem
    obtain ⟨c, hc, hracer⟩ := h.racer item hitem
    exact hracer.settled?.trans (hcs c hc)

theorem Races.idle (h : Races s target items cs) (hidle : s.Idle)
    (hsome : ∃ item ∈ items, (item.settled? s.world).isSome) :
    ∃ outcome, s.world.outcome? target = some outcome := by
  cases houtcome : s.world.outcome? target with
  | some outcome => exact ⟨outcome, rfl⟩
  | none =>
    obtain ⟨item, hitem, hsome⟩ := hsome
    have hfront := (hidle.front? target).trans houtcome
    have hnone := h.settled?_none.mpr (fun c hc => h.outcome?_of_front?_none hfront hc) item hitem
    rw [hnone] at hsome
    cases hsome

theorem fst_awaitAny (items : List Awaitable) (w : World κ ρ σ) :
    ((awaitAny (.many items)).run w).1 = w.continuations.length := by
  cases items <;> rfl

theorem Run.settledFirst (h : Run client s moves s') (hs : Sound s) (hraces : Races s target items cs)
    (hclient : Spared (· = target) moves) (hnested : .took true ∉ moves) (hidle : s'.Idle)
    (hnone : ∀ item ∈ items, item.settled? s.world = none)
    (hsome : ∃ item ∈ items, (item.settled? s'.world).isSome) :
    ∃ outcome, SettledFirst client items s moves s' outcome ∧ s'.world.outcome? target = some outcome := by
  let p (s : Scene κ ρ σ) : Prop := ∃ item ∈ items, (item.settled? s.world).isSome
  have hp {s : Scene κ ρ σ} (h : ¬ p s) : ∀ item ∈ items, item.settled? s.world = none := by
    intro item hitem
    exact Option.not_isSome_iff_eq_none.mp fun hsome => h ⟨item, hitem, hsome⟩
  have hstart : ¬ p s := by
    rintro ⟨item, hitem, hsome⟩
    rw [hnone item hitem] at hsome
    cases hsome
  obtain ⟨moves₁, m, moves₂, s₁, s₂, rfl, hrun₁, hbefore, hm, ⟨item, hitem, hafter⟩, hrun₂⟩ :=
    h.exists_first hstart hsome
  obtain ⟨outcome, houtcome⟩ := Option.isSome_iff_exists.mp hafter
  refine ⟨outcome, ⟨moves₁, m, moves₂, s₁, s₂, rfl, hrun₁, hp hbefore, hm, ⟨item, hitem, houtcome⟩, hrun₂⟩, ?_⟩
  have hsub₁ : moves₁ ⊆ moves₁ ++ m :: moves₂ := subset_append_left ..
  have hsub₂ : moves₂ ⊆ moves₁ ++ m :: moves₂ := fun _ hmem => mem_append_right _ (mem_cons_of_mem _ hmem)
  have hmem : m ∈ moves₁ ++ m :: moves₂ := mem_append_right _ mem_cons_self
  have hs₁ := hrun₁.sound hs
  have hraces₁ := hrun₁.races hs hraces (hclient.subset hsub₁)
  have hm' := hclient.of_mem hmem rfl
  have hraces₂ := hraces₁.step hs₁ hm hm'
  obtain ⟨c, hc, hracer⟩ := hraces₂.racer item hitem
  have hfront := hraces₁.front?_first hs₁ hm hm' (hraces₁.settled?_none.mp (hp hbefore)) hc
    (hracer.settled?.symm.trans houtcome)
  have hfront' := hrun₂.front? (hs₁.step hm) hraces₂ (hclient.subset hsub₂)
    (fun hmem => hnested (hsub₂ hmem)) hfront
  rw [hidle.front?] at hfront'
  exact hfront'

/-- What is said of any of a collection of values and continuations, wherever it is awaited, and whatever
    happens before and after, if client code does not settle the continuation that it is given. -/
theorem awaitAny_raced {batchSize : Nat} {own : σ} {before after : List (Move κ ρ)} {s₀ s : Scene κ ρ σ}
    {items : List Awaitable} (hbefore : Run client (.start batchSize own) before s₀) (hne : items ≠ [])
    (hsingle : ∀ item ∈ items, item.Single s₀.world)
    (hafter : Run client ⟨s₀.agenda, ((awaitAny (.many items)).run s₀.world).2⟩ after s)
    (hclient : Spared (· = ((awaitAny (.many items)).run s₀.world).1) after) : client.TicksRun ∧
      Raced client items s₀ ((awaitAny (.many items)).run s₀.world).1 after s := by
  have hs₀ : Sound s₀ := hbefore.sound (sound_start batchSize own)
  have hs₁ : Sound ⟨s₀.agenda, ((awaitAny (.many items)).run s₀.world).2⟩ :=
    hs₀.grown (grown_awaitAny hs₀.inBounds (.many items))
  have hs := hafter.sound hs₁
  rw [fst_awaitAny] at hclient ⊢
  obtain ⟨⟨cs, hraces₁⟩, hunsettled₁, hfront₁⟩ := races_awaitAny hs₀ hne hsingle
  have hraces := hafter.races hs₁ hraces₁ hclient
  refine ⟨ticksRun client, ?_, ?_, ?_, ?_, ?_, ?_⟩
  · intro hnone
    cases houtcome : s.world.outcome? s₀.world.continuations.length with
    | none => rfl
    | some outcome =>
      obtain ⟨c, hc, hsome⟩ := hraces.won houtcome
      rw [hraces.settled?_none.mp hnone c hc] at hsome
      cases hsome
  · intro hidle hsome
    obtain ⟨outcome, houtcome⟩ := hraces.idle hidle hsome
    obtain ⟨c, hc, hsettled⟩ := hraces.won houtcome
    obtain ⟨item, hitem, hracer⟩ := hraces.entry c hc
    exact ⟨item, hitem, outcome, hracer.settled?.trans hsettled, houtcome⟩
  · exact (hafter.forwarded? hs₁ hraces₁ hclient hunsettled₁).symm
  · intro outcome houtcome
    exact hs.settled_once houtcome
  · intro hnested hidle outcome hfirst
    have hfront := hafter.front? hs₁ hraces₁ hclient hnested (hfront₁.trans hfirst)
    rw [hidle.front?] at hfront
    exact hfront
  · intro hnested hidle hnone hsome
    refine hafter.settledFirst hs₁ hraces₁ hclient hnested hidle ?_ hsome
    have hfront := hfront₁.trans (findSome?_eq_none_iff.mpr hnone)
    exact hraces₁.settled?_none.mpr fun c hc => hraces₁.outcome?_of_front?_none hfront hc

def threeRacers : List Awaitable := [.pending 0, .pending 1, .ready (.string "c")]

def raceAwaited : World Empty Empty Unit :=
  ((awaitAny (.many threeRacers)).run ((do
    discard newContinuation
    discard newContinuation
    discard (settle 1 (.ok (.string "b"))) : Act Empty Empty Unit Unit).run (.withBatchSize 1 ())).2).2

def settledTooLate : Act Empty Empty Unit Unit := do
  discard (settle 0 (.ok (.string "a")))
  discard (tick quiet 1)
  discard (tick quiet 1)
  discard (tick quiet 1)

theorem awaitAny_raced_early :
    ∃ moves, Run quiet ⟨[], raceAwaited⟩ moves ⟨[], (settledTooLate.run raceAwaited).2⟩ ∧
      Scene.Idle ⟨[], (settledTooLate.run raceAwaited).2⟩ ∧
      (settledTooLate.run raceAwaited).2.outcome? 2 = some (.ok (.string "b")) := by
  let manner : Manner Empty Empty Unit :=
    { calls := fun call => ∀ outcome, call ≠ .settle 2 outcome, nested := False, patience := 1 }
  have htick : Explained quiet manner [] (discard (tick quiet 1)) :=
    (explained_tick (plain_quiet manner) (.inl (Nat.le_refl 1)) (.inl rfl)).bind fun _ => explained_pure _
  have hsettle : Explained quiet manner [] (discard (settle 0 (.ok (.string "a")))) :=
    explained_call (.settle 0 (.ok (.string "a"))) (fun _ heq => by cases heq) fun _ => rfl
  have hcode : Explained quiet manner [] settledTooLate :=
    hsettle.bind fun _ => htick.bind fun _ => htick.bind fun _ => htick
  obtain ⟨moves, hrun, hmoves, -⟩ := hcode raceAwaited
  have hbefore : Run quiet (.start 1 ())
      [.called .create, .called .create, .called (.settle 1 (.ok (.string "b")))] ⟨[], ((do
        discard newContinuation
        discard newContinuation
        discard (settle 1 (.ok (.string "b"))) :
          Act Empty Empty Unit Unit).run (.withBatchSize 1 ())).2⟩ :=
    ((Run.refl.snoc (.called .create)).snoc (.called .create)).snoc (.called (.settle 1 _))
  obtain ⟨w, hw⟩ : ∃ w, (settledTooLate.run raceAwaited).2 = w := ⟨_, rfl⟩
  have hidle : w.pending = 0 := by rw [← hw]; decide +kernel
  rw [hw] at hrun ⊢
  refine ⟨moves, hrun, ⟨rfl, hidle⟩, ?_⟩
  have hraced := (awaitAny_raced hbefore (cons_ne_nil _ _) ?_ hrun ?_).2
  · rw [fst_awaitAny] at hraced
    exact hraced.early (fun hmem => hmoves _ hmem rfl) ⟨rfl, hidle⟩ _ (by decide +kernel)
  · refine forall_mem_cons.mpr ⟨Nat.zero_lt_two, forall_mem_cons.mpr ⟨Nat.one_lt_two, ?_⟩⟩
    exact forall_mem_singleton.mpr trivial
  · rintro c outcome hmem rfl
    exact hmoves _ hmem outcome rfl

def restless : Client Unit Empty Unit where
  task tick _ := discard tick
  callback _ _ _ := pure ()
  sink _ _ := pure ()
  resume _ state := nomatch state

def raceBeforeTask : World Unit Empty Unit :=
  ((do
    discard newContinuation
    discard newContinuation
    discard (awaitAny (.many [.pending 0, .pending 1]))
    enqueue (.client ()) : Act Unit Empty Unit Unit).run (.withBatchSize 2 ())).2

def settledInTurn : Act Unit Empty Unit Unit := do
  discard (settle 0 (.ok (.string "a")))
  discard (settle 1 (.ok (.string "b")))
  discard (tick restless 2)

/-- A tick inside of a tick has the one win who was settled later. -/
theorem nested_tick_outruns :
    ((settle 0 (.ok (.string "a"))).run raceBeforeTask).2.outcome? 1 = none ∧
      (settledInTurn.run raceBeforeTask).2.outcome? 0 = some (.ok (.string "a")) ∧
      (settledInTurn.run raceBeforeTask).2.pending = 0 ∧
      (settledInTurn.run raceBeforeTask).2.outcome? 2 = some (.ok (.string "b")) := by
  refine ⟨by decide +kernel, by decide +kernel, by decide +kernel, by decide +kernel⟩

end Motif.Async
