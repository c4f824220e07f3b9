import Motif.Proofs.Async.Turn

/-!
# Coroutines

A coroutine is resumed once for each reason to resume it, with what it is to be told: at first, after it has
waited for a continuation, and after its sink has taken what it emitted. What it ends with is the outcome of
its continuation (`spawn_driven`).

All of it rests on one thing: after each turn of a coroutine but the last it is seen in one place what is to
be done for it, and nowhere else (`Drives.token`).

What is said of turns is said of what the client sees. The notes of a client that takes notes are those of a
run, and of these the ones that a coroutine's sink has taken are the values that the coroutine has emitted
(`Driven.delivered`). Every client can be made to take notes (`Client.noting`).
-/

namespace Motif.Async

open List

variable {κ ρ σ : Type} {client : Client κ ρ σ} {s s' : Scene κ ρ σ} {m : Move κ ρ}
  {moves : List (Move κ ρ)} {a : List (Work κ ρ σ)} {w w' : World κ ρ σ} {i done c emitted : Nat}
  {outcome : Outcome} {sink : Option κ} {turns : List (Turn κ)} {last : Option (Turn κ)} {turn : Turn κ}
  {x : Work κ ρ σ} {since : World κ ρ σ} {task : Task κ}

/-! ## What comes after what -/

/-- The turn that a coroutine takes after its last one, in a world. The first time, and after it has emitted
    something, it is resumed with nothing; after it has waited for a continuation, with the outcome. -/
inductive Follows (i : Nat) (sink : Option κ) (w : World κ ρ σ) (emitted : Nat) :
    Option (Turn κ) → Turn κ → Prop
  | first : Follows i sink w emitted none (.resumed (.ok .nothing))
  | woken {request : Suspend} {c : Nat} {input : Outcome} (h : w.outcome? c = some input) :
    Follows i sink w emitted (some (.suspended request c)) (.resumed input)
  | again {label v} : Follows i sink w emitted (some (.received label v)) (.resumed (.ok .nothing))
  | suspended {input : Outcome} {request : Suspend} {c : Nat} (state : ρ)
    (h : c = (request.resolve.run ((setState i state).run w).2).1) :
    Follows i sink w emitted (some (.resumed input)) (.suspended request c)
  | emitted {input v} (h : sink.isSome) :
    Follows i sink w emitted (some (.resumed input)) (.emitted v)
  | received {label v} (h : sink = some label) :
    Follows i sink w emitted (some (.emitted v)) (.received label v)
  | ended {input : Outcome} {step : Step} {outcome : Outcome} (h : step.result? sink = some outcome) :
    Follows i sink w emitted (some (.resumed input)) (.ended step outcome)
  | stalled {label v} {emits : Nat} (h : emits ≤ emitted) :
    Follows i sink w emitted (some (.received label v)) (.stalled emits)
  | lost {input : Outcome} (request : Suspend) (state : ρ)
    (h : (request.resolve.run ((setState i state).run w).2).2.continuations.length ≤
      (request.resolve.run ((setState i state).run w).2).1) :
    Follows i sink w emitted (some (.resumed input)) .lost

/-! ## Where it is seen what is to be done -/

/-- What is on the agenda for a coroutine after its last turn. -/
inductive Holds (w : World κ ρ σ) (i : Nat) : Work κ ρ σ → Option (Turn κ) → Prop
  | started : Holds w i (.drive i (.ok .nothing) 0) none
  | woken {request : Suspend} {c : Nat} {input : Outcome} (h : w.outcome? c = some input) :
    Holds w i (.drive i input 0) (some (.suspended request c))
  | again {label v} {emits : Nat} :
    Holds w i (.drive i (.ok .nothing) emits) (some (.received label v))
  | running {co input} {emits : Nat} {since} :
    Holds w i (.running i co input emits since) (some (.resumed input))
  | handing {label v} {emits : Nat} {since} :
    Holds w i (.hand i label v emits since) (some (.emitted v))

/-- Where it is seen what is to be done for a coroutine after its last turn. -/
inductive Held (s : Scene κ ρ σ) (i : Nat) : Option (Turn κ) → Prop
  | starting (h : .start i ∈ s.ledger.tasks) : Held s i none
  | waiting {request : Suspend} {c : Nat} (h : s.ledger.Located c (.resume i)) :
    Held s i (some (.suspended request c))
  | working {x : Work κ ρ σ} {last : Option (Turn κ)} (hmem : x ∈ s.agenda)
    (h : Holds s.world i x last) : Held s i last

theorem Holds.isFor (h : Holds w i x last) : x.isFor i = true := by
  cases h <;> exact beq_self_eq_true i

theorem Holds.last_running {co : Coroutine κ ρ} {input : Outcome} {emits : Nat}
    (h : Holds w i (.running i co input emits since) last) : last = some (.resumed input) := by
  cases h
  rfl

theorem Holds.last_hand {label : κ} {v : Value} {emits : Nat}
    (h : Holds w i (.hand i label v emits since) last) : last = some (.emitted v) := by
  cases h
  rfl

theorem Holds.mono (h : Holds w i x last)
    (hmono : ∀ {c outcome}, w.outcome? c = some outcome → w'.outcome? c = some outcome) :
    Holds w' i x last := by
  cases h with
  | started => exact .started
  | woken h => exact .woken (hmono h)
  | again => exact .again
  | running => exact .running
  | handing => exact .handing

theorem starts_pos (h : .start i ∈ s.ledger.tasks) : 0 < s.ledger.tasks.countP (Task.isStart i) :=
  countP_pos_iff.mpr ⟨_, h, Task.isStart_iff.mpr rfl⟩

theorem copies_pos {callback : Callback κ} (h : callback ∈ s.ledger.callbacks) :
    0 < s.ledger.copies callback :=
  Nat.pos_of_ne_zero fun hzero => Ledger.copies_eq_zero.mp hzero h

theorem works_pos (h : x ∈ s.agenda) (hx : x.isFor i = true) : 0 < s.works i := countP_pos_iff.mpr ⟨x, h, hx⟩

theorem Held.head (h : Held ⟨x :: a, w⟩ i last) (htokens : Scene.tokens ⟨x :: a, w⟩ i = 1)
    (hx : x.isFor i = true) : Holds w i x last := by
  have hworks := works_cons (w := w) (a := a) hx
  rw [Scene.tokens, Ledger.calls] at htokens
  -- there is only one thing to be done, and it is this
  cases h with
  | starting hstart =>
    have hpos := starts_pos hstart
    omega
  | waiting hwaits =>
    have hpos := copies_pos hwaits.mem_callbacks
    omega
  | working hmem hholds =>
    rcases mem_cons.mp hmem with rfl | hmem
    · exact hholds
    · have hpos : 0 < Scene.works ⟨a, w⟩ i := works_pos hmem hholds.isFor
      omega

theorem Moves.mem_agenda (hm : Moves client s m s') (hturn : m.turn? i = none) (hmem : x ∈ s.agenda)
    (hx : x.isFor i = true) : x ∈ s'.agenda := by
  have hother {y : Work κ ρ σ} {b : List (Work κ ρ σ)} (hmem : x ∈ y :: b) (hy : y.isFor i = false) :
      x ∈ b := by
    rcases mem_cons.mp hmem with rfl | hmem
    · rw [hx] at hy
      cases hy
    · exact hmem
  have hne {j : Nat} {t : Turn κ} (hturn : (if j = i then some t else none) = none) : (j == i) = false := by
    refine beq_false_of_ne fun hj => ?_
    rw [if_pos hj] at hturn
    cases hturn
  cases hm with
  | noted | called => exact hmem
  | took => exact mem_append_right _ hmem
  | ran => exact mem_append_right _ (hother hmem rfl)
  | resumed | emitted | received => exact mem_cons_of_mem _ (hother hmem (hne hturn))
  | suspended | ended | stalled | missing | lost => exact hother hmem (hne hturn)

theorem Ledger.Step.mem_tasks {l l' : Ledger κ} (h : Ledger.Step l (.push task) l') : task ∈ l'.tasks := by
  cases h with
  | push => exact mem_append_right _ (mem_singleton.mpr rfl)

theorem Ledger.Path.mem_of_tasks {l l' : Ledger κ} {xs : List (Change κ)} (h : Ledger.Path l xs l')
    (hmem : task ∈ l.tasks) (hxs : .pop task ∉ xs) : task ∈ l'.tasks := by
  induction h with
  | nil => exact hmem
  | cons hstep _ ih =>
    refine ih ?_ fun hpop => hxs (mem_cons_of_mem _ hpop)
    cases hstep with
    | add | wait => exact hmem
    | push | settle | tell => exact mem_append_left _ hmem
    | shuffle hperm => exact hperm.mem_iff.mp hmem
    | pop =>
      rcases mem_cons.mp hmem with rfl | hmem
      · exact absurd mem_cons_self hxs
      · exact hmem

theorem Held.keep (h : Held s i last) (hs : Sound s) (hm : Moves client s m s') (hturn : m.turn? i = none)
    (hstart : m ≠ .ran (.start i)) (hresume : ∀ outcome, m ≠ .ran (.notify (.resume i) outcome)) :
    Held s' i last := by
  have he := hm.effect hs
  obtain ⟨xs, hpath, hxs⟩ := he.path
  cases h with
  | starting h =>
    refine .starting (hpath.mem_of_tasks h fun hpop => ?_)
    exact hstart (hxs _ hpop)
  | waiting h =>
    refine .waiting (hpath.located h fun outcome hpop => ?_)
    exact hresume outcome (hxs _ hpop)
  | working hmem hholds =>
    exact .working (hm.mem_agenda hturn hmem hholds.isFor) (hholds.mono he.outcome?_of_some)

theorem Held.start (h : Held s i last) (htokens : s.tokens i = 1)
    (hm : Moves client s (.ran (.start i)) s') : Held s' i last := by
  have hpos := starts_pos hm.mem_tasks
  rw [Scene.tokens, Ledger.calls] at htokens
  -- the task that starts it is the one thing to be done
  cases h with
  | starting =>
    cases hm with
    | ran => exact .working mem_cons_self .started
  | waiting hwaits =>
    have hpos' := copies_pos hwaits.mem_callbacks
    omega
  | working hmem hholds =>
    have hpos' := works_pos hmem hholds.isFor
    omega

theorem Held.told (h : Held s i last) (hs : Sound s) (htokens : s.tokens i = 1)
    (hm : Moves client s (.ran (.notify (.resume i) outcome)) s') : Held s' i last := by
  have hpos := copies_pos hm.mem_callbacks
  rw [Scene.tokens, Ledger.calls] at htokens
  cases h with
  | starting hstart =>
    have hpos' := starts_pos hstart
    omega
  | waiting hwaits =>
    -- nobody else tells it anything
    have hdue : s.ledger.Due _ (.resume i) := ⟨hwaits, by omega⟩
    have houtcome := (hm.effect hs).outcome?_of_some (hm.told hs hdue).1
    cases hm with
    | ran => exact .working mem_cons_self (.woken houtcome)
  | working hmem hholds =>
    have hpos' := works_pos hmem hholds.isFor
    omega

theorem Held.step (h : Held s i last) (hs : Sound s) (htokens : s.tokens i = 1) (hm : Moves client s m s')
    (hturn : m.turn? i = none) : Held s' i last := by
  by_cases hstart : m = .ran (.start i)
  · subst hstart
    exact h.start htokens hm
  by_cases hresume : ∃ outcome, m = .ran (.notify (.resume i) outcome)
  · obtain ⟨outcome, rfl⟩ := hresume
    exact h.told hs htokens hm
  · exact h.keep hs hm hturn hstart fun outcome heq => hresume ⟨outcome, heq⟩

/-! ## How often it has emitted -/

def Work.emits : Work κ ρ σ → Nat
  | .task _ => 0
  | .drive _ _ emits => emits
  | .running _ _ _ emits _ => emits
  | .hand _ _ _ emits _ => emits

def Turn.emitted? : Turn κ → Option Value
  | .emitted v => some v
  | _ => none

def Turn.received? : Turn κ → Option Value
  | .received _ v => some v
  | _ => none

def Scene.EmitsAtMost (s : Scene κ ρ σ) (i n : Nat) : Prop := ∀ x ∈ s.agenda, x.isFor i = true → x.emits ≤ n

theorem Task.emits_work (h : x ∈ task.work) : x.emits = 0 := by
  cases task with
  | client => cases h
  | start =>
    obtain rfl := mem_singleton.mp h
    rfl
  | notify callback =>
    cases callback with
    | client | slot | forward => cases h
    | resume =>
      obtain rfl := mem_singleton.mp h
      rfl

theorem Scene.EmitsAtMost.step {n n' : Nat} (h : s.EmitsAtMost i n) (hm : Moves client s m s') (hn : n ≤ n')
    (hemitted : ∀ v, m = .emitted i v → n < n') : s'.EmitsAtMost i n' := by
  have hkeep : ∀ x ∈ s.agenda, x.isFor i = true → x.emits ≤ n' :=
    fun x hmem hx => Nat.le_trans (h x hmem hx) hn
  cases hm with
  | noted | called => exact hkeep
  | took =>
    refine forall_mem_append.mpr ⟨fun x hmem hx => ?_, hkeep⟩
    obtain ⟨task, -, rfl⟩ := mem_map.mp hmem
    cases hx
  | ran task =>
    refine forall_mem_append.mpr ⟨fun x hmem _ => ?_, (forall_mem_cons.mp hkeep).2⟩
    rw [Task.emits_work hmem]
    exact Nat.zero_le n'
  | resumed | received =>
    obtain ⟨hhead, htail⟩ := forall_mem_cons.mp hkeep
    exact forall_mem_cons.mpr ⟨hhead, htail⟩
  | emitted =>
    refine forall_mem_cons.mpr ⟨fun hx => ?_, (forall_mem_cons.mp hkeep).2⟩
    obtain rfl := beq_iff_eq.mp hx
    exact Nat.lt_of_le_of_lt (h _ mem_cons_self hx) (hemitted _ rfl)
  | suspended | ended | stalled | missing | lost => exact (forall_mem_cons.mp hkeep).2

/-! ## What is known of a coroutine -/

def Turn.result? : Turn κ → Option Outcome
  | .ended _ outcome => some outcome
  | _ => none

structure Drives (s : Scene κ ρ σ) (i done : Nat) (sink : Option κ) (turns : List (Turn κ)) : Prop where
  record : ∃ co, s.world.coroutines[i]? = some co ∧ co.sink = sink ∧ co.done = done
  exclusive : Exclusive s done (.coroutine i)
  /-- Either there is one thing to be done for it, or it has taken its last turn. -/
  token : (s.tokens i = 1 ∧ Held s i turns.getLast?) ∨
    (s.tokens i = 0 ∧ ∃ turn, turns.getLast? = some turn ∧ turn.IsLast)
  emits : s.EmitsAtMost i (turns.filterMap Turn.emitted?).length
  /-- What was emitted has been received, but for what was emitted just now. -/
  handed : turns.filterMap Turn.emitted? =
    turns.filterMap Turn.received? ++ (turns.getLast?.bind Turn.emitted?).toList

theorem Drives.lt (h : Drives s i done sink turns) : i < s.world.coroutines.length := by
  obtain ⟨co, hco, -⟩ := h.record
  exact lt_of_getElem? hco

theorem Drives.record_step (h : Drives s i done sink turns) (he : Effect s m s') :
    ∃ co, s'.world.coroutines[i]? = some co ∧ co.sink = sink ∧ co.done = done := by
  obtain ⟨co, hco, hsink, hdone⟩ := h.record
  obtain ⟨state, hstate⟩ := he.coroutine hco
  exact ⟨_, hstate, hsink, hdone⟩

theorem Drives.holds (h : Drives ⟨x :: a, w⟩ i done sink turns) (hx : x.isFor i = true) :
    Holds w i x turns.getLast? := by
  rcases h.token with ⟨hone, hheld⟩ | ⟨hzero, -⟩
  · exact hheld.head hone hx
  · have hpos : 0 < Scene.works ⟨x :: a, w⟩ i := works_pos mem_cons_self hx
    rw [Scene.tokens] at hzero
    omega

theorem Drives.sink_running {co : Coroutine κ ρ} {input : Outcome} {emits : Nat}
    (h : Drives ⟨.running i co input emits since :: a, w⟩ i done sink turns)
    (hs : Sound ⟨.running i co input emits since :: a, w⟩) : co.sink = sink := by
  obtain ⟨co', hco', hsink, -⟩ := h.record
  obtain ⟨state, hco⟩ := hs.works _ mem_cons_self
  cases hco.symm.trans hco'
  exact hsink

theorem Drives.follows (h : Drives s i done sink turns) (hs : Sound s) (hm : Moves client s m s')
    (hturn : m.turn? i = some turn) :
    Follows i sink s.world (turns.filterMap Turn.emitted?).length turns.getLast? turn := by
  have hemits := h.emits
  cases hm with
  | noted | called | took | ran => cases hturn
  | resumed =>
    obtain ⟨rfl, rfl⟩ := eq_of_ite hturn
    have hholds := h.holds (beq_self_eq_true _)
    generalize turns.getLast? = last at hholds
    cases hholds with
    | started => exact .first
    | woken houtcome => exact .woken houtcome
    | again => exact .again
  | suspended hanswers hc =>
    obtain ⟨rfl, rfl⟩ := eq_of_ite hturn
    rw [(h.holds (beq_self_eq_true _)).last_running]
    obtain ⟨_, state, -, rfl⟩ := hanswers
    exact .suspended state rfl
  | emitted hanswers hsink =>
    obtain ⟨rfl, rfl⟩ := eq_of_ite hturn
    rw [(h.holds (beq_self_eq_true _)).last_running]
    refine .emitted ?_
    rw [← h.sink_running hs, hsink]
    rfl
  | received =>
    obtain ⟨rfl, rfl⟩ := eq_of_ite hturn
    rw [(h.holds (beq_self_eq_true _)).last_hand]
    obtain ⟨co, hco, hsink, -⟩ := h.record
    obtain ⟨co', hco', hlabel⟩ := hs.works _ mem_cons_self
    cases hco'.symm.trans hco
    exact .received (hsink.symm.trans hlabel)
  | ended hanswers hresult =>
    obtain ⟨rfl, rfl⟩ := eq_of_ite hturn
    rw [(h.holds (beq_self_eq_true _)).last_running]
    rw [h.sink_running hs] at hresult
    exact .ended hresult
  | stalled hpos =>
    obtain ⟨rfl, rfl⟩ := eq_of_ite hturn
    have hholds := h.holds (beq_self_eq_true _)
    have hle := hemits _ mem_cons_self (beq_self_eq_true _)
    generalize turns.getLast? = last at hholds
    cases hholds with
    -- it is not given up before it has emitted something
    | started | woken => exact absurd hpos (Nat.lt_irrefl 0)
    | again => exact .stalled hle
  | missing hnone =>
    obtain ⟨rfl, rfl⟩ := eq_of_ite hturn
    obtain ⟨co, hco, -⟩ := h.record
    cases hnone.symm.trans hco
  | lost hanswers hc =>
    obtain ⟨rfl, rfl⟩ := eq_of_ite hturn
    rw [(h.holds (beq_self_eq_true _)).last_running]
    obtain ⟨_, state, -, rfl⟩ := hanswers
    exact .lost _ state hc

theorem Moves.works_pos (hm : Moves client s m s') (hturn : m.turn? i = some turn) : 0 < s.works i := by
  cases hm with
  | noted | called | took | ran => cases hturn
  | resumed | suspended | emitted | received | ended | stalled | missing | lost =>
    obtain ⟨rfl, -⟩ := eq_of_ite hturn
    exact Async.works_pos mem_cons_self (beq_self_eq_true _)

theorem Moves.held (hm : Moves client s m s') (hs : Sound s) (hturn : m.turn? i = some turn)
    (hlast : ¬ turn.IsLast) : Held s' i (some turn) := by
  have hregisters {request : Suspend} {c : Nat} (heq : m = .suspended i request c) :
      s'.ledger.Located c (.resume i) := by
    subst heq
    obtain ⟨l, _, -, -, hstep⟩ := hm.registers hs
    exact hstep.located_register
  cases hm with
  | noted | called | took | ran => cases hturn
  | resumed =>
    obtain ⟨rfl, rfl⟩ := eq_of_ite hturn
    exact .working mem_cons_self .running
  | suspended =>
    obtain ⟨rfl, rfl⟩ := eq_of_ite hturn
    exact .waiting (hregisters rfl)
  | emitted =>
    obtain ⟨rfl, rfl⟩ := eq_of_ite hturn
    exact .working mem_cons_self .handing
  | received =>
    obtain ⟨rfl, rfl⟩ := eq_of_ite hturn
    exact .working mem_cons_self .again
  | ended | stalled | missing | lost =>
    obtain ⟨-, rfl⟩ := eq_of_ite hturn
    exact absurd trivial hlast

theorem Drives.token_turn (h : Drives s i done sink turns) (hs : Sound s) (hm : Moves client s m s')
    (hturn : m.turn? i = some turn) :
    (s'.tokens i = 1 ∧ Held s' i (some turn)) ∨ (s'.tokens i = 0 ∧ turn.IsLast) := by
  have hpos := hm.works_pos hturn
  have hone : s.tokens i = 1 := by
    rcases h.token with ⟨hone, -⟩ | ⟨hzero, -⟩
    · exact hone
    · rw [Scene.tokens] at hzero
      omega
  by_cases hlast : turn.IsLast
  · have hend := hm.tokens_end hs h.lt ⟨turn, hturn, hlast⟩
    exact .inr ⟨by omega, hlast⟩
  · refine .inl ⟨(hm.tokens_eq hs h.lt ?_).trans hone, hm.held hs hturn hlast⟩
    rintro ⟨turn', hturn', hlast'⟩
    cases hturn.symm.trans hturn'
    exact hlast hlast'

theorem Follows.handed {emits : Nat} (h : Follows i sink w emits turns.getLast? turn)
    (hhanded : turns.filterMap Turn.emitted? =
      turns.filterMap Turn.received? ++ (turns.getLast?.bind Turn.emitted?).toList) :
    (turns ++ [turn]).filterMap Turn.emitted? =
      (turns ++ [turn]).filterMap Turn.received? ++ turn.emitted?.toList := by
  rw [filterMap_append, filterMap_append, hhanded]
  generalize turns.getLast? = last at h
  cases h <;> simp [filterMap_cons, Turn.emitted?, Turn.received?]

theorem Drives.step (h : Drives s i done sink turns) (hs : Sound s) (hm : Moves client s m s') :
    Drives s' i done sink (turns ++ (m.turn? i).toList) := by
  have he := hm.effect hs
  cases hturn : m.turn? i with
  | none =>
    have hend : ¬ m.Ends i := by
      rintro ⟨turn, hturn', -⟩
      cases hturn.symm.trans hturn'
    have hemitted (v : Value) : m ≠ .emitted i v := by
      rintro rfl
      simp [Move.turn?] at hturn
    rw [Option.toList_none, append_nil]
    refine ⟨h.record_step he, h.exclusive.step he, ?_, ?_, h.handed⟩
    · rw [hm.tokens_eq hs h.lt hend]
      exact h.token.imp_left fun ⟨hone, hheld⟩ => ⟨hone, hheld.step hs hone hm hturn⟩
    · exact h.emits.step hm (Nat.le_refl _) fun v heq => absurd heq (hemitted v)
  | some turn =>
    rw [Option.toList_some]
    refine ⟨h.record_step he, h.exclusive.step he, ?_, ?_, ?_⟩
    · rw [getLast?_concat]
      exact (h.token_turn hs hm hturn).imp_right fun ⟨hzero, hlast⟩ => ⟨hzero, turn, rfl, hlast⟩
    · refine h.emits.step hm ?_ ?_
      · rw [filterMap_append, length_append]
        exact Nat.le_add_right _ _
      · rintro v rfl
        obtain ⟨-, rfl⟩ := eq_of_ite hturn
        rw [filterMap_append, length_append]
        exact Nat.lt_succ_self _
    · rw [getLast?_concat]
      exact (h.follows hs hm hturn).handed h.handed

/-! ## Its continuation -/

theorem Follows.result?_eq_none {emits : Nat} (h : Follows i sink w emits last turn) :
    last.bind Turn.result? = none := by
  cases h <;> rfl

theorem Drives.outcome?_ended {step : Step} (h : Drives s i done sink turns) (hs : Sound s)
    (hm : Moves client s (.ended i step outcome) s') :
    s'.world.outcome? done = (s.world.outcome? done).or (some outcome) := by
  have hlt := h.exclusive.lt
  obtain ⟨co', hco', -, hdone⟩ := h.record
  cases hm with
  | ended hanswers =>
    obtain ⟨_, hco⟩ := hs.works _ mem_cons_self
    cases hco.symm.trans hco'
    obtain ⟨_, state, -, rfl⟩ := hanswers
    subst hdone
    exact outcome?_settle (w := ((setState i state).run _).2) hlt outcome

theorem Move.eq_ended {step : Step} (h : m.turn? i = some (.ended step outcome)) :
    m = .ended i step outcome := by
  cases m with
  | ended =>
    obtain ⟨rfl, heq⟩ := eq_of_ite h
    cases heq
    rfl
  | noted | called | took | ran => cases h
  | resumed | suspended | emitted | received | stalled | lost =>
    obtain ⟨-, heq⟩ := eq_of_ite h
    cases heq

theorem Drives.outcome?_step (h : Drives s i done sink turns) (hs : Sound s) (hm : Moves client s m s')
    (hclient : ∀ outcome, m ≠ .called (.settle done outcome))
    (houtcome : s.world.outcome? done = turns.getLast?.bind Turn.result?) :
    s'.world.outcome? done = (turns ++ (m.turn? i).toList).getLast?.bind Turn.result? := by
  have hended {step : Step} {outcome : Outcome} (heq : m = .ended i step outcome) :
      m.turn? i = some (.ended step outcome) := by
    subst heq
    exact if_pos rfl
  cases hturn : m.turn? i with
  | none =>
    rw [Option.toList_none, append_nil, h.exclusive.outcome?_eq hs hm hclient, houtcome]
    rintro outcome ⟨step, heq⟩
    cases hturn.symm.trans (hended heq)
  | some turn =>
    rw [(h.follows hs hm hturn).result?_eq_none] at houtcome
    rw [Option.toList_some, getLast?_concat, Option.bind_some]
    cases hresult : turn.result? with
    | some outcome =>
      cases turn with
      | ended step outcome =>
        obtain rfl := Move.eq_ended hturn
        rw [h.outcome?_ended hs hm, houtcome]
        exact hresult
      | _ => cases hresult
    | none =>
      rw [h.exclusive.outcome?_eq hs hm hclient, houtcome]
      rintro outcome ⟨step, heq⟩
      cases hturn.symm.trans (hended heq)
      cases hresult

/-! ## A new coroutine -/

theorem drives_spawn (hs : Sound s) (state : ρ) (sink : Option κ) :
    Drives ⟨s.agenda, ((spawn state sink).run s.world).2⟩ s.world.coroutines.length
      s.world.continuations.length sink [] := by
  obtain ⟨l, hadd, hpush⟩ := steps_spawn (a := s.agenda) hs.inBounds state sink
  have hnone {x : Work κ ρ σ} (hmem : x ∈ s.agenda) := hs.not_isFor (Nat.le_refl _) hmem
  refine ⟨⟨_, getElem?_concat_length, rfl, rfl⟩, ⟨?_, ?_⟩, .inl ⟨?_, .starting ?_⟩, ?_, rfl⟩
  · simp [run_spawn]
  · intro x hx
    have hnew := hs.not_settledBy (Nat.le_refl s.world.continuations.length)
    cases x with
    | group group => exact absurd hx (hnew (.group group))
    | race =>
      rcases (Ledger.Path.cons hadd hpush.path).mem_callbacks hx with hmem | ⟨d, hregister⟩
      · exact absurd hmem (hnew .race)
      · simp at hregister
    | coroutine j =>
      obtain ⟨co, hco, hdone⟩ := hx
      rcases getElem?_concat_eq_some hco with hold | ⟨rfl, -⟩
      · exact absurd ⟨co, hold, hdone⟩ (hnew (.coroutine j))
      · rfl
  · have hzero := hs.tokens_eq_zero (Nat.le_refl _)
    have hcalls := hadd.calls_eq (i := s.world.coroutines.length) (by rintro (heq | heq | heq) <;> cases heq)
    rw [Scene.tokens] at hzero ⊢
    rw [hpush.calls_start, hcalls]
    show s.ledger.calls _ + 1 + s.works _ = 1
    omega
  · exact hpush.mem_tasks
  · intro x hmem hx
    rw [hnone hmem] at hx
    cases hx

/-! ## Runs -/

/-- The turns of one coroutine in a run. -/
def turnsOf (i : Nat) (moves : List (Move κ ρ)) : List (Turn κ) := moves.filterMap (Move.turn? i)

theorem turnsOf_snoc (i : Nat) (moves : List (Move κ ρ)) (m : Move κ ρ) :
    turnsOf i (moves ++ [m]) = turnsOf i moves ++ (m.turn? i).toList := by
  rw [turnsOf, filterMap_append, filterMap_cons]
  cases m.turn? i <;> rfl

theorem Run.drives (h : Run client s moves s') (hs : Sound s) (hdrives : Drives s i done sink []) :
    Drives s' i done sink (turnsOf i moves) := by
  induction h with
  | refl => exact hdrives
  | snoc hrun hm ih =>
    rw [turnsOf_snoc]
    exact ih.step (hrun.sound hs) hm

theorem Run.outcome?_done (h : Run client s moves s') (hs : Sound s) (hdrives : Drives s i done sink [])
    (hnone : s.world.outcome? done = none) (hclient : Spared (· = done) moves) :
    s'.world.outcome? done = (turnsOf i moves).getLast?.bind Turn.result? := by
  induction h with
  | refl => exact hnone
  | @snoc moves m _ _ hrun hm ih =>
    have hbefore := hclient.subset (subset_append_left moves [m])
    rw [turnsOf_snoc]
    exact (hrun.drives hs hdrives).outcome?_step (hrun.sound hs) hm
      (hclient.of_mem mem_concat_self rfl) (ih hbefore)

/-! ## What its sink has noted -/

def Note.receivedBy? [DecidableEq κ] (label : κ) : Note κ → Option Value
  | .received sink v => if sink = label then some v else none
  | .resumed _ => none

theorem notesOf_snoc (moves : List (Move κ ρ)) (m : Move κ ρ) :
    notesOf (moves ++ [m]) = notesOf moves ++ m.note?.toList := by
  rw [notesOf, filterMap_append, filterMap_cons]
  cases m.note? <;> rfl

theorem Drives.noted_step [DecidableEq κ] {label : κ} (h : Drives s i done (some label) turns) (hs : Sound s)
    (hm : Moves client s m s') (honly : ∀ j v, m = .received j label v → j = i) :
    m.note?.toList.filterMap (Note.receivedBy? label) = (m.turn? i).toList.filterMap Turn.received? := by
  have hfollows {turn : Turn κ} (hturn : m.turn? i = some turn) := h.follows hs hm hturn
  cases m with
  | noted | called | took | ran => rfl
  | resumed j | suspended j | emitted j | ended j | stalled j | lost j =>
    by_cases hj : j = i
    · simp [Move.note?, Move.turn?, hj, filterMap_cons, Note.receivedBy?, Turn.received?]
    · simp [Move.note?, Move.turn?, hj, filterMap_cons, Note.receivedBy?]
  | received j sink v =>
    by_cases hsink : sink = label
    · subst hsink
      obtain rfl := honly j v rfl
      simp [Move.note?, Move.turn?, Note.receivedBy?, Turn.received?]
    · have hj : j ≠ i := by
        rintro rfl
        generalize turns.getLast? = last at hfollows
        cases hfollows (if_pos rfl) with
        | received hlabel => exact hsink (Option.some.inj hlabel).symm
      simp [Move.note?, Move.turn?, hj, hsink, Note.receivedBy?]

theorem Run.received_eq [DecidableEq κ] {label : κ} (h : Run client s moves s') (hs : Sound s)
    (hdrives : Drives s i done (some label) []) (honly : ∀ j v, .received j label v ∈ moves → j = i) :
    (notesOf moves).filterMap (Note.receivedBy? label) = (turnsOf i moves).filterMap Turn.received? := by
  induction h with
  | refl => rfl
  | @snoc moves m _ _ hrun hm ih =>
    have hstep := (hrun.drives hs hdrives).noted_step (hrun.sound hs) hm fun j v heq =>
      honly j v (heq ▸ mem_concat_self)
    rw [notesOf_snoc, turnsOf_snoc, filterMap_append, filterMap_append, hstep,
      ih fun j v hmem => honly j v (mem_append_left _ hmem)]

/-- What has been given to a sink was emitted by a coroutine that there still is. -/
theorem Run.lt_of_received {label : κ} {v : Value} (h : Run client s moves s') (hs : Sound s)
    (hmem : .received i label v ∈ moves) : i < s'.world.coroutines.length := by
  induction h with
  | refl => cases hmem
  | @snoc moves m s₁ _ hrun hm ih =>
    have he := hm.effect (hrun.sound hs)
    have hlt : i < s₁.world.coroutines.length := by
      rcases mem_append.mp hmem with hmem | hmem
      · exact ih hmem
      · obtain rfl := mem_singleton.mp hmem
        cases hm with
        | received =>
          obtain ⟨co, hco, -⟩ := (hrun.sound hs).works _ mem_cons_self
          exact lt_of_getElem? hco
    obtain ⟨state, hstate⟩ := he.coroutine (getElem?_eq_getElem hlt)
    exact lt_of_getElem? hstate

/-- A coroutine rests after this turn: it has ended, or waits for what is not settled. -/
def Turn.Rests (w : World κ ρ σ) : Turn κ → Prop
  | .suspended _ c => w.outcome? c = none
  | turn => turn.IsLast

theorem Drives.rests (h : Drives s i done sink turns) (hidle : s.Idle) :
    ∃ turn, turns.getLast? = some turn ∧ turn.Rests s.world := by
  rcases h.token with ⟨-, hheld⟩ | ⟨-, turn, hturn, hlast⟩
  · generalize turns.getLast? = last at hheld
    cases hheld with
    | starting hstart =>
      rw [hidle.tasks] at hstart
      cases hstart
    | waiting hlocated => exact ⟨_, rfl, hlocated.outcome?_eq_none hidle.tasks⟩
    | working hmem =>
      rw [hidle.1] at hmem
      cases hmem
  · refine ⟨turn, hturn, ?_⟩
    cases turn with
    | ended | stalled | lost => trivial
    | resumed | suspended | emitted | received => exact hlast.elim

/-- What is known of a coroutine once it has taken the turns that are among the moves. -/
structure Driven [DecidableEq κ] (client : Client κ ρ σ) (i done : Nat) (sink : Option κ)
    (moves : List (Move κ ρ)) (s : Scene κ ρ σ) : Prop where
  /-- Whatever turn it takes next follows its last one. -/
  next : ∀ m s' turn, Moves client s m s' → m.turn? i = some turn →
    Follows i sink s.world ((turnsOf i moves).filterMap Turn.emitted?).length (turnsOf i moves).getLast? turn
  /-- The sink has received what was emitted, in this order, but for a value that was emitted just now. -/
  handed : (turnsOf i moves).filterMap Turn.emitted? = (turnsOf i moves).filterMap Turn.received? ++
    ((turnsOf i moves).getLast?.bind Turn.emitted?).toList
  /-- If no other coroutine has its sink, what was noted there are the values that were emitted, in this order
      and each of them once, but for a value that was emitted just now. -/
  delivered : ∀ label, sink = some label → (∀ j v, .received j label v ∈ moves → j = i) →
    (turnsOf i moves).filterMap Turn.emitted? = (notesOf moves).filterMap (Note.receivedBy? label) ++
      ((turnsOf i moves).getLast?.bind Turn.emitted?).toList
  /-- Its continuation has the outcome that it has ended with, and none before, unless client code has
      settled it. -/
  settled : Spared (· = done) moves →
    s.world.outcome? done = (turnsOf i moves).getLast?.bind Turn.result?
  /-- Its continuation is settled once: to settle it again fails and does nothing, and its outcome stays. -/
  once : ∀ outcome, s.world.outcome? done = some outcome →
    (∀ again, (settle done again).run s.world = (.error .alreadySettled, s.world)) ∧
      ∀ moves' s', Run client s moves' s' → s'.world.outcome? done = some outcome
  /-- If nothing is left to do, it has ended, or waits for what is not settled. -/
  rests : s.Idle → ∃ turn, (turnsOf i moves).getLast? = some turn ∧ turn.Rests s.world

/-- What is said of a coroutine, wherever it is started, with a sink or without, and whatever happens before
    and after: client code may do what it likes, ticks inside of ticks included. What ticks do, and what is
    done to drive a coroutine, are runs, and the notes that the client takes on the way are those of the
    run. -/
theorem spawn_driven [DecidableEq κ] {batchSize : Nat} {own : σ} {before after : List (Move κ ρ)}
    {s₀ s : Scene κ ρ σ} {state : ρ} {sink : Option κ} (hbefore : Run client (.start batchSize own) before s₀)
    (hafter : Run client ⟨s₀.agenda, ((spawn state sink).run s₀.world).2⟩ after s) :
    client.TicksRun ∧ client.DrivesRun ∧
      Driven client s₀.world.coroutines.length ((spawn state sink).run s₀.world).1 sink after s := by
  have hs₀ : Sound s₀ := hbefore.sound (sound_start batchSize own)
  have hspawned : Moves client s₀ (.called (.spawn state sink))
      ⟨s₀.agenda, ((spawn state sink).run s₀.world).2⟩ := .called (.spawn state sink)
  have hs₁ := hs₀.step hspawned
  have hs := hafter.sound hs₁
  have hdrives₁ := drives_spawn hs₀ state sink
  have hdrives := hafter.drives hs₁ hdrives₁
  have hnew : ((spawn state sink).run s₀.world).2.outcome? s₀.world.continuations.length = none := by
    simp [run_spawn, World.outcome?]
  refine ⟨ticksRun client, drivesRun client, ?_, hdrives.handed, ?_, ?_, ?_, hdrives.rests⟩
  · intro m s' turn hm hturn
    exact hdrives.follows hs hm hturn
  · rintro label rfl honly
    rw [hafter.received_eq hs₁ hdrives₁ honly]
    exact hdrives.handed
  · exact hafter.outcome?_done hs₁ hdrives₁ hnew
  · intro outcome houtcome
    exact hs.settled_once houtcome

/-! ### A generator whose client takes notes -/

def takeNote (n : Note κ) : Act κ ρ (σ × List (Note κ)) Unit :=
  modify fun w => { w with own := (w.own.1, w.own.2 ++ [n]) }

/-- The client, made to take notes beside its own state. -/
def Client.noting (client : Client κ ρ (σ × List (Note κ))) : Client κ ρ (σ × List (Note κ)) where
  task := client.task
  callback := client.callback
  sink label v := do
    client.sink label v
    takeNote (.received label v)
  resume tick state input := do
    takeNote (.resumed input)
    client.resume tick state input

/-- All is noted. Client code does not settle the continuation `spared`, and it does not tick inside of a
    tick. -/
def Manner.noting (spared patience : Nat) : Manner κ ρ (σ × List (Note κ)) where
  calls call := ∀ outcome, call ≠ .settle spared outcome
  nested := False
  patience
  takes _ := true
  notes := Prod.snd

theorem tells_takeNote {client : Client κ ρ (σ × List (Note κ))} {a : List (Work κ ρ (σ × List (Note κ)))}
    {n : Note κ} {first last : List (Note κ)} {spared patience : Nat} (h : first ++ last = [n])
    (w : World κ ρ (σ × List (Note κ))) :
    Tells client (.noting spared patience) first last ⟨a, w⟩ ⟨a, ((takeNote n).run w).2⟩ := by
  refine ⟨[.noted], (Moves.noted (w.own.1, w.own.2 ++ [n]) w.completed).run,
    forall_mem_singleton.mpr trivial, ?_⟩
  show w.own.2 ++ [n] = w.own.2 ++ (first ++ [] ++ last).filter fun _ => true
  rw [append_nil, h]
  rfl

/-- A client with a generator that waits for the continuation 0, emits what it is told and then something
    else, and completes. -/
def streaming : Client Unit Nat (Unit × List (Note Unit)) where
  task _ _ := pure ()
  callback _ _ _ := pure ()
  sink _ _ := pure ()
  resume _ state input := pure <| match state, input with
    | 0, _ => (.suspend ⟨.value, .pending 0⟩, 1)
    | 1, .ok v => (.emit v, 2)
    | 2, _ => (.emit (.string "b"), 3)
    | _, _ => (.complete (.string "end"), 4)

theorem plain_streaming : streaming.noting.Plain (.noting 1 3) where
  task _ _ _ _ := explained_pure ()
  callback _ _ _ _ _ := explained_pure ()
  sink _ _ a w := Tells.trans (explained_pure () (a := a) w) (tells_takeNote rfl w)
  resume _ _ _ _ a w := (tells_takeNote rfl w).trans (explained_pure _ (a := a) _)

def streamStarted : World Unit Nat (Unit × List (Note Unit)) :=
  ((spawn 0 (some ())).run ((discard newContinuation : Act Unit Nat (Unit × List (Note Unit)) Unit).run
    (.withBatchSize 1 ((), []))).2).2

def settledBetween : Act Unit Nat (Unit × List (Note Unit)) Unit := do
  discard (tick streaming.noting 3)
  discard (settle 0 (.ok (.string "a")))
  discard (tick streaming.noting 3)

/-- The generator is resumed four times, and its sink is given the two values that it emits. -/
theorem spawn_driven_streaming :
    ∃ moves, Run streaming.noting ⟨[], streamStarted⟩ moves ⟨[], (settledBetween.run streamStarted).2⟩ ∧
      Scene.Idle ⟨[], (settledBetween.run streamStarted).2⟩ ∧
      (∃ step, (turnsOf 0 moves).getLast? = some (.ended step (.ok (.string "end")))) ∧
      (settledBetween.run streamStarted).2.own.2 = [.resumed (.ok .nothing), .resumed (.ok (.string "a")),
        .received () (.string "a"), .resumed (.ok .nothing), .received () (.string "b"),
        .resumed (.ok .nothing)] ∧
      (turnsOf 0 moves).filterMap Turn.emitted? = [.string "a", .string "b"] := by
  have htick : Explained streaming.noting (.noting 1 3) [] (discard (tick streaming.noting 3)) :=
    (explained_tick plain_streaming (.inr ⟨id, Nat.le_refl 3⟩) (.inl rfl)).bind fun _ => explained_pure _
  have hsettle : Explained streaming.noting (.noting 1 3) [] (discard (settle 0 (.ok (.string "a")))) :=
    explained_call (.settle 0 (.ok (.string "a"))) (fun _ heq => by cases heq) fun _ => rfl
  have hcode : Explained streaming.noting (.noting 1 3) [] settledBetween :=
    htick.bind fun _ => hsettle.bind fun _ => htick
  obtain ⟨moves, hrun, hmoves, hnotes⟩ := hcode streamStarted
  have hbefore : Run streaming.noting (.start 1 ((), [])) [.called .create] ⟨[], ((discard newContinuation :
      Act Unit Nat (Unit × List (Note Unit)) Unit).run (.withBatchSize 1 ((), []))).2⟩ :=
    Run.refl.snoc (.called .create)
  have hidle : (settledBetween.run streamStarted).2.pending = 0 := by decide
  have houtcome : (settledBetween.run streamStarted).2.outcome? 1 = some (.ok (.string "end")) := by decide
  have hsound : Sound ⟨[], streamStarted⟩ :=
    (hbefore.snoc (.called (.spawn 0 (some ())))).sound (sound_start 1 _)
  have honly (j : Nat) (v : Value) (hmem : .received j () v ∈ moves) : j = 0 :=
    Nat.lt_one_iff.mp (hrun.lt_of_received hsound hmem)
  have hnoted : notesOf moves = (settledBetween.run streamStarted).2.own.2 := by
    refine Eq.trans ?_ hnotes.symm
    show notesOf moves = (notesOf moves ++ []).filter fun _ => true
    rw [append_nil]
    exact (filter_eq_self.mpr fun _ _ => rfl).symm
  have hdriven := (spawn_driven hbefore hrun).2.2
  have hdelivered := hdriven.delivered () rfl honly
  have hresult := (hdriven.settled ?_).symm.trans houtcome
  · obtain ⟨turn, hturn, hended⟩ := Option.bind_eq_some_iff.mp hresult
    cases turn with
    | ended step outcome =>
      cases hended
      rw [hturn, hnoted] at hdelivered
      exact ⟨moves, hrun, ⟨rfl, hidle⟩, ⟨step, hturn⟩, rfl, hdelivered⟩
    | _ => cases hended
  · rintro c outcome hmem rfl
    exact hmoves _ hmem outcome rfl

end Motif.Async
