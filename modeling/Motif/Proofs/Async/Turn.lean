import Motif.Proofs.Async.Sound

/-!
# Turns of a coroutine

What is to be done for a coroutine is in one place at any time: a task starts it, it waits for a
continuation, or it is on the agenda. Nothing but its end takes it away, so it is resumed once for each
reason to resume it.
-/

namespace Motif.Async

open List

variable {κ ρ σ : Type} {client : Client κ ρ σ} {s s' : Scene κ ρ σ} {m : Move κ ρ}
  {a : List (Work κ ρ σ)} {w : World κ ρ σ} {i c : Nat} {outcome : Outcome} {l l' : Ledger κ} {task : Task κ}
  {x : Work κ ρ σ}

/-- What happens to one coroutine. -/
inductive Turn (κ : Type) where
  | resumed (input : Outcome)
  | suspended (request : Suspend) (awaited : Nat)
  | emitted (v : Value)
  | received (sink : κ) (v : Value)
  | ended (step : Step) (outcome : Outcome)
  | stalled (emits : Nat)
  | lost

def Turn.IsLast : Turn κ → Prop
  | .ended _ _ => True
  | .stalled _ => True
  | .lost => True
  | _ => False

def Move.turn? (i : Nat) : Move κ ρ → Option (Turn κ)
  | .resumed j input => if j = i then some (.resumed input) else none
  | .suspended j request awaited => if j = i then some (.suspended request awaited) else none
  | .emitted j v => if j = i then some (.emitted v) else none
  | .received j sink v => if j = i then some (.received sink v) else none
  | .ended j step outcome => if j = i then some (.ended step outcome) else none
  | .stalled j emits => if j = i then some (.stalled emits) else none
  | .lost j => if j = i then some .lost else none
  | _ => none

/-! ## Tokens -/

def Task.isStart (i : Nat) : Task κ → Bool
  | .start j => j == i
  | _ => false

def Work.isFor (i : Nat) : Work κ ρ σ → Bool
  | .task _ => false
  | .drive j _ _ => j == i
  | .running j _ _ _ _ => j == i
  | .hand j _ _ _ _ => j == i

noncomputable def Ledger.calls (l : Ledger κ) (i : Nat) : Nat :=
  l.tasks.countP (Task.isStart i) + l.copies (.resume i)

def Scene.works (s : Scene κ ρ σ) (i : Nat) : Nat := s.agenda.countP (Work.isFor i)

/-- How often there is something to be done for a coroutine, now or later. -/
noncomputable def Scene.tokens (s : Scene κ ρ σ) (i : Nat) : Nat := s.ledger.calls i + s.works i

/-- A change by which it comes to be, or is done with, that a coroutine is to be started or resumed. -/
def Change.Calls (i : Nat) (x : Change κ) : Prop :=
  x = .push (.start i) ∨ x = .pop (.start i) ∨ x.Concerns (.resume i)

theorem Task.isStart_iff : task.isStart i = true ↔ task = .start i := by
  cases task with
  | client | notify => simp [Task.isStart]
  | start j => simp [Task.isStart]

theorem Ledger.Step.starts_eq {x : Change κ} (h : Ledger.Step l x l') (hx : ¬ x.Calls i) :
    l'.tasks.countP (Task.isStart i) = l.tasks.countP (Task.isStart i) := by
  have hfalse {task : Task κ} (hne : task ≠ .start i) : task.isStart i = false :=
    Bool.eq_false_iff.mpr fun heq => hne (Task.isStart_iff.mp heq)
  cases h with
  | add | wait => rfl
  | shuffle hperm => exact (hperm.countP_eq _).symm
  | push =>
    rw [countP_append, countP_singleton, hfalse fun heq => hx (.inl (heq ▸ rfl))]
    rfl
  | @settle tasks cs d waiting outcome =>
    have hzero : (waiting.map (Task.notify · outcome)).countP (Task.isStart i) = 0 := by
      rw [countP_map]
      exact countP_eq_zero.mpr fun _ _ => Bool.false_ne_true
    rw [countP_append, hzero]
    rfl
  | tell =>
    rw [countP_append, countP_singleton]
    rfl
  | pop =>
    rw [countP_cons, hfalse fun heq => hx (.inr (.inl (heq ▸ rfl)))]
    rfl

theorem Ledger.Step.calls_eq {x : Change κ} (h : Ledger.Step l x l') (hx : ¬ x.Calls i) :
    l'.calls i = l.calls i := by
  rw [calls, calls, h.starts_eq hx, h.copies_eq fun hconcerns => hx (.inr (.inr hconcerns))]

theorem Ledger.Path.calls_eq {xs : List (Change κ)} (h : Ledger.Path l xs l') (hxs : ∀ x ∈ xs, ¬ x.Calls i) :
    l'.calls i = l.calls i := by
  induction h with
  | nil => rfl
  | cons hstep _ ih =>
    rw [ih fun x hx => hxs x (mem_cons_of_mem _ hx)]
    exact hstep.calls_eq (hxs _ mem_cons_self)

theorem Ledger.Step.calls_start (h : Ledger.Step l (.push (.start i)) l') : l'.calls i = l.calls i + 1 := by
  have hcopies : l'.copies (.resume i) = l.copies (.resume i) := h.copies_eq id
  cases h with
  | push =>
    rw [calls, calls, hcopies, countP_append, countP_singleton, if_pos (Task.isStart_iff.mpr rfl)]
    exact Nat.add_right_comm _ _ _

theorem Ledger.Step.calls_register (h : Ledger.Step l (.register c (.resume i)) l') :
    l'.calls i = l.calls i + 1 := by
  have hstarts : l'.tasks.countP (Task.isStart i) = l.tasks.countP (Task.isStart i) := by
    cases h with
    | wait => rfl
    | tell =>
      rw [countP_append, countP_singleton]
      rfl
  rw [calls, calls, h.copies_register, hstarts]
  rfl

theorem Ledger.Step.calls_pop (h : Ledger.Step l (.pop task) l')
    (htask : task = .start i ∨ ∃ outcome, task = .notify (.resume i) outcome) :
    l.calls i = l'.calls i + 1 := by
  rcases htask with rfl | ⟨outcome, rfl⟩
  · have hcopies : l'.copies (.resume i) = l.copies (.resume i) :=
      h.copies_eq fun hconcerns => nomatch hconcerns
    cases h with
    | pop =>
      rw [calls, calls, hcopies, countP_cons, if_pos (Task.isStart_iff.mpr rfl)]
      exact Nat.add_right_comm _ _ _
  · have hcopies := h.copies_pop
    cases h with
    | pop =>
      rw [calls, calls, hcopies, countP_cons]
      rfl

theorem Permitted.calls {x : Change κ} (h : Permitted s m s' x) (hi : i < s.world.coroutines.length)
    (hx : x.Calls i) : m = .ran (.start i) ∨ (∃ outcome, m = .ran (.notify (.resume i) outcome)) ∨
      ∃ request c, m = .suspended i request c := by
  rcases hx with rfl | rfl | hx
  · rcases h with ⟨label, hlabel⟩ | ⟨hstart, -⟩
    · cases hlabel
    · cases hstart
      exact absurd hi (Nat.lt_irrefl _)
  · exact .inl h
  · rcases h.concerns hx hi with hran | ⟨label, hlabel⟩ | ⟨j, request, c, heq, hm⟩
    · exact .inr (.inl hran)
    · cases hlabel
    · cases heq
      exact .inr (.inr ⟨request, c, hm⟩)

theorem Effect.calls_eq (h : Effect s m s') (hi : i < s.world.coroutines.length)
    (hstart : m ≠ .ran (.start i)) (hresume : ∀ outcome, m ≠ .ran (.notify (.resume i) outcome))
    (hsuspended : ∀ request c, m ≠ .suspended i request c) : s'.ledger.calls i = s.ledger.calls i := by
  obtain ⟨xs, hpath, hxs⟩ := h.path
  refine hpath.calls_eq fun x hx hcalls => ?_
  rcases (hxs x hx).calls hi hcalls with hm | ⟨outcome, hm⟩ | ⟨request, c, hm⟩
  · exact hstart hm
  · exact hresume outcome hm
  · exact hsuspended request c hm

theorem Moves.calls_ran (hm : Moves client s (.ran task) s') (hs : Sound s)
    (htask : task = .start i ∨ ∃ outcome, task = .notify (.resume i) outcome) :
    s.ledger.calls i = s'.ledger.calls i + 1 := by
  have hran : Ran s task s' := by
    cases hm with
    | ran => exact ran_task hs.inBounds task
  obtain ⟨l, xs, hpop, hpath, hxs⟩ := hran.pops
  rw [hpop.calls_pop htask, hpath.calls_eq fun x hx => ?_]
  obtain ⟨_, _, rfl⟩ := hxs x hx
  rintro (heq | heq | hconcerns)
  · cases heq
  · cases heq
  · exact hconcerns

theorem Moves.registers {request : Suspend} (hm : Moves client s (.suspended i request c) s') (hs : Sound s) :
    ∃ l xs, Ledger.Path s.ledger xs l ∧ (∀ x ∈ xs, ¬ x.Calls i) ∧
      Ledger.Step l (.register c (.resume i)) s'.ledger := by
  cases hm with
  | @suspended a w _ co input emits since _ w' hanswers hc =>
    have halike := hanswers.alike emits a
    have hgrown := grown_resolve (a := a) (halike.queue.symm ▸ hs.inBounds) request
    obtain ⟨xs, hpath, hxs⟩ := hgrown.path
    refine ⟨_, xs, halike.ledger ▸ hpath, fun x hx => ?_, step_onSettled hgrown.inBounds hc (.resume i)⟩
    have hfresh := hxs x hx
    rintro (rfl | rfl | hconcerns)
    · exact hfresh
    · exact hfresh
    · cases x with
      | push | add | settle | shuffle => exact hconcerns
      | pop => exact hfresh
      | register d callback =>
        obtain rfl : callback = .resume i := hconcerns
        exact hfresh

theorem Moves.calls_suspended {request : Suspend} (hm : Moves client s (.suspended i request c) s')
    (hs : Sound s) : s'.ledger.calls i = s.ledger.calls i + 1 := by
  obtain ⟨l, xs, hpath, hxs, hstep⟩ := hm.registers hs
  rw [hstep.calls_register, hpath.calls_eq hxs]

/-! ## The agenda -/

theorem countP_task (batch : List (Task κ)) :
    (batch.map (Work.task (ρ := ρ) (σ := σ))).countP (Work.isFor i) = 0 := by
  rw [countP_map]
  exact countP_eq_zero.mpr fun _ _ => Bool.false_ne_true

theorem works_cons_of_ne {j : Nat} (hx : x.isFor j = true) (hne : j ≠ i) :
    Scene.works ⟨x :: a, w⟩ i = Scene.works ⟨a, w⟩ i := by
  have hfalse : x.isFor i = false := by
    cases x with
    | task => rfl
    | drive k | running k | hand k =>
      obtain rfl : k = j := beq_iff_eq.mp hx
      exact beq_false_of_ne hne
  rw [Scene.works, countP_cons, hfalse]
  rfl

theorem works_cons (hx : x.isFor i = true) : Scene.works ⟨x :: a, w⟩ i = Scene.works ⟨a, w⟩ i + 1 := by
  rw [Scene.works, countP_cons, if_pos hx]
  rfl

theorem Moves.works_ran (hm : Moves client s (.ran task) s')
    (htask : task = .start i ∨ ∃ outcome, task = .notify (.resume i) outcome) :
    s'.works i = s.works i + 1 := by
  cases hm with
  | ran =>
    rcases htask with rfl | ⟨outcome, rfl⟩
    · exact works_cons (beq_self_eq_true i)
    · exact works_cons (beq_self_eq_true i)

def Move.Ends (i : Nat) (m : Move κ ρ) : Prop := ∃ turn, m.turn? i = some turn ∧ turn.IsLast

def Move.Leaves (i : Nat) (m : Move κ ρ) : Prop := (∃ request c, m = .suspended i request c) ∨ m.Ends i

theorem eq_of_ite {j : Nat} {turn turn' : Turn κ} (h : (if j = i then some turn else none) = some turn') :
    j = i ∧ turn = turn' := by
  by_cases hj : j = i
  · rw [if_pos hj] at h
    exact ⟨hj, Option.some.inj h⟩
  · rw [if_neg hj] at h
    cases h

theorem Moves.works_leave (hm : Moves client s m s') (hleave : m.Leaves i) : s.works i = s'.works i + 1 := by
  rcases hleave with ⟨request, c, rfl⟩ | ⟨turn, hturn, hlast⟩
  · cases hm with
    | suspended => exact works_cons (beq_self_eq_true _)
  cases hm with
  | noted | called | took | ran => cases hturn
  | resumed | suspended | emitted | received =>
    obtain ⟨-, rfl⟩ := eq_of_ite hturn
    exact hlast.elim
  | ended | stalled | missing | lost =>
    obtain ⟨rfl, -⟩ := eq_of_ite hturn
    exact works_cons (beq_self_eq_true _)

theorem Moves.works_eq (hm : Moves client s m s') (hstart : m ≠ .ran (.start i))
    (hresume : ∀ outcome, m ≠ .ran (.notify (.resume i) outcome)) (hleave : ¬ m.Leaves i) :
    s'.works i = s.works i := by
  cases hm with
  | noted | called => rfl
  | took =>
    rw [Scene.works, countP_append, countP_task, Nat.zero_add]
    rfl
  | ran task =>
    cases task with
    | client => rfl
    | start j => exact works_cons_of_ne (beq_self_eq_true j) fun hj => hstart (hj ▸ rfl)
    | notify callback outcome =>
      cases callback with
      | client | slot | forward => rfl
      | resume j => exact works_cons_of_ne (beq_self_eq_true j) fun hj => hresume outcome (hj ▸ rfl)
  | resumed | emitted | received => rfl
  | suspended =>
    refine (works_cons_of_ne (beq_self_eq_true _) fun hj => hleave (.inl ?_)).symm
    subst hj
    exact ⟨_, _, rfl⟩
  | ended | stalled | missing | lost =>
    refine (works_cons_of_ne (beq_self_eq_true _) fun hj => hleave (.inr ?_)).symm
    exact ⟨_, if_pos hj, trivial⟩

/-! ## Tokens are kept -/

theorem Sound.not_isFor (hs : Sound s) (hi : s.world.coroutines.length ≤ i) (hmem : x ∈ s.agenda) :
    x.isFor i = false := by
  have hknown := hs.works x hmem
  refine Bool.eq_false_iff.mpr fun hx => Nat.not_lt.mpr hi ?_
  cases x with
  | task => cases hx
  | drive =>
    obtain rfl := beq_iff_eq.mp hx
    exact hknown
  | running =>
    obtain rfl := beq_iff_eq.mp hx
    obtain ⟨state, hco⟩ := hknown
    exact lt_of_getElem? hco
  | hand =>
    obtain rfl := beq_iff_eq.mp hx
    obtain ⟨co, hco, -⟩ := hknown
    exact lt_of_getElem? hco

theorem Sound.tokens_eq_zero (hs : Sound s) (hi : s.world.coroutines.length ≤ i) : s.tokens i = 0 := by
  have hstarts : s.ledger.tasks.countP (Task.isStart i) = 0 := by
    refine countP_eq_zero.mpr fun task hmem hstart => Nat.not_lt.mpr hi ?_
    obtain rfl := Task.isStart_iff.mp hstart
    exact hs.starts i hmem
  have hcopies : s.ledger.copies (.resume i) = 0 :=
    Ledger.copies_eq_zero.mpr fun hmem => Nat.not_lt.mpr hi (hs.callbacks _ hmem)
  have hworks : s.works i = 0 := countP_eq_zero.mpr fun x hmem => Bool.eq_false_iff.mp (hs.not_isFor hi hmem)
  rw [Scene.tokens, Ledger.calls, hstarts, hcopies, hworks]

theorem Moves.tokens_eq (hm : Moves client s m s') (hs : Sound s) (hi : i < s.world.coroutines.length)
    (hend : ¬ m.Ends i) : s'.tokens i = s.tokens i := by
  have he := hm.effect hs
  rw [Scene.tokens, Scene.tokens]
  by_cases hsuspended : ∃ request c, m = .suspended i request c
  · -- it leaves the agenda and waits
    obtain ⟨request, c, rfl⟩ := hsuspended
    rw [hm.calls_suspended hs, hm.works_leave (.inl ⟨request, c, rfl⟩)]
    omega
  by_cases hran : ∃ task, m = .ran task ∧ (task = .start i ∨ ∃ outcome, task = .notify (.resume i) outcome)
  · -- the task for it leaves something to be done on the agenda
    obtain ⟨task, rfl, htask⟩ := hran
    rw [hm.calls_ran hs htask, hm.works_ran htask]
    omega
  have hstart : m ≠ .ran (.start i) := fun heq => hran ⟨_, heq, .inl rfl⟩
  have hresume (outcome : Outcome) : m ≠ .ran (.notify (.resume i) outcome) :=
    fun heq => hran ⟨_, heq, .inr ⟨outcome, rfl⟩⟩
  rw [he.calls_eq hi hstart hresume fun request c heq => hsuspended ⟨request, c, heq⟩,
    hm.works_eq hstart hresume (not_or.mpr ⟨hsuspended, hend⟩)]

theorem Moves.tokens_end (hm : Moves client s m s') (hs : Sound s) (hi : i < s.world.coroutines.length)
    (hend : m.Ends i) : s.tokens i = s'.tokens i + 1 := by
  have hcalls : s'.ledger.calls i = s.ledger.calls i := by
    obtain ⟨turn, hturn, hlast⟩ := hend
    refine (hm.effect hs).calls_eq hi ?_ ?_ ?_
    · rintro rfl
      cases hturn
    · rintro outcome rfl
      cases hturn
    · rintro request c rfl
      obtain ⟨-, rfl⟩ := eq_of_ite hturn
      exact hlast
  rw [Scene.tokens, Scene.tokens, hcalls, hm.works_leave (.inr hend)]
  rfl

end Motif.Async
