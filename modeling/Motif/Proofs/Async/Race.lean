import Motif.Proofs.Async.Gather

/-!
# Awaiting any of a collection

Those who take part in a race tell their outcomes to one continuation, and the first outcome that it is told
is its outcome. Tasks are run in the order in which they are enqueued, so this is the outcome of the one who
was settled first; but a tick inside of a tick runs later tasks before earlier ones, and then another one may
win.
-/

namespace Motif.Async

open List

variable {κ ρ σ : Type} {client : Client κ ρ σ} {s s' : Scene κ ρ σ} {m : Move κ ρ}
  {moves : List (Move κ ρ)} {a : List (Work κ ρ σ)} {w : World κ ρ σ} {target c : Nat} {cs : List Nat}
  {item : Awaitable} {items : List Awaitable} {outcome : Outcome} {xs : List (Change κ)}

/-! ## Those who take part -/

/-- The outcome of one who takes part in a race, if it is a value or a continuation. -/
def Awaitable.settled? (w : World κ ρ σ) : Awaitable → Option Outcome
  | .ready v => some (.ok v)
  | .pending c => w.outcome? c
  | .many _ => none

/-- A value, or a continuation that is there. -/
def Awaitable.Single (w : World κ ρ σ) : Awaitable → Prop
  | .ready _ => True
  | .pending c => c < w.continuations.length
  | .many _ => False

/-- A continuation takes part in a race in the place of something. -/
def Racer (s : Scene κ ρ σ) (c : Nat) : Awaitable → Prop
  | .ready v => s.world.outcome? c = some (.ok v)
  | .pending d => c = d
  | .many _ => False

theorem Racer.settled? (h : Racer s c item) : item.settled? s.world = s.world.outcome? c := by
  cases item with
  | ready v => exact Eq.symm h
  | pending d => rw [Awaitable.settled?, h]
  | many => exact h.elim

theorem Racer.along (h : Racer s c item) (hpath : Ledger.Path s.ledger xs s'.ledger) : Racer s' c item := by
  cases item with
  | ready v => exact hpath.outcome?_of_some h
  | pending d => exact h
  | many => exact h

/-! ## Races -/

/-- A continuation takes over the outcome of one of others. -/
structure Races (s : Scene κ ρ σ) (target : Nat) (items : List Awaitable) (cs : List Nat) : Prop where
  exclusive : Exclusive s target .race
  confined : s.ledger.Confined (.forward target) cs
  /-- Until it is settled it is to be told by all of them. -/
  located : s.world.outcome? target = none → ∀ c ∈ cs, s.ledger.Located c (.forward target)
  won : ∀ {outcome}, s.world.outcome? target = some outcome → ∃ c ∈ cs, s.world.outcome? c = some outcome
  racer : ∀ item ∈ items, ∃ c ∈ cs, Racer s c item
  entry : ∀ c ∈ cs, ∃ item ∈ items, Racer s c item

theorem Permitted.concerns_forward {x : Change κ} (h : Permitted s m s' x)
    (hlt : target < s.world.continuations.length) (hx : x.Concerns (.forward target)) :
    ∃ outcome, m = .ran (.notify (.forward target) outcome) := by
  rcases h.concerns hx hlt with hran | ⟨_, hlabel⟩ | ⟨_, _, _, hresume, -⟩
  · exact hran
  · cases hlabel
  · cases hresume

theorem Races.racers_along (h : Races s target items cs) (hpath : Ledger.Path s.ledger xs s'.ledger) :
    (∀ item ∈ items, ∃ c ∈ cs, Racer s' c item) ∧ ∀ c ∈ cs, ∃ item ∈ items, Racer s' c item := by
  constructor
  · intro item hitem
    obtain ⟨c, hc, hracer⟩ := h.racer item hitem
    exact ⟨c, hc, hracer.along hpath⟩
  · intro c hc
    obtain ⟨item, hitem, hracer⟩ := h.entry c hc
    exact ⟨item, hitem, hracer.along hpath⟩

theorem Races.along (h : Races s target items cs) (hpath : Ledger.Path s.ledger xs s'.ledger)
    (hconcerns : ∀ x ∈ xs, ¬ x.Concerns (.forward target))
    (hsettle : ∀ outcome, .settle target outcome ∉ xs) (hexclusive : Exclusive s' target .race) :
    Races s' target items cs := by
  have htarget : s'.world.outcome? target = s.world.outcome? target :=
    hpath.outcome?_eq h.exclusive.lt hsettle
  refine ⟨hexclusive, ?_, ?_, ?_, (h.racers_along hpath).1, (h.racers_along hpath).2⟩
  · exact hpath.confined h.confined fun c hmem => absurd rfl (hconcerns _ hmem)
  · intro hnone c hc
    exact hpath.located (h.located (htarget ▸ hnone) c hc) fun _ hmem => hconcerns _ hmem rfl
  · intro outcome hwon
    obtain ⟨c, hc, houtcome⟩ := h.won (htarget ▸ hwon)
    exact ⟨c, hc, hpath.outcome?_of_some houtcome⟩

theorem Moves.forwards (hm : Moves client s (.ran (.notify (.forward target) outcome)) s')
    (hlt : target < s.world.continuations.length) :
    s'.world.outcome? target = (s.world.outcome? target).or (some outcome) := by
  cases hm with
  | ran => exact outcome?_settle hlt outcome

theorem Races.told (h : Races s target items cs) (hs : Sound s)
    (hm : Moves client s (.ran (.notify (.forward target) outcome)) s') : Races s' target items cs := by
  have he := hm.effect hs
  have htarget := hm.forwards h.exclusive.lt
  obtain ⟨xs, hpath, hxs⟩ := he.path
  refine ⟨h.exclusive.step he, ?_, ?_, ?_, (h.racers_along hpath).1, (h.racers_along hpath).2⟩
  · refine hpath.confined h.confined fun c hmem => ?_
    cases hxs _ hmem with
    | fresh hfresh => exact absurd h.exclusive.lt hfresh.not_known
  · intro hnone
    rw [htarget] at hnone
    cases (Option.or_eq_none_iff.mp hnone).2
  · intro outcome' hwon
    have hsome : ∃ c ∈ cs, s.world.outcome? c = some outcome' := by
      rw [htarget] at hwon
      cases hbefore : s.world.outcome? target with
      | some outcome =>
        rw [hbefore] at hwon
        exact h.won (hbefore.trans hwon)
      | none =>
        rw [hbefore] at hwon
        cases hwon
        exact h.confined.told hm.mem_tasks
    obtain ⟨c, hc, houtcome⟩ := hsome
    exact ⟨c, hc, he.outcome?_of_some houtcome⟩

theorem Races.step (h : Races s target items cs) (hs : Sound s) (hm : Moves client s m s')
    (hclient : ∀ outcome, m ≠ .called (.settle target outcome)) : Races s' target items cs := by
  by_cases htold : ∃ outcome, m = .ran (.notify (.forward target) outcome)
  · obtain ⟨outcome, rfl⟩ := htold
    exact h.told hs hm
  · have he := hm.effect hs
    obtain ⟨xs, hpath, hxs⟩ := he.path
    refine h.along hpath (fun x hx hconcerns => ?_) (fun outcome hmem => ?_) (h.exclusive.step he)
    · exact htold ((hxs x hx).concerns_forward h.exclusive.lt hconcerns)
    · rcases h.exclusive.acts hm (hxs _ hmem) with hcalled | hran
      · exact hclient outcome hcalled
      · exact htold ⟨outcome, hran⟩

/-! ## Who is in front -/

def Task.forwarded? (target : Nat) : Task κ → Option Outcome
  | .notify (.forward c) outcome => if c = target then some outcome else none
  | _ => none

def Ledger.next? (l : Ledger κ) (target : Nat) : Option Outcome := l.tasks.findSome? (Task.forwarded? target)

theorem Task.forwarded?_eq_some {task : Task κ} :
    task.forwarded? target = some outcome ↔ task = .notify (.forward target) outcome := by
  constructor
  · intro h
    unfold Task.forwarded? at h
    split at h
    · obtain ⟨rfl, heq⟩ := (Option.ite_none_right_eq_some ..).mp h
      cases heq
      rfl
    · cases h
  · rintro rfl
    exact if_pos rfl

theorem Ledger.Step.next?_of_some {l l' : Ledger κ} {x : Change κ} (h : Ledger.Step l x l')
    (hl : l.next? target = some outcome) (hpop : ∀ outcome, x ≠ .pop (.notify (.forward target) outcome))
    (hshuffle : x ≠ .shuffle) : l'.next? target = some outcome := by
  cases h with
  | add | wait => exact hl
  | shuffle => exact absurd rfl hshuffle
  | push | settle | tell =>
    rw [next?] at hl
    rw [next?, findSome?_append, hl]
    rfl
  | @pop task tasks cs =>
    rw [next?, findSome?_cons] at hl
    cases htask : task.forwarded? target with
    | none =>
      rw [htask] at hl
      exact hl
    | some outcome' =>
      rw [Task.forwarded?_eq_some.mp htask] at hpop
      exact absurd rfl (hpop outcome')

theorem Ledger.Path.next?_of_some {l l' : Ledger κ} (h : Ledger.Path l xs l')
    (hl : l.next? target = some outcome) (hpop : ∀ outcome, .pop (.notify (.forward target) outcome) ∉ xs)
    (hshuffle : .shuffle ∉ xs) : l'.next? target = some outcome := by
  induction h with
  | nil => exact hl
  | cons hstep _ ih =>
    refine ih (hstep.next?_of_some hl ?_ ?_) (fun o hmem => hpop o (mem_cons_of_mem _ hmem))
      fun hmem => hshuffle (mem_cons_of_mem _ hmem)
    · rintro o rfl
      exact hpop o mem_cons_self
    · rintro rfl
      exact hshuffle mem_cons_self

/-- The outcome of a continuation, or the one that it will be told first if tasks keep their order. -/
def Scene.front? (s : Scene κ ρ σ) (target : Nat) : Option Outcome :=
  (s.world.outcome? target).or (s.ledger.next? target)

theorem Scene.Idle.front? (h : s.Idle) (target : Nat) : s.front? target = s.world.outcome? target := by
  rw [Scene.front?, Ledger.next?, h.tasks, findSome?_nil, Option.or_none]

theorem Races.front?_step (h : Races s target items cs) (hs : Sound s) (hm : Moves client s m s')
    (hclient : ∀ outcome, m ≠ .called (.settle target outcome)) (hnested : m ≠ .took true)
    (hfront : s.front? target = some outcome) : s'.front? target = some outcome := by
  have he := hm.effect hs
  cases htarget : s.world.outcome? target with
  | some outcome' =>
    rw [Scene.front?, htarget] at hfront
    rw [Scene.front?, he.outcome?_of_some htarget]
    exact hfront
  | none =>
    rw [Scene.front?, htarget, Option.none_or] at hfront
    by_cases htold : ∃ outcome', m = .ran (.notify (.forward target) outcome')
    · -- it is told by the first task
      obtain ⟨outcome', rfl⟩ := htold
      have hnext : s.ledger.next? target = some outcome' := by
        cases hm with
        | ran =>
          show (_ :: _).findSome? _ = _
          rw [findSome?_cons, Task.forwarded?_eq_some.mpr rfl]
      rw [Scene.front?, hm.forwards h.exclusive.lt, htarget, ← hnext, hfront]
      rfl
    · obtain ⟨xs, hpath, hxs⟩ := he.path
      have hnext : s'.ledger.next? target = some outcome := by
        refine hpath.next?_of_some hfront (fun outcome' hmem => ?_) fun hmem => ?_
        · exact htold ((hxs _ hmem).concerns_forward h.exclusive.lt rfl)
        · exact hnested (hxs _ hmem)
      have hnone : s'.world.outcome? target = none :=
        (h.exclusive.outcome?_eq hs hm hclient fun outcome' hran => htold ⟨outcome', hran⟩).trans htarget
      rw [Scene.front?, hnone, hnext]
      rfl

theorem Races.outcome?_of_front?_none (h : Races s target items cs) (hfront : s.front? target = none)
    (hc : c ∈ cs) : s.world.outcome? c = none := by
  obtain ⟨htarget, hnext⟩ := Option.or_eq_none_iff.mp hfront
  cases h.located htarget c hc with
  | @waits waiting hk hmem =>
    show s.world.continuations[c]?.bind _ = none
    rw [show s.world.continuations[c]? = _ from hk]
    rfl
  | told hvalue hmem =>
    have hforwarded := findSome?_eq_none_iff.mp hnext _ hmem
    rw [Task.forwarded?_eq_some.mpr rfl] at hforwarded
    cases hforwarded

theorem Races.front?_mem (h : Races s target items cs) (hfront : s.front? target = some outcome) :
    ∃ c ∈ cs, s.world.outcome? c = some outcome := by
  rcases Option.or_eq_some_iff.mp hfront with hwon | ⟨-, hnext⟩
  · exact h.won hwon
  · obtain ⟨task, htask, hforwarded⟩ := exists_of_findSome?_eq_some hnext
    rw [Task.forwarded?_eq_some.mp hforwarded] at htask
    exact h.confined.told htask

theorem Settles.unique {d : Nat} {outcome' : Outcome} (h : Settles s m c outcome)
    (h' : Settles s m d outcome') (hc : c < s.world.continuations.length)
    (hd : d < s.world.continuations.length) : c = d := by
  cases h with
  | fresh hle => exact absurd hc (Nat.not_lt.mpr hle)
  | called =>
    cases h' with
    | called => rfl
    | fresh hle => exact absurd hd (Nat.not_lt.mpr hle)
  | slot hg =>
    cases h' with
    | slot hg' =>
      obtain rfl := Option.some.inj (hg.symm.trans hg')
      rfl
    | fresh hle => exact absurd hd (Nat.not_lt.mpr hle)
  | forward =>
    cases h' with
    | forward => rfl
    | fresh hle => exact absurd hd (Nat.not_lt.mpr hle)
  | ended hco =>
    cases h' with
    | ended hco' =>
      obtain rfl := Option.some.inj (hco.symm.trans hco')
      rfl
    | fresh hle => exact absurd hd (Nat.not_lt.mpr hle)

theorem Races.front?_first (h : Races s target items cs) (hs : Sound s) (hm : Moves client s m s')
    (hclient : ∀ outcome, m ≠ .called (.settle target outcome))
    (hnone : ∀ c ∈ cs, s.world.outcome? c = none) (hc : c ∈ cs)
    (hsome : s'.world.outcome? c = some outcome) : s'.front? target = some outcome := by
  have he := hm.effect hs
  have h' := h.step hs hm hclient
  have htarget : s.world.outcome? target = none := by
    cases htarget : s.world.outcome? target with
    | none => rfl
    | some outcome' =>
      obtain ⟨d, hd, houtcome⟩ := h.won htarget
      rw [hnone d hd] at houtcome
      cases houtcome
  cases hfront : s'.front? target with
  | none =>
    rw [h'.outcome?_of_front?_none hfront hc] at hsome
    cases hsome
  | some outcome' =>
    obtain ⟨d, hd, houtcome⟩ := h'.front?_mem hfront
    have hcd : c = d := by
      have hlt {e : Nat} (he : e ∈ cs) : e < s.world.continuations.length := (h.located htarget e he).lt
      exact (he.settles (hlt hc) (hnone c hc) hsome).unique
        (he.settles (hlt hd) (hnone d hd) houtcome) (hlt hc) (hlt hd)
    subst hcd
    exact houtcome.symm.trans hsome

end Motif.Async
