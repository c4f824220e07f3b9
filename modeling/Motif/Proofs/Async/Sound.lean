import Motif.Proofs.Async.Effect

/-!
# What is there in every scene of a run

Whatever a scene mentions is there, and what settles a continuation is known when the continuation is made:
a group, a race or a coroutine that comes later settles what is made with it.
-/

namespace Motif.Async

open List

variable {κ ρ σ : Type} {client : Client κ ρ σ} {s s' s'' : Scene κ ρ σ} {m : Move κ ρ}
  {moves : List (Move κ ρ)} {c : Nat} {outcome : Outcome} {callback : Callback κ} {w w' : World κ ρ σ}

/-! ## Lengths -/

theorem length_le_of_getElem? {α β : Type} {l : List α} {l' : List β}
    (h : ∀ (i : Nat) x, l[i]? = some x → ∃ y, l'[i]? = some y) : l.length ≤ l'.length := by
  rcases Nat.lt_or_ge l'.length l.length with hlt | hle
  · obtain ⟨y, hy⟩ := h _ _ (getElem?_eq_getElem hlt)
    exact absurd (lt_of_getElem? hy) (Nat.lt_irrefl _)
  · exact hle

theorem Effect.continuations_le (h : Effect s m s') :
    s.world.continuations.length ≤ s'.world.continuations.length := by
  obtain ⟨xs, hpath, -⟩ := h.path
  exact hpath.length_le

theorem Effect.groups_le (h : Effect s m s') : s.world.groups.length ≤ s'.world.groups.length := by
  refine length_le_of_getElem? fun group g hg => ?_
  obtain ⟨g', hg', -⟩ := h.group hg
  exact ⟨g', hg'⟩

theorem Effect.coroutines_le (h : Effect s m s') : s.world.coroutines.length ≤ s'.world.coroutines.length := by
  refine length_le_of_getElem? fun i c hc => ?_
  obtain ⟨state, hstate⟩ := h.coroutine hc
  exact ⟨_, hstate⟩

/-! ## Outcomes -/

theorem Effect.outcome?_of_some (h : Effect s m s') (hc : s.world.outcome? c = some outcome) :
    s'.world.outcome? c = some outcome := by
  obtain ⟨xs, hpath, -⟩ := h.path
  exact hpath.outcome?_of_some hc

theorem Effect.settles (h : Effect s m s') (hlt : c < s.world.continuations.length)
    (hnone : s.world.outcome? c = none) (hsome : s'.world.outcome? c = some outcome) :
    Settles s m c outcome := by
  obtain ⟨xs, hpath, hxs⟩ := h.path
  exact hxs _ (hpath.settle_mem hlt hnone hsome)

theorem Moves.mem_tasks {task : Task κ} (h : Moves client s (.ran task) s') : task ∈ s.ledger.tasks := by
  cases h with
  | ran => exact mem_cons_self

theorem Moves.mem_callbacks (h : Moves client s (.ran (.notify callback outcome)) s') :
    callback ∈ s.ledger.callbacks :=
  mem_append_left _ (mem_filterMap.mpr ⟨_, h.mem_tasks, rfl⟩)

theorem Moves.told (h : Moves client s (.ran (.notify callback outcome)) s') (hs : Sound s)
    (hdue : s.ledger.Due c callback) : s.world.outcome? c = some outcome ∧ s'.ledger.copies callback = 0 := by
  have hran : Ran s (.notify callback outcome) s' := by
    cases h with
    | ran => exact ran_task hs.inBounds _
  obtain ⟨l, xs, hpop, hpath, hxs⟩ := hran.pops
  obtain ⟨houtcome, hzero⟩ := hdue.pop hpop
  refine ⟨houtcome, (hpath.copies_eq fun x hx => ?_).trans hzero⟩
  obtain ⟨_, _, rfl⟩ := hxs x hx
  exact id

/-! ## Soundness -/

theorem Callback.Known.mono (h : callback.Known s.world) (he : Effect s m s') : callback.Known s'.world := by
  cases callback with
  | client => trivial
  | slot => exact Nat.lt_of_lt_of_le h he.groups_le
  | forward => exact Nat.lt_of_lt_of_le h he.continuations_le
  | resume => exact Nat.lt_of_lt_of_le h he.coroutines_le

theorem Callback.Fresh.known (h : callback.Fresh w w') : callback.Known w' := by
  cases callback with
  | client | resume => exact h.elim
  | slot | forward => exact h.2

theorem Work.Known.mono {x : Work κ ρ σ} (h : x.Known s.world) (he : Effect s m s') : x.Known s'.world := by
  cases x with
  | task => trivial
  | drive => exact Nat.lt_of_lt_of_le h he.coroutines_le
  | hand i sink v emits since =>
    obtain ⟨c, hc, hsink⟩ := h
    obtain ⟨state, hstate⟩ := he.coroutine hc
    exact ⟨_, hstate, hsink⟩
  | running i c input emits since =>
    obtain ⟨_, hc⟩ := h
    obtain ⟨state, hstate⟩ := he.coroutine hc
    exact ⟨state, hstate⟩

theorem Callback.Fresh.not_known (h : callback.Fresh w w') : ¬ callback.Known w := by
  cases callback with
  | client | resume => exact h.elim
  | slot | forward => exact Nat.not_lt.mpr h.1

/-- A callback for something that was there is concerned when it is told. Besides, client code may register
    its own, and coroutines wait when they suspend themselves. -/
theorem Permitted.concerns {x : Change κ} (h : Permitted s m s' x) (hx : x.Concerns callback)
    (hknown : callback.Known s.world) : (∃ outcome, m = .ran (.notify callback outcome)) ∨
      (∃ label, callback = .client label) ∨
      ∃ i request c, callback = .resume i ∧ m = .suspended i request c := by
  cases x with
  | push | add | settle | shuffle => exact hx.elim
  | register d callback' =>
    obtain rfl : callback' = callback := hx
    cases h with
    | client => exact .inr (.inl ⟨_, rfl⟩)
    | resume hm => exact .inr (.inr ⟨_, _, _, rfl, hm⟩)
    | fresh hfresh => exact absurd hknown hfresh.not_known
  | pop task =>
    obtain rfl : m = .ran task := h
    cases task with
    | client | start => cases hx
    | notify callback' outcome =>
      obtain rfl := Option.some.inj hx
      exact .inl ⟨outcome, rfl⟩

theorem Sound.work (hs : Sound s) {task : Task κ} (htask : task ∈ s.ledger.tasks) :
    ∀ x ∈ task.work, x.Known s.world := by
  intro x hx
  cases task with
  | client => cases hx
  | start i =>
    obtain rfl := mem_singleton.mp hx
    exact hs.starts i htask
  | notify callback outcome =>
    cases callback with
    | client | slot | forward => cases hx
    | resume i =>
      obtain rfl := mem_singleton.mp hx
      refine hs.callbacks (.resume i) (mem_append_left _ ?_)
      exact mem_filterMap.mpr ⟨_, htask, rfl⟩

theorem Sound.works_step (hs : Sound s) (h : Moves client s m s') : ∀ x ∈ s'.agenda, x.Known s'.world := by
  have he := h.effect hs
  have hold : ∀ x ∈ s.agenda, x.Known s'.world := fun x hx => (hs.works x hx).mono he
  cases h with
  | noted | called => exact hold
  | took =>
    refine forall_mem_append.mpr ⟨fun x hx => ?_, hold⟩
    obtain ⟨task, -, rfl⟩ := mem_map.mp hx
    trivial
  | ran task =>
    refine forall_mem_append.mpr ⟨fun x hx => ?_, (forall_mem_cons.mp hold).2⟩
    exact (hs.work mem_cons_self x hx).mono he
  | resumed hc => exact forall_mem_cons.mpr ⟨⟨_, hc⟩, (forall_mem_cons.mp hold).2⟩
  | suspended | stalled | missing | lost | ended => exact (forall_mem_cons.mp hold).2
  | emitted _ hsink =>
    obtain ⟨⟨_, hc⟩, hrest⟩ := forall_mem_cons.mp hold
    exact forall_mem_cons.mpr ⟨⟨_, hc, hsink⟩, hrest⟩
  | received =>
    obtain ⟨⟨_, hc, -⟩, hrest⟩ := forall_mem_cons.mp hold
    exact forall_mem_cons.mpr ⟨(lt_of_getElem? hc), hrest⟩

theorem Sound.ofEffect (hs : Sound s) (he : Effect s m s')
    (hresume : ∀ i request c, m = .suspended i request c → i < s.world.coroutines.length)
    (hworks : ∀ x ∈ s'.agenda, x.Known s'.world) : Sound s' := by
  obtain ⟨xs, hpath, hxs⟩ := he.path
  refine ⟨he.inBounds, ?_, ?_, hworks, ?_, ?_⟩
  · intro callback hmem
    rcases hpath.mem_callbacks hmem with hmem | ⟨c, hregister⟩
    · exact (hs.callbacks callback hmem).mono he
    · cases hxs _ hregister with
      | client => trivial
      | fresh hfresh => exact hfresh.known
      | resume hm => exact Nat.lt_of_lt_of_le (hresume _ _ _ hm) he.coroutines_le
  · intro i hi
    rcases hpath.mem_tasks rfl hi with hi | hpush
    · exact Nat.lt_of_lt_of_le (hs.starts i hi) he.coroutines_le
    · rcases hxs _ hpush with ⟨label, hlabel⟩ | ⟨hstart, hlt⟩
      · cases hlabel
      · cases hstart
        exact hlt
  · intro g hg
    obtain ⟨group, hg⟩ := mem_iff_getElem?.mp hg
    rcases Nat.lt_or_ge group s.world.groups.length with hlt | hle
    · obtain ⟨g', hg', htarget, -⟩ := he.group (getElem?_eq_getElem hlt)
      obtain rfl := Option.some.inj (hg.symm.trans hg')
      rw [htarget]
      exact Nat.lt_of_lt_of_le (hs.targets _ (getElem_mem hlt)) he.continuations_le
    · exact (he.newGroup hg hle).2
  · intro c hc
    obtain ⟨i, hi⟩ := mem_iff_getElem?.mp hc
    rcases Nat.lt_or_ge i s.world.coroutines.length with hlt | hle
    · obtain ⟨state, hstate⟩ := he.coroutine (getElem?_eq_getElem hlt)
      obtain rfl := Option.some.inj (hi.symm.trans hstate)
      have hdone := hs.dones _ (getElem_mem hlt)
      exact Nat.lt_of_lt_of_le hdone he.continuations_le
    · exact (he.newCoroutine hi hle).2

theorem Sound.step (hs : Sound s) (h : Moves client s m s') : Sound s' := by
  refine hs.ofEffect (h.effect hs) ?_ (hs.works_step h)
  rintro i request c rfl
  cases h with
  | suspended =>
    obtain ⟨_, hc⟩ := hs.works _ mem_cons_self
    exact lt_of_getElem? hc

theorem Sound.grown {a : List (Work κ ρ σ)} (hs : Sound ⟨a, w⟩) (h : Grown a w w') : Sound ⟨a, w'⟩ := by
  have he := h.effect (m := .noted)
  exact hs.ofEffect he (fun _ _ _ hm => nomatch hm) fun x hx => (hs.works x hx).mono he

theorem sound_start (batchSize : Nat) (own : σ) : Sound (Scene.start batchSize own : Scene κ ρ σ) where
  inBounds := WorkQueue.inBounds_empty
  callbacks := forall_mem_nil _
  starts _ h := by cases h
  works := forall_mem_nil _
  targets := forall_mem_nil _
  dones := forall_mem_nil _

theorem Run.sound (h : Run client s moves s') (hs : Sound s) : Sound s' := by
  induction h with
  | refl => exact hs
  | snoc _ hm ih => exact ih.step hm

theorem Run.outcome?_of_some (h : Run client s moves s') (hs : Sound s)
    (hc : s.world.outcome? c = some outcome) : s'.world.outcome? c = some outcome := by
  induction h with
  | refl => exact hc
  | snoc hrun hm ih => exact (hm.effect (hrun.sound hs)).outcome?_of_some ih

theorem Sound.settled_once (hs : Sound s) (hc : s.world.outcome? c = some outcome) :
    (∀ again, (settle c again).run s.world = (.error .alreadySettled, s.world)) ∧
      ∀ moves s', Run client s moves s' → s'.world.outcome? c = some outcome := by
  refine ⟨fun again => settle_of_settled (Option.isSome_of_eq_some hc) again, ?_⟩
  intro moves s' hrun
  exact hrun.outcome?_of_some hs hc

theorem Scene.Idle.tasks (h : s.Idle) : s.ledger.tasks = [] := by
  show s.agenda.filterMap Work.task? ++ s.world.queue.toList = []
  rw [h.1, WorkQueue.toList_eq_nil h.2]
  rfl

/-! ## Who settles a continuation -/

inductive Settler where
  | group (group : Nat)
  | race
  | coroutine (coroutine : Nat)

def Scene.SettledBy (s : Scene κ ρ σ) (c : Nat) : Settler → Prop
  | .group group => ∃ g, s.world.groups[group]? = some g ∧ g.target = c
  | .race => .forward c ∈ s.ledger.callbacks
  | .coroutine i => ∃ co, s.world.coroutines[i]? = some co ∧ co.done = c

structure Exclusive (s : Scene κ ρ σ) (c : Nat) (settler : Settler) : Prop where
  lt : c < s.world.continuations.length
  only : ∀ x, s.SettledBy c x → x = settler

theorem Sound.not_settledBy (hs : Sound s) (hle : s.world.continuations.length ≤ c) (x : Settler) :
    ¬ s.SettledBy c x := by
  cases x with
  | group group =>
    rintro ⟨g, hg, rfl⟩
    exact Nat.not_lt.mpr hle (hs.targets g (mem_of_getElem? hg))
  | race =>
    intro hmem
    exact Nat.not_lt.mpr hle (hs.callbacks _ hmem)
  | coroutine i =>
    rintro ⟨co, hco, rfl⟩
    exact Nat.not_lt.mpr hle (hs.dones co (mem_of_getElem? hco))

theorem Effect.settledBy (h : Effect s m s') (hlt : c < s.world.continuations.length) {x : Settler}
    (hx : s'.SettledBy c x) : s.SettledBy c x := by
  cases x with
  | group group =>
    obtain ⟨g', hg', rfl⟩ := hx
    rcases Nat.lt_or_ge group s.world.groups.length with hgroup | hgroup
    · obtain ⟨g'', hg'', htarget, -⟩ := h.group (getElem?_eq_getElem hgroup)
      obtain rfl := Option.some.inj (hg'.symm.trans hg'')
      exact ⟨_, getElem?_eq_getElem hgroup, htarget.symm⟩
    · exact absurd hlt (Nat.not_lt.mpr (h.newGroup hg' hgroup).1)
  | race =>
    obtain ⟨xs, hpath, hxs⟩ := h.path
    rcases hpath.mem_callbacks hx with hmem | ⟨d, hregister⟩
    · exact hmem
    · cases hxs _ hregister with
      | fresh hfresh => exact absurd hlt (Nat.not_lt.mpr hfresh.1)
  | coroutine i =>
    obtain ⟨co, hco, rfl⟩ := hx
    rcases Nat.lt_or_ge i s.world.coroutines.length with hi | hi
    · obtain ⟨state, hstate⟩ := h.coroutine (getElem?_eq_getElem hi)
      obtain rfl := Option.some.inj (hco.symm.trans hstate)
      exact ⟨_, getElem?_eq_getElem hi, rfl⟩
    · exact absurd hlt (Nat.not_lt.mpr (h.newCoroutine hco hi).1)

variable {settler : Settler}

theorem Exclusive.step (hx : Exclusive s c settler) (h : Effect s m s') : Exclusive s' c settler where
  lt := Nat.lt_of_lt_of_le hx.lt h.continuations_le
  only x hsettled := hx.only x (h.settledBy hx.lt hsettled)

def Settler.Acts (c : Nat) (outcome : Outcome) (m : Move κ ρ) : Settler → Prop
  | .group i => ∃ index outcome', m = .ran (.notify (.slot i index) outcome')
  | .race => m = .ran (.notify (.forward c) outcome)
  | .coroutine i => ∃ step, m = .ended i step outcome

theorem Exclusive.acts (hx : Exclusive s c settler) (hm : Moves client s m s') (h : Settles s m c outcome) :
    m = .called (.settle c outcome) ∨ settler.Acts c outcome m := by
  cases h with
  | called => exact .inl rfl
  | @slot group index g _ _ hg =>
    obtain rfl := hx.only (.group group) ⟨g, hg, rfl⟩
    exact .inr ⟨index, _, rfl⟩
  | forward =>
    obtain rfl := hx.only .race hm.mem_callbacks
    exact .inr rfl
  | @ended i step co _ hco =>
    obtain rfl := hx.only (.coroutine i) ⟨co, hco, rfl⟩
    exact .inr ⟨step, rfl⟩
  | fresh hle => exact absurd hx.lt (Nat.not_lt.mpr hle)

theorem Exclusive.outcome?_eq (hx : Exclusive s c settler) (hs : Sound s) (hm : Moves client s m s')
    (hclient : ∀ outcome, m ≠ .called (.settle c outcome)) (hacts : ∀ outcome, ¬ settler.Acts c outcome m) :
    s'.world.outcome? c = s.world.outcome? c := by
  obtain ⟨xs, hpath, hxs⟩ := (hm.effect hs).path
  apply hpath.outcome?_eq hx.lt
  intro outcome hmem
  rcases hx.acts hm (hxs _ hmem) with hcalled | hacts'
  · exact hclient outcome hcalled
  · exact hacts outcome hacts'

end Motif.Async
