import Motif.Proofs.Async.Growth

/-!
# What a move does

What each move may do to the ledger of a scene, to groups and to coroutines. All that is said of runs later
on follows from this.
-/

namespace Motif.Async

open List

variable {κ ρ σ : Type} {a : List (Work κ ρ σ)} {w w₀ w₁ w₂ : World κ ρ σ} {Q : Change κ → Prop}
  {w' : World κ ρ σ} {group index : Nat} {groups : List Group} {a' : List (Work κ ρ σ)} {g : Group}

/-! ## Groups -/

theorem fillSlot_of_missing (h : w.groups[group]? = none) (index : Nat) (outcome : Outcome) :
    (fillSlot group index outcome).run w = ((), w) := by
  simp only [fillSlot, StateT.run_bind, StateT.run_get, pure_bind, h]
  rfl

theorem fillSlot_error (h : w.groups[group]? = some g) (index : Nat) (e : Failure) :
    (fillSlot group index (.error e)).run w = ((), ((settle g.target (.error e)).run w).2) := by
  simp only [fillSlot, StateT.run_bind, StateT.run_get, pure_bind, h]
  rfl

theorem fillSlot_more (h : w.groups[group]? = some g) {v : Value} (hmore : (g.fill index v).remaining ≠ 0) :
    (fillSlot group index (.ok v)).run w =
      ((), { w with groups := w.groups.set group (g.fill index v) }) := by
  simp only [fillSlot, StateT.run_bind, StateT.run_get, pure_bind, h, if_neg hmore]
  rfl

theorem fillSlot_last (h : w.groups[group]? = some g) {v : Value} (hlast : (g.fill index v).remaining = 0) :
    (fillSlot group index (.ok v)).run w =
      ((), ((settle g.target (.ok (.array (g.fill index v).values))).run
        { w with groups := w.groups.set group { g.fill index v with slots := [] } }).2) := by
  simp only [fillSlot, StateT.run_bind, StateT.run_get, pure_bind, h, if_pos hlast]
  rfl

/-! ## Moves -/

inductive Settles (s : Scene κ ρ σ) : Move κ ρ → Nat → Outcome → Prop
  | called {c outcome} : Settles s (.called (.settle c outcome)) c outcome
  | slot {group index g outcome outcome'} (h : s.world.groups[group]? = some g) :
    Settles s (.ran (.notify (.slot group index) outcome')) g.target outcome
  | forward {c outcome} : Settles s (.ran (.notify (.forward c) outcome)) c outcome
  | ended {i step c outcome} (h : s.world.coroutines[i]? = some c) :
    Settles s (.ended i step outcome) c.done outcome
  | fresh {m c outcome} (h : s.world.continuations.length ≤ c) : Settles s m c outcome

inductive Registers (s : Scene κ ρ σ) (m : Move κ ρ) (s' : Scene κ ρ σ) : Nat → Callback κ → Prop
  | client {c label} : Registers s m s' c (.client label)
  | resume {i request c} (h : m = .suspended i request c) : Registers s m s' c (.resume i)
  | fresh {c callback} (h : callback.Fresh s.world s'.world) : Registers s m s' c callback

def Permitted (s : Scene κ ρ σ) (m : Move κ ρ) (s' : Scene κ ρ σ) : Change κ → Prop
  | .push task => (∃ label, task = .client label) ∨ task = .start s.world.coroutines.length ∧
      s.world.coroutines.length < s'.world.coroutines.length
  | .add _ => True
  | .settle c outcome => Settles s m c outcome
  | .register c callback => Registers s m s' c callback
  | .pop task => m = .ran task
  | .shuffle => m = .took true

structure Effect (s : Scene κ ρ σ) (m : Move κ ρ) (s' : Scene κ ρ σ) : Prop where
  path : ∃ xs, Ledger.Path s.ledger xs s'.ledger ∧ ∀ x ∈ xs, Permitted s m s' x
  inBounds : s'.world.queue.InBounds
  /-- A group keeps its target, and is changed only by a value for one of its places. -/
  group : ∀ {group g}, s.world.groups[group]? = some g → ∃ g', s'.world.groups[group]? = some g' ∧
    g'.target = g.target ∧ (g' = g ∨ ∃ index v, m = .ran (.notify (.slot group index) (.ok v)))
  newGroup : ∀ {group g}, s'.world.groups[group]? = some g → s.world.groups.length ≤ group →
    s.world.continuations.length ≤ g.target ∧ g.target < s'.world.continuations.length
  coroutine : ∀ {i : Nat} {c : Coroutine κ ρ}, s.world.coroutines[i]? = some c →
    ∃ state, s'.world.coroutines[i]? = some { c with state }
  newCoroutine : ∀ {i c}, s'.world.coroutines[i]? = some c → s.world.coroutines.length ≤ i →
    s.world.continuations.length ≤ c.done ∧ c.done < s'.world.continuations.length

def Callback.Known (w : World κ ρ σ) : Callback κ → Prop
  | .client _ => True
  | .slot group _ => group < w.groups.length
  | .forward target => target < w.continuations.length
  | .resume coroutine => coroutine < w.coroutines.length

/-- The coroutine that there is something to do for is there, as it was when it was resumed but for its
    state. -/
def Work.Known (w : World κ ρ σ) : Work κ ρ σ → Prop
  | .task _ => True
  | .drive i _ _ => i < w.coroutines.length
  | .running i c _ _ _ => ∃ state, w.coroutines[i]? = some { c with state }
  | .hand i sink _ _ _ => ∃ c, w.coroutines[i]? = some c ∧ c.sink = some sink

structure Sound (s : Scene κ ρ σ) : Prop where
  inBounds : s.world.queue.InBounds
  callbacks : ∀ callback ∈ s.ledger.callbacks, callback.Known s.world
  starts : ∀ i, .start i ∈ s.ledger.tasks → i < s.world.coroutines.length
  works : ∀ x ∈ s.agenda, x.Known s.world
  targets : ∀ g ∈ s.world.groups, g.target < s.world.continuations.length
  dones : ∀ c ∈ s.world.coroutines, c.done < s.world.continuations.length

variable {client : Client κ ρ σ} {s s' : Scene κ ρ σ} {m : Move κ ρ}

/-- A scene that differs from another one in what is being done and in the states of coroutines only. -/
structure Alike (s s' : Scene κ ρ σ) : Prop where
  ledger : s'.ledger = s.ledger
  queue : s'.world.queue = s.world.queue
  groups : s'.world.groups = s.world.groups
  length : s'.world.coroutines.length = s.world.coroutines.length
  coroutine : ∀ {i : Nat} {c : Coroutine κ ρ}, s.world.coroutines[i]? = some c →
    ∃ state, s'.world.coroutines[i]? = some { c with state }

theorem alike_of_world (h : a'.filterMap Work.task? = a.filterMap Work.task?) (own : σ) (completed : Nat) :
    Alike ⟨a, w⟩ ⟨a', { w with own, completed }⟩ where
  ledger := by simp only [Scene.ledger, h]
  queue := rfl
  groups := rfl
  length := rfl
  coroutine hc := ⟨_, hc⟩

theorem alike_setState (h : a'.filterMap Work.task? = a.filterMap Work.task?) (i : Nat) (state : ρ) :
    Alike ⟨a, w⟩ ⟨a', ((setState i state).run w).2⟩ where
  ledger := by simp only [Scene.ledger, run_setState, h]
  queue := rfl
  groups := rfl
  length := length_modify _ _ _
  coroutine {j c} hc := by
    rw [run_setState]
    by_cases hij : i = j
    · subst hij
      exact ⟨state, by simp [hc]⟩
    · exact ⟨c.state, by simp [hc, hij]⟩

theorem Alike.effect (h : Alike s s') (hbounds : s.world.queue.InBounds) : Effect s m s' where
  path := ⟨[], h.ledger ▸ .nil _, forall_mem_nil _⟩
  inBounds := h.queue ▸ hbounds
  group hg := ⟨_, h.groups ▸ hg, rfl, .inl rfl⟩
  newGroup hg hle := by
    rw [h.groups] at hg
    exact absurd (lt_of_getElem? hg) (Nat.not_lt.mpr hle)
  coroutine := h.coroutine
  newCoroutine hc hle := by
    have hlt := lt_of_getElem? hc
    exact absurd (h.length ▸ hlt) (Nat.not_lt.mpr hle)

theorem Effect.alike {s₁ : Scene κ ρ σ} (h : Effect s₁ m s') (halike : Alike s s₁) : Effect s m s' := by
  have hcontinuations : s₁.world.continuations = s.world.continuations :=
    congrArg Ledger.continuations halike.ledger
  obtain ⟨xs, hpath, hxs⟩ := h.path
  refine ⟨⟨xs, halike.ledger ▸ hpath, fun x hx => ?_⟩, h.inBounds, ?_, ?_, ?_, ?_⟩
  · have hx := hxs x hx
    cases x with
    | add | pop | shuffle => exact hx
    | push task =>
      rcases hx with hx | hx
      · exact .inl hx
      · exact .inr (halike.length ▸ hx)
    | settle c outcome =>
      cases hx with
      | called => exact .called
      | slot hg => exact .slot (halike.groups ▸ hg)
      | forward => exact .forward
      | fresh hle => exact .fresh (hcontinuations ▸ hle)
      | @ended i step c₁ _ hc =>
        -- the coroutine was there before
        have hlt : i < s.world.coroutines.length := halike.length ▸ lt_of_getElem? hc
        obtain ⟨state, hstate⟩ := halike.coroutine (getElem?_eq_getElem hlt)
        obtain rfl := Option.some.inj (hc.symm.trans hstate)
        exact .ended (c := s.world.coroutines[i]) (getElem?_eq_getElem hlt)
    | register c callback =>
      cases hx with
      | client => exact .client
      | resume hm => exact .resume hm
      | fresh hfresh =>
        refine .fresh ?_
        cases callback with
        | client | resume => exact hfresh
        | slot =>
          rw [Callback.Fresh, ← halike.groups]
          exact hfresh
        | forward =>
          rw [Callback.Fresh, ← hcontinuations]
          exact hfresh
  · intro group g hg
    exact h.group (halike.groups.symm ▸ hg)
  · intro group g hg hle
    rw [← hcontinuations]
    exact h.newGroup hg (halike.groups.symm ▸ hle)
  · intro i c hc
    obtain ⟨state, hstate⟩ := halike.coroutine hc
    obtain ⟨state', hstate'⟩ := h.coroutine hstate
    exact ⟨state', hstate'⟩
  · intro i c hc hle
    rw [← hcontinuations]
    exact h.newCoroutine hc (halike.length.symm ▸ hle)

theorem Effect.ofTouches (h : Touches a Q w w') (hQ : ∀ x, Q x → Permitted ⟨a, w⟩ m ⟨a, w'⟩ x) :
    Effect ⟨a, w⟩ m ⟨a, w'⟩ := by
  obtain ⟨xs, hpath, hxs⟩ := h.path
  refine ⟨⟨xs, hpath, fun x hx => hQ x (hxs x hx)⟩, h.inBounds, ?_, ?_, ?_, ?_⟩
  · intro group g hg
    exact ⟨g, h.groups ▸ hg, rfl, .inl rfl⟩
  · intro group g hg hle
    rw [h.groups] at hg
    exact absurd (lt_of_getElem? hg) (Nat.not_lt.mpr hle)
  · intro i c hc
    exact ⟨c.state, h.coroutines ▸ hc⟩
  · intro i c hc hle
    rw [h.coroutines] at hc
    exact absurd (lt_of_getElem? hc) (Nat.not_lt.mpr hle)

theorem Permitted.ofFresh {x : Change κ} (h : x.Fresh s.world s'.world) : Permitted s m s' x := by
  cases x with
  | add => trivial
  | push | pop | shuffle => exact h.elim
  | settle => exact .fresh h
  | register => exact .fresh h

theorem Effect.ofGrown (h : Grown a w w₁) (ht : Touches a Q w₁ w')
    (hQ : ∀ x, Q x → Permitted ⟨a, w⟩ m ⟨a, w'⟩ x) : Effect ⟨a, w⟩ m ⟨a, w'⟩ := by
  obtain ⟨xs, hpath, hxs⟩ := h.path
  obtain ⟨ys, hpath', hys⟩ := ht.path
  obtain ⟨more, hmore, htargets⟩ := h.groups
  refine ⟨⟨xs ++ ys, hpath.append hpath', ?_⟩, ht.inBounds, ?_, ?_, ?_, ?_⟩
  · refine forall_mem_append.mpr ⟨fun x hx => ?_, fun x hx => hQ x (hys x hx)⟩
    exact .ofFresh ((hxs x hx).mono ht.length_le (Nat.le_of_eq (by rw [ht.groups])))
  · intro group g hg
    refine ⟨g, ?_, rfl, .inl rfl⟩
    show w'.groups[group]? = some g
    rw [ht.groups, hmore, getElem?_append_left (lt_of_getElem? hg)]
    exact hg
  · intro group g hg hle
    have hg' : w'.groups[group]? = some g := hg
    rw [ht.groups, hmore, getElem?_append_right hle] at hg'
    obtain ⟨hlow, hhigh⟩ := htargets g (mem_of_getElem? hg')
    exact ⟨hlow, Nat.lt_of_lt_of_le hhigh ht.length_le⟩
  · intro i c hc
    refine ⟨c.state, ?_⟩
    show w'.coroutines[i]? = some c
    rw [ht.coroutines, h.coroutines]
    exact hc
  · intro i c hc hle
    have hc' : w'.coroutines[i]? = some c := hc
    rw [ht.coroutines, h.coroutines] at hc'
    exact absurd (lt_of_getElem? hc') (Nat.not_lt.mpr hle)

theorem Grown.effect (h : Grown a w w') : Effect ⟨a, w⟩ m ⟨a, w'⟩ :=
  .ofGrown h (.refl (Q := fun _ => False) h.inBounds) fun _ => False.elim

theorem run_spawn (state : ρ) (sink : Option κ) (w : World κ ρ σ) :
    (spawn state sink).run w = (w.continuations.length, { w with
      continuations := w.continuations ++ [{}]
      coroutines := w.coroutines ++ [{ state, sink, done := w.continuations.length }]
      queue := w.queue.push (.start w.coroutines.length) }) := rfl

theorem steps_spawn (h : w.queue.InBounds) (state : ρ) (sink : Option κ) :
    ∃ l, Ledger.Step (Scene.ledger ⟨a, w⟩) (.add none) l ∧
      Ledger.Step l (.push (.start w.coroutines.length))
        (Scene.ledger ⟨a, ((spawn state sink).run w).2⟩) := by
  refine ⟨_, .add, ?_⟩
  simp only [run_spawn, Scene.ledger, WorkQueue.toList_push h, ← append_assoc]
  exact .push rfl

theorem effect_spawn (h : w.queue.InBounds) (state : ρ) (sink : Option κ) :
    Effect ⟨a, w⟩ (.called (.spawn state sink)) ⟨a, ((spawn state sink).run w).2⟩ := by
  obtain ⟨l, hadd, hpush⟩ := steps_spawn (a := a) h state sink
  refine ⟨⟨_, .cons hadd hpush.path, ?_⟩, h.push _, ?_, ?_, ?_, ?_⟩
  · refine forall_mem_cons.mpr ⟨trivial, forall_mem_singleton.mpr (.inr ⟨rfl, ?_⟩)⟩
    simp [run_spawn]
  · intro group g hg
    exact ⟨g, hg, rfl, .inl rfl⟩
  · intro group g hg hle
    exact absurd (lt_of_getElem? hg) (Nat.not_lt.mpr hle)
  · intro i c hc
    refine ⟨c.state, ?_⟩
    show (w.coroutines ++ _)[i]? = some c
    rw [getElem?_append_left (lt_of_getElem? hc)]
    exact hc
  · intro i c hc hle
    rcases getElem?_concat_eq_some hc with hold | ⟨-, rfl⟩
    · exact absurd (lt_of_getElem? hold) (Nat.not_lt.mpr hle)
    · simp [run_spawn]

theorem effect_called (h : w.queue.InBounds) (call : Call κ ρ) :
    Effect ⟨a, w⟩ (.called call) ⟨a, (call.perform.run w).2⟩ := by
  cases call with
  | create => exact .ofTouches (touches_addContinuation h none) (by rintro x rfl; trivial)
  | resolved v => exact .ofTouches (touches_addContinuation h (some (.ok v))) (by rintro x rfl; trivial)
  | settle c outcome => exact .ofTouches (touches_settle h c outcome) (by rintro x rfl; exact .called)
  | register c label =>
    exact .ofTouches (touches_onSettled h c (.client label)) (by rintro x rfl; exact .client)
  | enqueue label => exact .ofTouches (touches_enqueue h rfl) (by rintro x rfl; exact .inl ⟨label, rfl⟩)
  | await request =>
    have hgrown : Grown a w (request.resolve.run w).2 := grown_resolve h request
    exact hgrown.effect
  | spawn state sink => exact effect_spawn h state sink

theorem ledger_takeBatch (a : List (Work κ ρ σ)) (w : World κ ρ σ) :
    Scene.ledger ⟨(takeBatch.run w).1.map .task ++ a, (takeBatch.run w).2⟩ =
      ⟨(w.queue.drain w.batchSize).1 ++ a.filterMap Work.task? ++ (w.queue.drain w.batchSize).2.toList,
        w.continuations⟩ := by
  have hbatch (batch : List (Task κ)) :
      (batch.map (Work.task (ρ := ρ) (σ := σ))).filterMap Work.task? = batch := by
    rw [filterMap_map]
    exact filterMap_some
  show Ledger.mk ((List.map Work.task (w.queue.drain w.batchSize).1 ++ a).filterMap Work.task? ++ _) _ = _
  rw [filterMap_append, hbatch]
  rfl

theorem effect_took (h : w.queue.InBounds) : Effect ⟨a, w⟩ (.took !a.isEmpty)
    ⟨(takeBatch.run w).1.map .task ++ a, (takeBatch.run w).2⟩ := by
  have hdrain := WorkQueue.drain_append h w.batchSize
  refine ⟨?_, h.drain _, fun hg => ⟨_, hg, rfl, .inl rfl⟩, ?_, fun hc => ⟨_, hc⟩, ?_⟩
  · rw [ledger_takeBatch]
    cases a with
    | nil =>
      refine ⟨[], ?_, forall_mem_nil _⟩
      rw [filterMap_nil, append_nil, hdrain]
      exact .nil _
    | cons item rest =>
      refine ⟨[.shuffle], Ledger.Step.path (.shuffle ?_), forall_mem_singleton.mpr rfl⟩
      rw [← hdrain, append_assoc]
      exact perm_append_comm_assoc _ _ _
  · intro group g hg hle
    exact absurd (lt_of_getElem? hg) (Nat.not_lt.mpr hle)
  · intro i c hc hle
    exact absurd (lt_of_getElem? hc) (Nat.not_lt.mpr hle)

/-- What a move does by which a task is run: the task is taken up, and what else it does to the ledger is to
    settle continuations. -/
structure Ran (s : Scene κ ρ σ) (task : Task κ) (s' : Scene κ ρ σ) : Prop extends
    Effect s (.ran task) s' where
  pops : ∃ l xs, Ledger.Step s.ledger (.pop task) l ∧ Ledger.Path l xs s'.ledger ∧
    ∀ x ∈ xs, ∃ c outcome, x = .settle c outcome

theorem ran_of {task : Task κ} (hlength : groups.length = w.groups.length)
    (hgroups : ∀ {group g}, w.groups[group]? = some g → ∃ g', groups[group]? = some g' ∧
      g'.target = g.target ∧ (g' = g ∨ ∃ index v, task = .notify (.slot group index) (.ok v)))
    (h : Touches (task.work ++ a) Q { w with groups } w')
    (hQ : ∀ x, Q x → ∃ c outcome, x = .settle c outcome ∧
      Settles ⟨.task task :: a, w⟩ (.ran task) c outcome) :
    Ran ⟨.task task :: a, w⟩ task ⟨task.work ++ a, w'⟩ := by
  obtain ⟨xs, hpath, hxs⟩ := h.path
  have hpop : Ledger.Step (Scene.ledger ⟨.task task :: a, w⟩) (.pop task)
      (Scene.ledger ⟨task.work ++ a, { w with groups }⟩) := by
    have hwork : (task.work ++ a).filterMap Work.task? = a.filterMap Work.task? := by
      cases task with
      | client | start => rfl
      | notify callback outcome => cases callback <;> rfl
    simp only [Scene.ledger, hwork]
    exact .pop
  refine ⟨⟨⟨.pop task :: xs, .cons hpop hpath, ?_⟩, h.inBounds, ?_, ?_, ?_, ?_⟩, _, xs, hpop, hpath, ?_⟩
  · refine forall_mem_cons.mpr ⟨rfl, fun x hx => ?_⟩
    obtain ⟨c, outcome, rfl, hsettles⟩ := hQ x (hxs x hx)
    exact hsettles
  · intro group g hg
    obtain ⟨g', hg', htarget, hsame⟩ := hgroups hg
    refine ⟨g', h.groups ▸ hg', htarget, hsame.imp_right ?_⟩
    rintro ⟨index, v, rfl⟩
    exact ⟨index, v, rfl⟩
  · intro group g hg hle
    rw [h.groups] at hg
    exact absurd (lt_of_getElem? hg) (Nat.not_lt.mpr (hlength ▸ hle))
  · intro i c hc
    exact ⟨c.state, h.coroutines ▸ hc⟩
  · intro i c hc hle
    rw [h.coroutines] at hc
    exact absurd (lt_of_getElem? hc) (Nat.not_lt.mpr hle)
  · intro x hx
    obtain ⟨c, outcome, hsettle, -⟩ := hQ x (hxs x hx)
    exact ⟨c, outcome, hsettle⟩

theorem groups_kept (task : Task κ) (hg : groups[group]? = some g) :
    ∃ g', groups[group]? = some g' ∧ g'.target = g.target ∧
      (g' = g ∨ ∃ index v, task = .notify (.slot group index) (.ok v)) :=
  ⟨g, hg, rfl, .inl rfl⟩

theorem groups_filled {v : Value} {filled : Group} (hg : groups[group]? = some g)
    (htarget : filled.target = g.target) {group' : Nat} {g' : Group} (hg' : groups[group']? = some g') :
    ∃ g'', (groups.set group filled)[group']? = some g'' ∧
      g''.target = g'.target ∧ (g'' = g' ∨ ∃ index' v',
        Task.notify (.slot group index) (.ok v) = (.notify (.slot group' index') (.ok v') : Task κ)) := by
  by_cases hne : group = group'
  · subst hne
    obtain rfl := Option.some.inj (hg.symm.trans hg')
    refine ⟨filled, ?_, htarget, .inr ⟨index, v, rfl⟩⟩
    rw [getElem?_set_self (lt_of_getElem? hg)]
  · refine ⟨g', ?_, rfl, .inl rfl⟩
    rw [getElem?_set_ne hne]
    exact hg'

theorem ran_slot (h : w.queue.InBounds) (group index : Nat) (outcome : Outcome) :
    Ran ⟨.task (.notify (.slot group index) outcome) :: a, w⟩ (.notify (.slot group index) outcome)
      ⟨a, ((fillSlot group index outcome).run w).2⟩ := by
  cases hg : w.groups[group]? with
  | none =>
    rw [fillSlot_of_missing hg]
    exact ran_of rfl (groups_kept _) (.refl (Q := fun _ => False) h) fun _ => False.elim
  | some g =>
    cases outcome with
    | error e =>
      rw [fillSlot_error hg]
      refine ran_of rfl (groups_kept _) (touches_settle h g.target (.error e)) ?_
      rintro x rfl
      exact ⟨_, _, rfl, .slot hg⟩
    | ok v =>
      by_cases hlast : (g.fill index v).remaining = 0
      · rw [fillSlot_last hg hlast]
        have htouches := touches_settle (a := a) (w := { w with
          groups := w.groups.set group { g.fill index v with slots := [] } }) h g.target
          (.ok (.array (g.fill index v).values))
        refine ran_of (length_set ..) (groups_filled hg (by rfl)) htouches ?_
        rintro x rfl
        exact ⟨_, _, rfl, .slot hg⟩
      · rw [fillSlot_more hg hlast]
        have htouches : Touches a (fun _ => False) { w with
            groups := w.groups.set group (g.fill index v) } _ := .refl h
        exact ran_of (length_set ..) (groups_filled hg (by rfl)) htouches fun _ => False.elim

theorem ran_task (h : w.queue.InBounds) (task : Task κ) :
    Ran ⟨.task task :: a, w⟩ task ⟨task.work ++ a, (task.effect.run w).2⟩ := by
  have hnothing : Ran ⟨.task task :: a, w⟩ task ⟨task.work ++ a, w⟩ :=
    ran_of rfl (groups_kept _) (.refl (Q := fun _ => False) h) fun _ => False.elim
  cases task with
  | client | start => exact hnothing
  | notify callback outcome =>
    cases callback with
    | client | resume => exact hnothing
    | slot group index => exact ran_slot h group index outcome
    | forward target =>
      refine ran_of rfl (groups_kept _) (touches_settle h target outcome) ?_
      rintro x rfl
      exact ⟨_, _, rfl, .forward⟩

theorem Answers.alike {i : Nat} {c : Coroutine κ ρ} {input : Outcome} {since : World κ ρ σ} {step : Step}
    (h : Answers client i c input since w step w') (emits : Nat) (a : List (Work κ ρ σ)) :
    Alike ⟨.running i c input emits since :: a, w⟩ ⟨a, w'⟩ := by
  obtain ⟨_, state, -, rfl⟩ := h
  exact alike_setState (by rfl) i state

theorem Moves.effect (h : Moves client s m s') (hs : Sound s) : Effect s m s' := by
  have hbounds := hs.inBounds
  cases h with
  | noted own completed => exact (alike_of_world (by rfl) own completed).effect hbounds
  | called call => exact effect_called hbounds call
  | took => exact effect_took hbounds
  | ran task => exact (ran_task hbounds task).toEffect
  | @resumed a w | @received a w | @stalled a w | @missing a w =>
    exact (alike_of_world (by rfl) w.own w.completed).effect hbounds
  | emitted hanswers =>
    obtain ⟨_, state, -, rfl⟩ := hanswers
    exact (alike_setState (by rfl) _ state).effect hbounds
  | @suspended a w i c input emits since request w' hanswers hc =>
    have halike := hanswers.alike emits a
    have hgrown := grown_resolve (a := a) (halike.queue.symm ▸ hbounds) request
    refine Effect.alike ?_ halike
    refine .ofGrown hgrown (touches_onSettled hgrown.inBounds _ (.resume i)) ?_
    rintro x rfl
    exact .resume rfl
  | @lost a w i c input emits since request w' hanswers hc =>
    have halike := hanswers.alike emits a
    have hgrown := grown_resolve (a := a) (halike.queue.symm ▸ hbounds) request
    -- there is nobody to wait for
    have hsame : ((waitFor request i).run w').2 = (request.resolve.run w').2 :=
      congrArg Prod.snd (onSettled_of_missing (getElem?_eq_none hc) (.resume i))
    rw [hsame]
    exact hgrown.effect.alike halike
  | @ended a w i c input emits since step outcome w' hanswers hresult =>
    have halike := hanswers.alike emits a
    refine Effect.alike ?_ halike
    refine .ofTouches (touches_settle (halike.queue.symm ▸ hbounds) c.done outcome) ?_
    rintro x rfl
    obtain ⟨_, hc⟩ := hs.works _ mem_cons_self
    obtain ⟨_, hc'⟩ := halike.coroutine hc
    have hsettles : Settles ⟨a, w'⟩ (.ended i step outcome) _ outcome := .ended hc'
    exact hsettles

end Motif.Async
