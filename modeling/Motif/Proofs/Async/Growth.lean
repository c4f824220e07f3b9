import Motif.Proofs.Async.Ledger
import Motif.Proofs.Async.Run

/-!
# What awaiting adds

The ledger of a scene, and how the scheduler's own operations change it. Awaiting adds continuations and
groups and has them wait for each other and for what was there; it changes nothing else.
-/

namespace Motif.Async

open List

variable {κ ρ σ : Type}

def Work.task? : Work κ ρ σ → Option (Task κ)
  | .task t => some t
  | _ => none

/-- The tasks of a scene, those of the batches that are being run first, and its continuations. -/
def Scene.ledger (s : Scene κ ρ σ) : Ledger κ :=
  ⟨s.agenda.filterMap Work.task? ++ s.world.queue.toList, s.world.continuations⟩

variable {a : List (Work κ ρ σ)} {w w₀ w₁ w₂ : World κ ρ σ}

/-! ## Small changes -/

theorem getElem?_concat_eq_some {α : Type} {l : List α} {x y : α} {i : Nat} (h : (l ++ [x])[i]? = some y) :
    l[i]? = some y ∨ (i = l.length ∧ x = y) := by
  have hlt := lt_of_getElem? h
  rw [length_append, length_singleton] at hlt
  rcases Nat.lt_or_eq_of_le (Nat.le_of_lt_succ hlt) with hlt | rfl
  · rw [getElem?_append_left hlt] at h
    exact .inl h
  · rw [getElem?_concat_length] at h
    exact .inr ⟨rfl, Option.some.inj h⟩

theorem run_enqueue (task : Task κ) (w : World κ ρ σ) :
    (enqueue task).run w = ((), { w with queue := w.queue.push task }) :=
  rfl

theorem run_newContinuation (w : World κ ρ σ) :
    newContinuation.run w = (w.continuations.length, { w with continuations := w.continuations ++ [{}] }) :=
  rfl

theorem lt_newContinuation (w : World κ ρ σ) :
    w.continuations.length < (newContinuation.run w).2.continuations.length := by
  simp [run_newContinuation]

theorem outcome?_newContinuation (w : World κ ρ σ) :
    (newContinuation.run w).2.outcome? w.continuations.length = none := by
  simp [run_newContinuation, World.outcome?]

theorem run_newGroup (target size : Nat) (w : World κ ρ σ) :
    (newGroup target size).run w = (w.groups.length, { w with
      groups := w.groups ++ [{ target, slots := List.replicate size none, remaining := size }] }) :=
  rfl

theorem run_setState (i : Nat) (state : ρ) (w : World κ ρ σ) : (setState i state).run w =
      ((), { w with coroutines := w.coroutines.modify i fun c => { c with state } }) :=
  rfl

/-- A world that differs from another one by some changes to the ledger. -/
structure Touches (a : List (Work κ ρ σ)) (Q : Change κ → Prop) (w w' : World κ ρ σ) : Prop where
  path : ∃ xs, Ledger.Path (Scene.ledger ⟨a, w⟩) xs (Scene.ledger ⟨a, w'⟩) ∧ ∀ x ∈ xs, Q x
  inBounds : w'.queue.InBounds
  groups : w'.groups = w.groups
  coroutines : w'.coroutines = w.coroutines

variable {Q : Change κ → Prop}

theorem Touches.refl (h : w.queue.InBounds) : Touches a Q w w := ⟨⟨[], .nil _, forall_mem_nil _⟩, h, rfl, rfl⟩

theorem Touches.ofStep {x : Change κ} (hx : Q x)
    (h : Ledger.Step (Scene.ledger ⟨a, w⟩) x (Scene.ledger ⟨a, w₁⟩)) (hbounds : w₁.queue.InBounds)
    (hgroups : w₁.groups = w.groups) (hcoroutines : w₁.coroutines = w.coroutines) : Touches a Q w w₁ :=
  ⟨⟨[x], h.path, forall_mem_singleton.mpr hx⟩, hbounds, hgroups, hcoroutines⟩

theorem touches_enqueue (h : w.queue.InBounds) {task : Task κ} (htask : task.callback? = none) :
    Touches a (· = .push task) w ((enqueue task).run w).2 := by
  refine .ofStep rfl ?_ (h.push task) rfl rfl
  simp only [Scene.ledger, run_enqueue, WorkQueue.toList_push h, ← append_assoc]
  exact .push htask

theorem touches_addContinuation (h : w.queue.InBounds) (outcome : Option Outcome) :
    Touches a (· = .add outcome) w ((addContinuation { outcome }).run w).2 :=
  .ofStep rfl .add h rfl rfl

theorem touches_settle (h : w.queue.InBounds) (c : Nat) (outcome : Outcome) :
    Touches a (· = .settle c outcome) w ((settle c outcome).run w).2 := by
  obtain hc | ⟨waiting, hc⟩ | ⟨_, hc⟩ := w.continuation_cases c
  · rw [settle_of_missing hc]
    exact .refl h
  · rw [settle_of_waiting hc]
    refine .ofStep rfl ?_ (h.pushAll _) rfl rfl
    simp only [Scene.ledger, WorkQueue.toList_pushAll h, ← append_assoc]
    exact .settle hc
  · rw [settle_of_settled (Option.isSome_of_eq_some hc)]
    exact .refl h

theorem outcome?_settle {c : Nat} (hlt : c < w.continuations.length) (outcome : Outcome) :
    ((settle c outcome).run w).2.outcome? c = (w.outcome? c).or (some outcome) := by
  obtain hc | ⟨waiting, hc⟩ | ⟨outcome', hc⟩ := w.continuation_cases c
  · rw [getElem?_eq_getElem hlt] at hc
    cases hc
  · rw [settle_of_waiting hc]
    simp [World.outcome?, Ledger.getElem?_set_waiting hc, hc]
  · rw [settle_of_settled (Option.isSome_of_eq_some hc)]
    show w.outcome? c = _
    rw [hc]
    rfl

theorem step_onSettled (h : w.queue.InBounds) {c : Nat} (hlt : c < w.continuations.length)
    (callback : Callback κ) : Ledger.Step (Scene.ledger ⟨a, w⟩) (.register c callback)
      (Scene.ledger ⟨a, ((onSettled c callback).run w).2⟩) := by
  obtain hc | ⟨waiting, hc⟩ | ⟨_, hc⟩ := w.continuation_cases c
  · rw [getElem?_eq_getElem hlt] at hc
    cases hc
  · rw [onSettled_of_waiting hc]
    exact .wait hc
  · rw [onSettled_of_settled hc]
    simp only [Scene.ledger, WorkQueue.toList_push h, ← append_assoc]
    exact .tell hc

theorem touches_onSettled (h : w.queue.InBounds) (c : Nat) (callback : Callback κ) :
    Touches a (· = .register c callback) w ((onSettled c callback).run w).2 := by
  obtain hc | ⟨waiting, hc⟩ | ⟨_, hc⟩ := w.continuation_cases c
  · rw [onSettled_of_missing hc]
    exact .refl h
  · have hstep := step_onSettled (a := a) h (lt_of_getElem? hc) callback
    rw [onSettled_of_waiting hc] at hstep ⊢
    exact .ofStep rfl hstep h rfl rfl
  · obtain ⟨_, hk, -⟩ := Option.bind_eq_some_iff.mp hc
    have hstep := step_onSettled (a := a) h (lt_of_getElem? hk) callback
    rw [onSettled_of_settled hc] at hstep ⊢
    exact .ofStep rfl hstep (h.push _) rfl rfl

/-! ## Awaiting -/

def Callback.Fresh (w w' : World κ ρ σ) : Callback κ → Prop
  | .slot group _ => w.groups.length ≤ group ∧ group < w'.groups.length
  | .forward target => w.continuations.length ≤ target ∧ target < w'.continuations.length
  | _ => False

/-- A change that concerns nothing that was there before, but that others wait for it. -/
def Change.Fresh (w w' : World κ ρ σ) : Change κ → Prop
  | .add _ => True
  | .settle c _ => w.continuations.length ≤ c
  | .register _ callback => callback.Fresh w w'
  | _ => False

/-- A world that has grown: what was there is as it was, but that others wait for it. -/
structure Grown (a : List (Work κ ρ σ)) (w w' : World κ ρ σ) : Prop where
  path : ∃ xs, Ledger.Path (Scene.ledger ⟨a, w⟩) xs (Scene.ledger ⟨a, w'⟩) ∧ ∀ x ∈ xs, x.Fresh w w'
  inBounds : w'.queue.InBounds
  groups : ∃ more, w'.groups = w.groups ++ more ∧
    ∀ g ∈ more, w.continuations.length ≤ g.target ∧ g.target < w'.continuations.length
  coroutines : w'.coroutines = w.coroutines

theorem Touches.length_le (h : Touches a Q w w₁) : w.continuations.length ≤ w₁.continuations.length := by
  obtain ⟨xs, hpath, -⟩ := h.path
  exact hpath.length_le

theorem Grown.length_le (h : Grown a w w₁) : w.continuations.length ≤ w₁.continuations.length := by
  obtain ⟨xs, hpath, -⟩ := h.path
  exact hpath.length_le

theorem Grown.groups_le (h : Grown a w w₁) : w.groups.length ≤ w₁.groups.length := by
  obtain ⟨more, hmore, -⟩ := h.groups
  simp [hmore]

theorem Grown.refl (h : w.queue.InBounds) : Grown a w w :=
  ⟨⟨[], .nil _, forall_mem_nil _⟩, h, ⟨[], (append_nil _).symm, forall_mem_nil _⟩, rfl⟩

theorem Change.Fresh.mono {x : Change κ} (h : x.Fresh w w₁)
    (hcs : w₁.continuations.length ≤ w₂.continuations.length)
    (hgs : w₁.groups.length ≤ w₂.groups.length) : x.Fresh w w₂ := by
  cases x with
  | add | settle => exact h
  | push | pop | shuffle => exact h
  | register c callback =>
    cases callback with
    | client | resume => exact h
    | slot => exact ⟨h.1, Nat.lt_of_lt_of_le h.2 hgs⟩
    | forward => exact ⟨h.1, Nat.lt_of_lt_of_le h.2 hcs⟩

theorem Grown.touch (h : Grown a w w₁) (ht : Touches a Q w₁ w₂)
    (hQ : ∀ x, Q x → x.Fresh w w₂) : Grown a w w₂ := by
  obtain ⟨xs, hpath, hxs⟩ := h.path
  obtain ⟨ys, hpath', hys⟩ := ht.path
  obtain ⟨more, hmore, htargets⟩ := h.groups
  refine ⟨⟨xs ++ ys, hpath.append hpath', ?_⟩, ht.inBounds, ⟨more, ?_, ?_⟩, ?_⟩
  · refine forall_mem_append.mpr ⟨fun x hx => ?_, fun x hx => hQ x (hys x hx)⟩
    exact (hxs x hx).mono ht.length_le (Nat.le_of_eq (by rw [ht.groups]))
  · rw [ht.groups, hmore]
  · exact fun g hg => ⟨(htargets g hg).1, Nat.lt_of_lt_of_le (htargets g hg).2 ht.length_le⟩
  · rw [ht.coroutines, h.coroutines]

theorem Grown.addContinuation (h : Grown a w w₁) (outcome : Option Outcome) :
    Grown a w ((Async.addContinuation { outcome }).run w₁).2 :=
  h.touch (touches_addContinuation h.inBounds outcome) (by rintro x rfl; trivial)

theorem Grown.newGroup (h : Grown a w w₁) {target size : Nat}
    (htarget : w.continuations.length ≤ target ∧ target < w₁.continuations.length) :
    Grown a w ((Async.newGroup target size).run w₁).2 := by
  obtain ⟨xs, hpath, hxs⟩ := h.path
  obtain ⟨more, hmore, htargets⟩ := h.groups
  refine ⟨⟨xs, hpath, fun x hx => (hxs x hx).mono (Nat.le_refl _) ?_⟩, h.inBounds, ?_, h.coroutines⟩
  · simp [run_newGroup]
  · refine ⟨more ++ [{ target, slots := List.replicate size none, remaining := size }], ?_, ?_⟩
    · show w₁.groups ++ _ = _
      rw [hmore, append_assoc]
    · exact forall_mem_append.mpr ⟨htargets, forall_mem_singleton.mpr htarget⟩

theorem Grown.trans (h : Grown a w w₁) (h' : Grown a w₁ w₂) : Grown a w w₂ := by
  obtain ⟨xs, hpath, hxs⟩ := h.path
  obtain ⟨ys, hpath', hys⟩ := h'.path
  obtain ⟨more, hmore, htargets⟩ := h.groups
  obtain ⟨more', hmore', htargets'⟩ := h'.groups
  refine ⟨⟨xs ++ ys, hpath.append hpath', ?_⟩, h'.inBounds, ⟨more ++ more', ?_, ?_⟩, ?_⟩
  · refine forall_mem_append.mpr ⟨fun x hx => (hxs x hx).mono h'.length_le h'.groups_le, ?_⟩
    intro x hx
    have hfresh := hys x hx
    cases x with
    | add => trivial
    | push | pop | shuffle => exact hfresh
    | settle => exact Nat.le_trans h.length_le hfresh
    | register c callback =>
      cases callback with
      | client | resume => exact hfresh
      | slot => exact ⟨Nat.le_trans h.groups_le hfresh.1, hfresh.2⟩
      | forward => exact ⟨Nat.le_trans h.length_le hfresh.1, hfresh.2⟩
  · rw [hmore', hmore, append_assoc]
  · refine forall_mem_append.mpr ⟨fun g hg => ?_, fun g hg => ?_⟩
    · exact ⟨(htargets g hg).1, Nat.lt_of_lt_of_le (htargets g hg).2 h'.length_le⟩
    · exact ⟨Nat.le_trans h.length_le (htargets' g hg).1, (htargets' g hg).2⟩
  · rw [h'.coroutines, h.coroutines]

theorem grown_new (h : w.queue.InBounds) (size : Nat) :
    Grown a w ((newGroup w.continuations.length size).run (newContinuation.run w).2).2 := by
  have hnew : Grown a w (newContinuation.run w).2 := (Grown.refl h).addContinuation none
  refine hnew.newGroup ⟨Nat.le_refl _, ?_⟩
  simp [run_newContinuation]

mutual

theorem grown_awaitValue : ∀ (item : Awaitable) {w : World κ ρ σ}, w.queue.InBounds →
    Grown a w ((awaitValue item).run w).2
  | .ready v, _, h => (Grown.refl h).addContinuation _
  | .pending c, _, h => .refl h
  | .many [], w, h => by
    have hnew : Grown a w (newContinuation.run w).2 := (Grown.refl h).addContinuation none
    refine hnew.touch (touches_settle hnew.inBounds w.continuations.length (.ok (.array []))) ?_
    rintro x rfl
    exact Nat.le_refl _
  | .many (item :: rest), w, h => by
    refine grown_awaitItems (item :: rest) 0 (grown_new h (rest.length + 1)) ⟨Nat.le_refl _, ?_⟩
    show w.groups.length < (w.groups ++ [_]).length
    simp

theorem grown_awaitItems : ∀ (items : List Awaitable) (index : Nat) {group : Nat}
    {w₀ w : World κ ρ σ}, Grown a w₀ w → w₀.groups.length ≤ group ∧ group < w.groups.length →
    Grown a w₀ ((awaitItems group index items).run w).2
  | [], _, _, _, _, h, _ => h
  | item :: rest, index, group, w₀, w, h, hgroup => by
    have hvalue : Grown a w ((awaitValue item).run w).2 := grown_awaitValue item h.inBounds
    have hitem := h.trans hvalue
    have htouch := touches_onSettled (a := a) hitem.inBounds ((awaitValue item).run w).1
      (.slot group index)
    have hlt := Nat.lt_of_lt_of_le hgroup.2 hvalue.groups_le
    rw [← htouch.groups] at hlt
    have hregister := hitem.touch htouch (by rintro x rfl; exact ⟨hgroup.1, hlt⟩)
    exact grown_awaitItems rest (index + 1) hregister ⟨hgroup.1, hlt⟩

end

theorem grown_forwards (h : Grown a w₀ w) {target : Nat}
    (htarget : w₀.continuations.length ≤ target ∧ target < w.continuations.length) (items : List Awaitable) :
    Grown a w₀ ((items.forM fun item => do onSettled (← awaitValue item) (.forward target)).run w).2 := by
  induction items generalizing w with
  | nil => exact h
  | cons item rest ih =>
    have hvalue : Grown a w ((awaitValue item).run w).2 := grown_awaitValue item h.inBounds
    have hitem := h.trans hvalue
    have htouch := touches_onSettled (a := a) hitem.inBounds ((awaitValue item).run w).1
      (.forward target)
    have hlt := Nat.lt_of_lt_of_le (Nat.lt_of_lt_of_le htarget.2 hvalue.length_le) htouch.length_le
    have hregister := hitem.touch htouch (by rintro x rfl; exact ⟨htarget.1, hlt⟩)
    exact ih hregister ⟨htarget.1, hlt⟩

theorem grown_awaitAny (h : w.queue.InBounds) (item : Awaitable) : Grown a w ((awaitAny item).run w).2 := by
  cases item with
  | ready v => exact grown_awaitValue (.ready v) h
  | pending c => exact grown_awaitValue (.pending c) h
  | many items =>
    have hnew : Grown a w (newContinuation.run w).2 := (Grown.refl h).addContinuation none
    cases items with
    | nil =>
      refine hnew.touch (touches_settle hnew.inBounds w.continuations.length _) ?_
      rintro x rfl
      exact Nat.le_refl _
    | cons item rest =>
      refine grown_forwards hnew ⟨Nat.le_refl _, ?_⟩ (item :: rest)
      simp [run_newContinuation]

theorem grown_resolve (h : w.queue.InBounds) (request : Suspend) : Grown a w (request.resolve.run w).2 := by
  obtain ⟨mode, value⟩ := request
  cases mode with
  | any => exact grown_awaitAny h value
  | value => exact grown_awaitValue value h
  | all => exact grown_awaitValue value h

end Motif.Async
