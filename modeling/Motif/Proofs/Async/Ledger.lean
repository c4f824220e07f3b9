import Mathlib.Data.List.Count
import Motif.Proofs.Async.Continuation

/-!
# Ledgers

What a scheduler has to do is seen as a ledger: the tasks that are still to be run, in order, and the
continuations with those who wait for them. A ledger changes in a few ways only, and a callback that was
registered once is found in one place until it is told: it waits for its continuation, or it is in a task
that has the outcome of its continuation.
-/

namespace Motif.Async

open List

variable {κ : Type}

theorem lt_of_getElem? {α : Type} {as : List α} {i : Nat} {a : α} (h : as[i]? = some a) : i < as.length :=
  (List.getElem?_eq_some_iff.mp h).1

def Task.callback? : Task κ → Option (Callback κ)
  | .notify callback _ => some callback
  | _ => none

/-- The tasks to be run, in order, and the continuations. -/
structure Ledger (κ : Type) where
  tasks : List (Task κ)
  continuations : List (Continuation κ)

/-- The few ways in which a ledger changes. -/
inductive Change (κ : Type) where
  | push (task : Task κ)
  | add (outcome : Option Outcome)
  | settle (c : Nat) (outcome : Outcome)
  | register (c : Nat) (callback : Callback κ)
  | pop (task : Task κ)
  | shuffle

/-- The change registers the callback or takes it out of the tasks. -/
def Change.Concerns (callback : Callback κ) : Change κ → Prop
  | .register _ callback' => callback' = callback
  | .pop task => task.callback? = some callback
  | _ => False

namespace Ledger

variable {cs : List (Continuation κ)}

def outcome? (l : Ledger κ) (c : Nat) : Option Outcome := l.continuations[c]?.bind Continuation.outcome

def callbacks (l : Ledger κ) : List (Callback κ) :=
  l.tasks.filterMap Task.callback? ++ l.continuations.flatMap Continuation.waiting

open Classical in
noncomputable def copies (l : Ledger κ) (callback : Callback κ) : Nat := l.callbacks.count callback

inductive Step : Ledger κ → Change κ → Ledger κ → Prop
  | push {tasks cs task} (h : task.callback? = none) :
    Step ⟨tasks, cs⟩ (.push task) ⟨tasks ++ [task], cs⟩
  | add {tasks cs value} : Step ⟨tasks, cs⟩ (.add value) ⟨tasks, cs ++ [{ outcome := value }]⟩
  | settle {tasks cs c waiting outcome} (h : cs[c]? = some { outcome := none, waiting }) :
    Step ⟨tasks, cs⟩ (.settle c outcome)
      ⟨tasks ++ waiting.map (Task.notify · outcome), cs.set c { outcome := some outcome }⟩
  | wait {tasks cs c waiting callback} (h : cs[c]? = some { outcome := none, waiting }) :
    Step ⟨tasks, cs⟩ (.register c callback) ⟨tasks, cs.set c { waiting := waiting ++ [callback] }⟩
  | tell {tasks cs c outcome callback} (h : cs[c]?.bind Continuation.outcome = some outcome) :
    Step ⟨tasks, cs⟩ (.register c callback) ⟨tasks ++ [.notify callback outcome], cs⟩
  | pop {task tasks cs} : Step ⟨task :: tasks, cs⟩ (.pop task) ⟨tasks, cs⟩
  | shuffle {tasks tasks' cs} (h : tasks.Perm tasks') : Step ⟨tasks, cs⟩ .shuffle ⟨tasks', cs⟩

inductive Path : Ledger κ → List (Change κ) → Ledger κ → Prop
  | nil (l) : Path l [] l
  | cons {l l' l'' x xs} (h : Step l x l') (hs : Path l' xs l'') : Path l (x :: xs) l''

variable {l l' l'' : Ledger κ} {x : Change κ} {xs ys : List (Change κ)} {c : Nat}
  {callback : Callback κ} {outcome : Outcome}

theorem Step.path (h : Step l x l') : Path l [x] l' := .cons h (.nil l')

theorem Path.append (h : Path l xs l') (h' : Path l' ys l'') : Path l (xs ++ ys) l'' := by
  induction h with
  | nil => exact h'
  | cons hstep _ ih => exact .cons hstep (ih h')

/-! ## Outcomes -/

theorem getElem?_set_waiting {k k' : Continuation κ} (h : cs[c]? = some k) (d : Nat) :
    (cs.set c k')[d]? = if c = d then some k' else cs[d]? := by
  have hlt : c < cs.length := lt_of_getElem? h
  rw [getElem?_set]
  simp [hlt]

theorem Step.length_le (h : Step l x l') : l.continuations.length ≤ l'.continuations.length := by
  cases h <;> simp

theorem Step.outcome?_of_some (h : Step l x l') (hc : l.outcome? c = some outcome) :
    l'.outcome? c = some outcome := by
  cases h with
  | push | tell | pop | shuffle => exact hc
  | @add tasks cs value =>
    obtain ⟨k, hk, hout⟩ := Option.bind_eq_some_iff.mp hc
    show (cs ++ [_])[c]?.bind _ = _
    rw [getElem?_append_left (lt_of_getElem? hk)]
    exact hc
  | @settle tasks cs d waiting value hd =>
    -- what is settled now was not settled before
    have hne : d ≠ c := by
      rintro rfl
      simp [outcome?, hd] at hc
    simpa [outcome?, getElem?_set_waiting hd, hne] using hc
  | @wait tasks cs d waiting cb hd =>
    have hne : d ≠ c := by
      rintro rfl
      simp [outcome?, hd] at hc
    simpa [outcome?, getElem?_set_waiting hd, hne] using hc

theorem Step.outcome?_eq (h : Step l x l') (hc : c < l.continuations.length)
    (hx : ∀ outcome, x ≠ .settle c outcome) : l'.outcome? c = l.outcome? c := by
  cases h with
  | push | tell | pop | shuffle => rfl
  | @add tasks cs value =>
    show (cs ++ [_])[c]?.bind _ = _
    rw [getElem?_append_left hc]
    rfl
  | @settle tasks cs d waiting value hd =>
    have hne : d ≠ c := by
      rintro rfl
      exact hx value rfl
    simp [outcome?, getElem?_set_waiting hd, hne]
  | @wait tasks cs d waiting cb hd =>
    by_cases hne : d = c
    · subst hne
      simp [outcome?, getElem?_set_waiting hd, hd]
    · simp [outcome?, getElem?_set_waiting hd, hne]

theorem Step.outcome?_settle (h : Step l (.settle c outcome) l') :
    l.outcome? c = none ∧ l'.outcome? c = some outcome := by
  cases h with
  | settle hd => simp [outcome?, getElem?_set_waiting hd, hd]

theorem Path.length_le (h : Path l xs l') : l.continuations.length ≤ l'.continuations.length := by
  induction h with
  | nil => exact Nat.le_refl _
  | cons hstep _ ih => exact Nat.le_trans hstep.length_le ih

theorem Path.outcome?_of_some (h : Path l xs l') (hc : l.outcome? c = some outcome) :
    l'.outcome? c = some outcome := by
  induction h with
  | nil => exact hc
  | cons hstep _ ih => exact ih (hstep.outcome?_of_some hc)

theorem Path.outcome?_eq (h : Path l xs l') (hc : c < l.continuations.length)
    (hxs : ∀ outcome, .settle c outcome ∉ xs) : l'.outcome? c = l.outcome? c := by
  induction h with
  | nil => rfl
  | cons hstep _ ih =>
    rw [ih (Nat.lt_of_lt_of_le hc hstep.length_le) fun o ho => hxs o (mem_cons_of_mem _ ho)]
    exact hstep.outcome?_eq hc fun o ho => hxs o (ho ▸ mem_cons_self)

theorem Path.settle_mem (h : Path l xs l') (hc : c < l.continuations.length) (hnone : l.outcome? c = none)
    (hsome : l'.outcome? c = some outcome) : .settle c outcome ∈ xs := by
  induction h with
  | nil => simp [hnone] at hsome
  | @cons l l₁ l₂ x xs hstep htail ih =>
    have hlt := Nat.lt_of_lt_of_le hc hstep.length_le
    by_cases hx : ∃ o, x = .settle c o
    · obtain ⟨o, rfl⟩ := hx
      -- from here on the outcome stays
      have ho := htail.outcome?_of_some hstep.outcome?_settle.2
      rw [hsome] at ho
      obtain rfl := Option.some.inj ho
      exact mem_cons_self
    · have heq := hstep.outcome?_eq hc fun o ho => hx ⟨o, ho⟩
      exact mem_cons_of_mem _ (ih hlt (heq.trans hnone) hsome)

/-! ## Callbacks -/

theorem perm_waiting_set {k : Continuation κ} (h : cs[c]? = some k) :
    ∃ others, (cs.flatMap Continuation.waiting).Perm (k.waiting ++ others) ∧
      ∀ k', ((cs.set c k').flatMap Continuation.waiting).Perm (k'.waiting ++ others) := by
  obtain ⟨hlt, rfl⟩ := List.getElem?_eq_some_iff.mp h
  refine ⟨(cs.take c ++ cs.drop (c + 1)).flatMap Continuation.waiting, ?_, fun k' => ?_⟩
  · conv_lhs => rw [← take_append_drop c cs, drop_eq_getElem_cons hlt]
    simp only [flatMap_append, flatMap_cons]
    exact perm_append_comm_assoc _ _ _
  · rw [set_eq_take_append_cons_drop, if_pos hlt]
    simp only [flatMap_append, flatMap_cons]
    exact perm_append_comm_assoc _ _ _

theorem filterMap_callback?_notify (waiting : List (Callback κ)) (outcome : Outcome) :
    (waiting.map (Task.notify · outcome)).filterMap Task.callback? = waiting := by
  rw [filterMap_map]
  exact filterMap_some

theorem Step.perm_callbacks (h : Step l x l') :
    match x with
    | .register _ callback => l'.callbacks.Perm (callback :: l.callbacks)
    | .pop task => l.callbacks.Perm (task.callback?.toList ++ l'.callbacks)
    | _ => l'.callbacks.Perm l.callbacks := by
  cases h with
  | push htask => simp [callbacks, htask]
  | add => simp [callbacks]
  | @settle tasks cs d waiting outcome hd =>
    obtain ⟨others, hbefore, hafter⟩ := perm_waiting_set hd
    simp only [callbacks, filterMap_append, filterMap_callback?_notify, append_assoc]
    refine List.Perm.append_left _ ?_
    exact ((hafter _).append_left _).trans hbefore.symm
  | @wait tasks cs d waiting cb hd =>
    obtain ⟨others, hbefore, hafter⟩ := perm_waiting_set hd
    simp only [callbacks]
    refine (((hafter _).append_left _).trans ?_).trans ((hbefore.append_left _).cons _).symm
    rw [append_assoc, singleton_append, ← append_assoc, ← append_assoc]
    exact perm_middle
  | @tell tasks cs d outcome cb hd =>
    simp only [callbacks, filterMap_append, append_assoc]
    exact perm_middle
  | @pop task tasks cs =>
    simp only [callbacks, filterMap_cons]
    cases task <;> exact .refl _
  | shuffle hperm => exact (hperm.filterMap _).symm.append_right _

theorem copies_eq_zero : l.copies callback = 0 ↔ callback ∉ l.callbacks := by
  classical exact count_eq_zero

theorem Step.copies_eq (h : Step l x l') (hx : ¬ x.Concerns callback) :
    l'.copies callback = l.copies callback := by
  classical
  have hperm := h.perm_callbacks
  cases x with
  | push | add | settle | shuffle => exact hperm.count_eq callback
  | register d cb =>
    rw [copies, hperm.count_eq, count_cons_of_ne hx]
    rfl
  | pop task =>
    rw [copies, copies, hperm.count_eq, count_append]
    cases hcb : task.callback? with
    | none => simp
    | some cb =>
      have hne : cb ≠ callback := fun heq => hx (hcb.trans (congrArg some heq))
      simp [hne]

theorem Step.copies_register (h : Step l (.register c callback) l') :
    l'.copies callback = l.copies callback + 1 := by
  classical
  rw [copies, h.perm_callbacks.count_eq, count_cons_self]
  rfl

theorem Step.copies_pop (h : Step l (.pop (.notify callback outcome)) l') :
    l.copies callback = l'.copies callback + 1 := by
  classical
  have hperm : l.callbacks.Perm (callback :: l'.callbacks) := h.perm_callbacks
  rw [copies, hperm.count_eq, count_cons_self]
  rfl

theorem Path.copies_eq (h : Path l xs l') (hxs : ∀ x ∈ xs, ¬ x.Concerns callback) :
    l'.copies callback = l.copies callback := by
  induction h with
  | nil => rfl
  | cons hstep _ ih =>
    rw [ih fun x hx => hxs x (mem_cons_of_mem _ hx)]
    exact hstep.copies_eq (hxs _ mem_cons_self)

theorem Path.mem_callbacks (h : Path l xs l') (hmem : callback ∈ l'.callbacks) :
    callback ∈ l.callbacks ∨ ∃ c, .register c callback ∈ xs := by
  induction h with
  | nil => exact .inl hmem
  | @cons l l₁ l₂ x xs hstep _ ih =>
    rcases ih hmem with hmem | ⟨c, hc⟩
    · have hperm := hstep.perm_callbacks
      cases x with
      | push | add | settle | shuffle => exact .inl (hperm.mem_iff.mp hmem)
      | register d cb =>
        rcases mem_cons.mp (hperm.mem_iff.mp hmem) with rfl | hmem
        · exact .inr ⟨d, mem_cons_self⟩
        · exact .inl hmem
      | pop task => exact .inl (hperm.mem_iff.mpr (mem_append_right _ hmem))
    · exact .inr ⟨c, mem_cons_of_mem _ hc⟩

theorem Path.mem_tasks (h : Path l xs l') {task : Task κ} (htask : task.callback? = none)
    (hmem : task ∈ l'.tasks) : task ∈ l.tasks ∨ .push task ∈ xs := by
  induction h with
  | nil => exact .inl hmem
  | @cons l l₁ l₂ x xs hstep _ ih =>
    rcases ih hmem with hmem | hpush
    · cases hstep with
      | push =>
        rcases mem_append.mp hmem with hmem | hmem
        · exact .inl hmem
        · obtain rfl := mem_singleton.mp hmem
          exact .inr mem_cons_self
      | add | wait => exact .inl hmem
      | settle =>
        rcases mem_append.mp hmem with hmem | hmem
        · exact .inl hmem
        · obtain ⟨cb, -, rfl⟩ := mem_map.mp hmem
          cases htask
      | tell =>
        rcases mem_append.mp hmem with hmem | hmem
        · exact .inl hmem
        · obtain rfl := mem_singleton.mp hmem
          cases htask
      | pop => exact .inl (mem_cons_of_mem _ hmem)
      | shuffle hperm => exact .inl (hperm.mem_iff.mpr hmem)
    · exact .inr (mem_cons_of_mem _ hpush)

/-! ## Where a callback is -/

/-- A callback waits for a continuation, or is in a task with the outcome of the continuation. -/
inductive Located (l : Ledger κ) (c : Nat) (callback : Callback κ) : Prop
  | waits {waiting : List (Callback κ)}
    (hc : l.continuations[c]? = some { outcome := none, waiting }) (hmem : callback ∈ waiting)
  | told {value : Outcome} (hc : l.outcome? c = some value) (hmem : .notify callback value ∈ l.tasks)

theorem Located.lt (h : l.Located c callback) : c < l.continuations.length := by
  cases h with
  | waits hc => exact lt_of_getElem? hc
  | told hc =>
    obtain ⟨k, hk, -⟩ := Option.bind_eq_some_iff.mp hc
    exact lt_of_getElem? hk

theorem Located.outcome?_eq_none (h : l.Located c callback) (htasks : l.tasks = []) : l.outcome? c = none := by
  cases h with
  | waits hc => simp [outcome?, hc]
  | told _ hmem => simp [htasks] at hmem

theorem Located.mem_callbacks (h : l.Located c callback) : callback ∈ l.callbacks := by
  cases h with
  | waits hc hmem => exact mem_append_right _ (mem_flatMap.mpr ⟨_, mem_of_getElem? hc, hmem⟩)
  | told _ hmem => exact mem_append_left _ (mem_filterMap.mpr ⟨_, hmem, rfl⟩)

theorem Step.located (h : Step l x l') (hl : l.Located c callback)
    (hx : ∀ outcome, x ≠ .pop (.notify callback outcome)) : l'.Located c callback := by
  cases hl with
  | told hc hmem =>
    refine .told (h.outcome?_of_some hc) ?_
    cases h with
    | push | settle | tell => exact mem_append_left _ hmem
    | add | wait => exact hmem
    | shuffle hperm => exact hperm.mem_iff.mp hmem
    | pop =>
      rcases mem_cons.mp hmem with rfl | hmem
      · exact absurd rfl (hx _)
      · exact hmem
  | @waits waiting hc hmem =>
    cases h with
    | push | tell | pop | shuffle => exact .waits hc hmem
    | @add tasks cs outcome =>
      refine .waits ?_ hmem
      show (cs ++ [_])[c]? = _
      rw [getElem?_append_left (lt_of_getElem? hc)]
      exact hc
    | @settle tasks cs d waiting' outcome hd =>
      by_cases hne : d = c
      · -- now it is told
        subst hne
        obtain rfl : waiting' = waiting := by
          have := hd.symm.trans hc
          simpa using this
        refine .told ?_ (mem_append_right _ (mem_map.mpr ⟨_, hmem, rfl⟩))
        simp [outcome?, getElem?_set_waiting hd]
      · refine .waits ?_ hmem
        show (cs.set d _)[c]? = _
        rw [getElem?_set_waiting hd, if_neg hne]
        exact hc
    | @wait tasks cs d waiting' cb hd =>
      by_cases hne : d = c
      · subst hne
        obtain rfl : waiting' = waiting := by
          have := hd.symm.trans hc
          simpa using this
        have hset : (cs.set d { waiting := waiting' ++ [cb] })[d]? =
            some { outcome := none, waiting := waiting' ++ [cb] } := by
          rw [getElem?_set_waiting hd, if_pos rfl]
        exact .waits hset (mem_append_left _ hmem)
      · refine .waits ?_ hmem
        show (cs.set d _)[c]? = _
        rw [getElem?_set_waiting hd, if_neg hne]
        exact hc

theorem Path.located (h : Path l xs l') (hl : l.Located c callback)
    (hxs : ∀ outcome, .pop (.notify callback outcome) ∉ xs) : l'.Located c callback := by
  induction h with
  | nil => exact hl
  | cons hstep _ ih =>
    refine ih (hstep.located hl ?_) fun outcome hmem => hxs outcome (mem_cons_of_mem _ hmem)
    rintro outcome rfl
    exact hxs outcome mem_cons_self

theorem Step.located_register (h : Step l (.register c callback) l') : l'.Located c callback := by
  cases h with
  | @wait tasks cs c waiting callback hc =>
    have hset : (cs.set c { waiting := waiting ++ [callback] })[c]? =
        some { outcome := none, waiting := waiting ++ [callback] } := by
      rw [getElem?_set_waiting hc, if_pos rfl]
    exact .waits hset (mem_append_right _ (mem_singleton.mpr rfl))
  | tell hc => exact .told hc (mem_append_right _ (mem_singleton.mpr rfl))

structure Due (l : Ledger κ) (c : Nat) (callback : Callback κ) : Prop where
  located : l.Located c callback
  once : l.copies callback = 1

theorem Path.due (h : Path l xs l') (hl : l.Due c callback)
    (hxs : ∀ x ∈ xs, ¬ x.Concerns callback) : l'.Due c callback :=
  ⟨h.located hl.located fun _ hmem => hxs _ hmem rfl, (h.copies_eq hxs).trans hl.once⟩

theorem Step.due_register (h : Step l (.register c callback) l') (hl : l.copies callback = 0) :
    l'.Due c callback :=
  ⟨h.located_register, by rw [h.copies_register, hl]⟩

theorem Due.pop (hl : l.Due c callback) (h : Step l (.pop (.notify callback outcome)) l') :
    l.outcome? c = some outcome ∧ l'.copies callback = 0 := by
  have hzero : l'.copies callback = 0 := by
    have hcopies := h.copies_pop
    rw [hl.once] at hcopies
    exact (Nat.succ.inj hcopies).symm
  refine ⟨?_, hzero⟩
  have hnot := copies_eq_zero.mp hzero
  -- a callback that were anywhere else would still be there
  cases h with
  | @pop _ tasks cs =>
    cases hl.located with
    | waits hc hmem =>
      have hthere : Located ⟨tasks, cs⟩ c callback := .waits hc hmem
      exact absurd hthere.mem_callbacks hnot
    | told hc hmem =>
      rcases mem_cons.mp hmem with heq | hmem
      · cases heq
        exact hc
      · have hthere : Located ⟨tasks, cs⟩ c callback := .told hc hmem
        exact absurd hthere.mem_callbacks hnot

/-! ## Whom a callback is told about -/

/-- A callback waits for no other continuations than these, and is told about no others. -/
structure Confined (l : Ledger κ) (callback : Callback κ) (cs : List Nat) : Prop where
  waits : ∀ {c : Nat} {k : Continuation κ}, l.continuations[c]? = some k → callback ∈ k.waiting → c ∈ cs
  told : ∀ {outcome}, .notify callback outcome ∈ l.tasks → ∃ c ∈ cs, l.outcome? c = some outcome

variable {cs cs' : List Nat}

theorem Confined.mono (h : l.Confined callback cs) (hcs : ∀ c ∈ cs, c ∈ cs') : l.Confined callback cs' where
  waits hk hmem := hcs _ (h.waits hk hmem)
  told hmem := by
    obtain ⟨c, hc, houtcome⟩ := h.told hmem
    exact ⟨c, hcs c hc, houtcome⟩

theorem Step.confined (h : Step l x l') (hl : l.Confined callback cs)
    (hx : ∀ c, x = .register c callback → c ∈ cs) : l'.Confined callback cs := by
  have htold : ∀ {outcome}, .notify callback outcome ∈ l.tasks →
      ∃ c ∈ cs, l'.outcome? c = some outcome := by
    intro outcome hmem
    obtain ⟨c, hc, houtcome⟩ := hl.told hmem
    exact ⟨c, hc, h.outcome?_of_some houtcome⟩
  cases h with
  | pop => exact ⟨hl.waits, fun hmem => htold (mem_cons_of_mem _ hmem)⟩
  | shuffle hperm => exact ⟨hl.waits, fun hmem => htold (hperm.mem_iff.mpr hmem)⟩
  | push htask =>
    refine ⟨hl.waits, fun hmem => ?_⟩
    rcases mem_append.mp hmem with hmem | hmem
    · exact htold hmem
    · rw [← mem_singleton.mp hmem] at htask
      cases htask
  | @add tasks cs value =>
    refine ⟨fun {c k} hk hmem => ?_, htold⟩
    rcases Nat.lt_or_ge c cs.length with hlt | hle
    · rw [getElem?_append_left hlt] at hk
      exact hl.waits hk hmem
    · rw [getElem?_append_right hle, getElem?_singleton] at hk
      obtain ⟨-, hk⟩ := (Option.ite_none_right_eq_some ..).mp hk
      obtain rfl := Option.some.inj hk
      cases hmem
  | @settle tasks ks d waiting outcome hd =>
    refine ⟨fun {c k} hk hmem => ?_, fun hmem => ?_⟩
    · rw [getElem?_set_waiting hd] at hk
      split at hk
      · obtain rfl := Option.some.inj hk
        cases hmem
      · exact hl.waits hk hmem
    · rcases mem_append.mp hmem with hmem | hmem
      · exact htold hmem
      · -- it waited for the continuation that is settled
        obtain ⟨cb, hcb, heq⟩ := mem_map.mp hmem
        cases heq
        exact ⟨d, hl.waits hd hcb, by simp [outcome?, getElem?_set_waiting hd]⟩
  | @wait tasks ks d waiting cb hd =>
    refine ⟨fun {c k} hk hmem => ?_, htold⟩
    rw [getElem?_set_waiting hd] at hk
    split at hk
    case isFalse => exact hl.waits hk hmem
    case isTrue heq =>
      subst heq
      obtain rfl := Option.some.inj hk
      rcases mem_append.mp hmem with hmem | hmem
      · exact hl.waits hd hmem
      · obtain rfl := mem_singleton.mp hmem
        exact hx d rfl
  | @tell tasks ks d outcome cb hd =>
    refine ⟨hl.waits, fun hmem => ?_⟩
    rcases mem_append.mp hmem with hmem | hmem
    · exact htold hmem
    · cases mem_singleton.mp hmem
      exact ⟨d, hx d rfl, hd⟩

theorem Path.confined (h : Path l xs l') (hl : l.Confined callback cs)
    (hxs : ∀ c, .register c callback ∈ xs → c ∈ cs) : l'.Confined callback cs := by
  induction h with
  | nil => exact hl
  | cons hstep _ ih =>
    refine ih (hstep.confined hl ?_) fun c hc => hxs c (mem_cons_of_mem _ hc)
    rintro c rfl
    exact hxs c mem_cons_self

end Ledger

end Motif.Async
