import Motif.Proofs.Async.Queue

/-!
# Work queues and plain lists

A work queue answers every sequence of requests as a plain list does that is added to at the end and
taken from at the front. `Represents` ties the slots of a queue to such a list: the slots before the head
are empty, those from the head on hold the items of the list. It bounds the empty slots as well, by the
threshold or by the number of pending items, and every request keeps it (`Represents.handle`).
-/

namespace Motif.Async.WorkQueue

open List

variable {α : Type}

/-! ## Requests -/

/-- What can be asked of a queue. -/
inductive Request (α : Type) where
  | push (item : α)
  | pop
  | drain (max : Nat)

inductive Reply (α : Type) where
  | done
  | item (item : Option α)
  | batch (items : List α)

def handle (q : WorkQueue α) : Request α → Reply α × WorkQueue α
  | .push item => (.done, q.push item)
  | .pop => (.item q.pop.1, q.pop.2)
  | .drain max => (.batch (q.drain max).1, (q.drain max).2)

/-- How a plain list does: first in, first out. -/
def fifo (pending : List α) : Request α → Reply α × List α
  | .push item => (.done, pending ++ [item])
  | .pop => (.item pending.head?, pending.tail)
  | .drain max =>
    let count := min max pending.length
    (.batch (pending.take count), pending.drop count)

/-- Deals with requests one after the other: the replies, and what is left in the end. -/
def serve {σ : Type} (step : σ → Request α → Reply α × σ) : σ → List (Request α) → List (Reply α) × σ
  | s, [] => ([], s)
  | s, request :: rest =>
    let (reply, s) := step s request
    let (replies, s) := serve step s rest
    (reply :: replies, s)

/-! ## Queues as representations of lists -/

/-- The slots before the head are empty, and those from the head on hold the pending items. -/
def Holds (q : WorkQueue α) (pending : List α) : Prop :=
  q.slots.toList = List.replicate q.head none ++ pending.map some

/-- A queue with the given threshold that holds the pending items and does not waste many slots. -/
structure Represents (threshold : Nat) (q : WorkQueue α) (pending : List α) : Prop where
  threshold_eq : q.threshold = threshold
  holds : q.Holds pending
  head_lt : q.head = 0 ∨ q.head < max threshold pending.length

variable {threshold : Nat} {q : WorkQueue α} {pending : List α}

theorem Holds.size_eq (h : q.Holds pending) : q.slots.size = q.head + pending.length := by
  rw [← Array.length_toList, h, length_append, length_replicate, length_map]

theorem Holds.length_eq (h : q.Holds pending) : q.length = pending.length := by
  rw [length, h.size_eq, Nat.add_sub_cancel_left]

theorem Holds.isEmpty_eq (h : q.Holds pending) : q.isEmpty = pending.isEmpty := by
  rw [isEmpty, h.length_eq]
  cases pending <;> rfl

theorem Holds.drop_head (h : q.Holds pending) : q.slots.toList.drop q.head = pending.map some := by
  rw [h, drop_left' length_replicate]

theorem Holds.full (h : q.Holds pending) : q.Full := ⟨pending, h.drop_head⟩

theorem Holds.toList_eq (h : q.Holds pending) : q.toList = pending := by
  rw [toList, h.drop_head, filterMap_map]
  exact filterMap_some

/-! ## Requests keep the representation -/

theorem represents_withThreshold (threshold : Nat) :
    Represents (max threshold 1) (withThreshold threshold : WorkQueue α) [] :=
  ⟨rfl, rfl, .inl rfl⟩

theorem Holds.compact (h : q.Holds pending) (hthreshold : q.threshold = threshold) :
    Represents threshold q.compact pending := by
  have hsize := h.size_eq
  unfold WorkQueue.compact
  split
  case isTrue hend =>
    -- Nothing is pending.
    obtain rfl : pending = [] := eq_nil_of_length_eq_zero (by omega)
    exact ⟨hthreshold, rfl, .inl rfl⟩
  case isFalse hpending =>
    split
    case isTrue =>
      refine ⟨hthreshold, ?_, .inl rfl⟩
      show (q.slots.extract q.head).toList = pending.map some
      rw [Array.toList_extract, extract_eq_take_drop, h.drop_head, take_of_length_le]
      rewrite [length_map, hsize, Nat.add_sub_cancel_left]
      exact Nat.le_refl _
    case isFalse hfew => exact ⟨hthreshold, h, by omega⟩

theorem Represents.push (h : Represents threshold q pending) (item : α) :
    Represents threshold (q.push item) (pending ++ [item]) where
  threshold_eq := h.threshold_eq
  holds := by
    show (q.slots.push (some item)).toList = _
    rw [Array.toList_push, h.holds, append_assoc, map_append]
    rfl
  head_lt := by
    have hhead := h.head_lt
    rw [length_append]
    show q.head = 0 ∨ q.head < _
    omega

theorem Represents.pop (h : Represents threshold q pending) :
    q.pop.1 = pending.head? ∧ Represents threshold q.pop.2 pending.tail := by
  have hslot : q.slots[q.head]? = (pending.map some)[0]? := by
    rw [← Array.getElem?_toList, ← h.holds.drop_head, getElem?_drop, Nat.add_zero]
  unfold WorkQueue.pop
  cases pending with
  | nil =>
    rw [hslot]
    exact ⟨rfl, h⟩
  | cons item pending =>
    rw [hslot]
    refine ⟨rfl, Holds.compact ?_ h.threshold_eq⟩
    show (q.slots.setIfInBounds q.head none).toList =
      List.replicate (q.head + 1) none ++ pending.map some
    rw [Array.toList_setIfInBounds, h.holds, set_append_right _ _ (by simp), length_replicate,
      Nat.sub_self, replicate_succ', append_assoc]
    rfl

theorem drop_min (pending : List α) (max : Nat) :
    pending.drop (min max pending.length) = pending.drop max := by
  rw [drop_eq_drop_iff]
  omega

theorem Represents.drain (h : Represents threshold q pending) (max : Nat) :
    (q.drain max).1 = pending.take max ∧ Represents threshold (q.drain max).2 (pending.drop max) := by
  refine ⟨by rw [h.holds.full.drain_fst, h.holds.toList_eq], Holds.compact ?_ h.threshold_eq⟩
  have hsize := h.holds.size_eq
  have hstop : min q.slots.size (q.head + max) = q.head + min max pending.length := by omega
  have hfront : (q.slots.extract 0 q.head).toList = List.replicate q.head none := by
    rw [Array.toList_extract, extract_eq_take_drop, drop_zero, Nat.sub_zero, h.holds,
      take_left' length_replicate]
  have hback : (q.slots.extract (q.head + min max pending.length)).toList =
      (pending.drop max).map some := by
    rw [Array.toList_extract, extract_eq_take_drop, ← drop_drop, h.holds.drop_head,
      take_of_length_le (by simp; omega), ← map_drop, drop_min]
  show ((q.slots.extract 0 q.head ++ Array.replicate (min q.slots.size (q.head + max) - q.head) none) ++
      q.slots.extract (min q.slots.size (q.head + max))).toList =
    List.replicate (min q.slots.size (q.head + max)) none ++ (pending.drop max).map some
  rw [hstop, Array.toList_append, Array.toList_append, Array.toList_replicate, hfront, hback,
    Nat.add_sub_cancel_left, replicate_append_replicate]

theorem Represents.handle (h : Represents threshold q pending) (request : Request α) :
    (q.handle request).1 = (fifo pending request).1 ∧
      Represents threshold (q.handle request).2 (fifo pending request).2 := by
  cases request with
  | push item => exact ⟨rfl, h.push item⟩
  | pop => exact ⟨congrArg Reply.item h.pop.1, h.pop.2⟩
  | drain max =>
    obtain ⟨hbatch, hrest⟩ := h.drain max
    have htake : pending.take (min max pending.length) = pending.take max := by
      rw [take_eq_take_iff, Nat.min_assoc, Nat.min_self]
    refine ⟨congrArg Reply.batch (hbatch.trans htake.symm), ?_⟩
    show Represents threshold _ (pending.drop (min max pending.length))
    rw [drop_min]
    exact hrest

theorem Represents.serve (h : Represents threshold q pending) (requests : List (Request α)) :
    (serve WorkQueue.handle q requests).1 = (WorkQueue.serve fifo pending requests).1 ∧
      Represents threshold (WorkQueue.serve WorkQueue.handle q requests).2
        (WorkQueue.serve fifo pending requests).2 := by
  induction requests generalizing q pending with
  | nil => exact ⟨rfl, h⟩
  | cons request rest ih =>
    obtain ⟨hreply, hnext⟩ := h.handle request
    obtain ⟨hreplies, hlast⟩ := ih hnext
    exact ⟨cons_eq_cons.mpr ⟨hreply, hreplies⟩, hlast⟩

/-! ## Every sequence of requests -/

/-- From an empty queue on, a work queue replies to any requests as a plain list does, and is as long as
    the list. Behind the empty slots before its head it holds the items of the list, each once and in
    order, and it has no empty slots or fewer than the threshold or than pending items. -/
theorem serve_first_in_first_out (threshold : Nat) (requests : List (Request α)) : ∃ replies q pending,
      serve handle (withThreshold threshold) requests = (replies, q) ∧
      serve fifo [] requests = (replies, pending) ∧ q.length = pending.length ∧ q.isEmpty = pending.isEmpty ∧
      q.slots.toList = List.replicate q.head none ++ pending.map some ∧
      (q.head = 0 ∨ q.head < max threshold pending.length) := by
  obtain ⟨hreplies, hlast⟩ := (represents_withThreshold threshold).serve requests
  generalize serve handle (withThreshold threshold) requests = served at *
  generalize serve fifo [] requests = listed at *
  obtain ⟨replies, q⟩ := served
  obtain ⟨_, pending⟩ := listed
  subst hreplies
  refine ⟨_, q, pending, rfl, rfl, hlast.holds.length_eq, hlast.holds.isEmpty_eq, hlast.holds, ?_⟩
  -- A threshold of zero counts as one, and only a head of zero is below that.
  have hhead : q.head = 0 ∨ q.head < max (max threshold 1) pending.length := hlast.head_lt
  omega

end Motif.Async.WorkQueue
