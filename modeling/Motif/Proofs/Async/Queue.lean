import Motif.Async.WorkQueue

/-!
# Work queues as lists

A work queue is seen as the list of its pending items. Items are added at the end of the list and taken
from its front, and dropping empty slots leaves the list alone.
-/

namespace Motif.Async.WorkQueue

open List

variable {α : Type} {q : WorkQueue α}

def InBounds (q : WorkQueue α) : Prop := q.head ≤ q.slots.size

theorem inBounds_empty : InBounds ({} : WorkQueue α) := Nat.le_refl 0

theorem toList_eq_nil (h : q.length = 0) : q.toList = [] := by
  have hdrop : q.slots.toList.drop q.head = [] := drop_eq_nil_of_le (Nat.le_of_sub_eq_zero h)
  rw [toList, hdrop, filterMap_nil]

/-! ## Adding -/

theorem InBounds.push (h : q.InBounds) (item : α) : (q.push item).InBounds := by
  show q.head ≤ (q.slots.push (some item)).size
  rw [Array.size_push]
  exact Nat.le_succ_of_le h

theorem toList_push (h : q.InBounds) (item : α) : (q.push item).toList = q.toList ++ [item] := by
  show ((q.slots.push (some item)).toList.drop q.head).filterMap id = _
  rw [Array.toList_push, drop_append_of_le_length h, filterMap_append]
  rfl

/-! ## Dropping empty slots -/

theorem InBounds.compact (h : q.InBounds) : q.compact.InBounds := by
  unfold WorkQueue.compact
  split
  · exact Nat.zero_le _
  · split
    · exact Nat.zero_le _
    · exact h

theorem toList_compact (q : WorkQueue α) : q.compact.toList = q.toList := by
  unfold compact
  split
  case isTrue hend => rw [toList_eq_nil (q := q) (by simp [length, hend])]; rfl
  case isFalse =>
    split
    · simp [toList, Array.toList_extract, take_of_length_le]
    · rfl

/-! ## Taking -/

theorem drain_eq (h : q.InBounds) (max : Nat) : ∃ stop slots, q.head ≤ stop ∧ stop ≤ slots.size ∧
      slots.toList.drop stop = q.slots.toList.drop stop ∧
      q.drain max = (((q.slots.toList.drop q.head).take (stop - q.head)).filterMap id,
        compact { q with slots, head := stop }) := by
  have hstop : q.head ≤ min q.slots.size (q.head + max) := Nat.le_min.mpr ⟨h, Nat.le_add_right _ _⟩
  have hsize : min q.slots.size (q.head + max) ≤ q.slots.size := Nat.min_le_left _ _
  obtain ⟨stop, heq⟩ : ∃ stop, min q.slots.size (q.head + max) = stop := ⟨_, rfl⟩
  rw [heq] at hstop hsize
  refine ⟨stop, q.slots.extract 0 q.head ++ Array.replicate (stop - q.head) none ++
    q.slots.extract stop, hstop, ?_, ?_, ?_⟩
  · simp only [Array.size_append, Array.size_extract, Array.size_replicate]
    omega
  · have hlength : (q.slots.extract 0 q.head ++ Array.replicate (stop - q.head) none).size = stop := by
      simp only [Array.size_append, Array.size_extract, Array.size_replicate]
      omega
    rw [Array.toList_append, drop_left' hlength, Array.toList_extract,
      extract_eq_take_drop, take_of_length_le]
    simp
  · unfold drain
    rw [heq]
    dsimp only
    rw [Array.toList_extract, extract_eq_take_drop]

theorem InBounds.drain (h : q.InBounds) (max : Nat) : (q.drain max).2.InBounds := by
  obtain ⟨stop, slots, -, hsize, -, heq⟩ := drain_eq h max
  rw [heq]
  exact InBounds.compact hsize

theorem drain_append (h : q.InBounds) (max : Nat) : (q.drain max).1 ++ (q.drain max).2.toList = q.toList := by
  obtain ⟨stop, slots, hstop, -, hdrop, heq⟩ := drain_eq h max
  rw [heq, toList_compact, toList, toList, hdrop, ← filterMap_append]
  have hrest : q.slots.toList.drop stop = (q.slots.toList.drop q.head).drop (stop - q.head) := by
    rw [drop_drop, Nat.add_sub_cancel' hstop]
  rw [hrest, take_append_drop]

/-! ## Queues without empty slots among the pending items -/

def Full (q : WorkQueue α) : Prop := ∃ items : List α, q.slots.toList.drop q.head = items.map some

theorem full_empty : Full ({} : WorkQueue α) := ⟨[], rfl⟩

theorem Full.slots_eq (h : q.Full) : q.slots.toList.drop q.head = q.toList.map some := by
  obtain ⟨items, heq⟩ := h
  rw [toList, heq, filterMap_map]
  exact congrArg (List.map some) filterMap_some.symm

theorem Full.length_eq (h : q.Full) : q.length = q.toList.length := by
  have hlength := congrArg List.length h.slots_eq
  rw [length_drop, length_map, Array.length_toList] at hlength
  exact hlength

theorem Full.push (h : q.Full) (hbounds : q.InBounds) (item : α) : (q.push item).Full := by
  refine ⟨q.toList ++ [item], ?_⟩
  show (q.slots.push (some item)).toList.drop q.head = _
  rw [Array.toList_push, drop_append_of_le_length hbounds, h.slots_eq, map_append]
  rfl

theorem Full.compact (h : q.Full) : q.compact.Full := by
  obtain ⟨items, heq⟩ := h
  unfold WorkQueue.compact
  split
  · exact full_empty
  · split
    · refine ⟨items, ?_⟩
      rw [← heq]
      simp [Array.toList_extract, take_of_length_le]
    · exact ⟨items, heq⟩

theorem Full.drain (h : q.Full) (hbounds : q.InBounds) (max : Nat) : (q.drain max).2.Full := by
  obtain ⟨stop, slots, hstop, -, hdrop, heq⟩ := drain_eq hbounds max
  rw [heq]
  refine Full.compact ⟨q.toList.drop (stop - q.head), ?_⟩
  show slots.toList.drop stop = _
  rw [hdrop, map_drop, ← h.slots_eq, drop_drop, Nat.add_sub_cancel' hstop]

theorem Full.drain_fst (h : q.Full) (max : Nat) : (q.drain max).1 = q.toList.take max := by
  have hlength := h.length_eq
  rw [length] at hlength
  show ((q.slots.extract q.head (min q.slots.size (q.head + max))).toList).filterMap id = _
  rw [Array.toList_extract, extract_eq_take_drop, h.slots_eq, ← map_take, filterMap_map,
    show id ∘ some = (some : α → Option α) from rfl, filterMap_some, take_eq_take_iff]
  omega

theorem Full.drain_snd (h : q.Full) (hbounds : q.InBounds) (max : Nat) :
    (q.drain max).2.toList = q.toList.drop max := by
  have happend := drain_append hbounds max
  rw [h.drain_fst] at happend
  exact append_cancel_left (happend.trans (take_append_drop max q.toList).symm)

end Motif.Async.WorkQueue
