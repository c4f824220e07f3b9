import Mathlib.Data.List.Nodup
import Motif.Dict

/-!
# Association lists, related and merged

Two lists are alike if they have the same keys in the same order and related values; all operations
keep that. Setting keys one list after the other is the same as setting the keys of both at once.
-/

namespace Motif.Dict

open List

variable {κ ν ν' : Type} {l us : List (κ × ν)} {k : κ} {v : ν}

/-! ## Alike lists -/

/-- Dictionaries with the same keys in the same order and related values. -/
inductive Alike (V : ν → ν' → Prop) : List (κ × ν) → List (κ × ν') → Prop where
  | nil : Alike V [] []
  | cons {k v v' l l'} (hv : V v v') (hl : Alike V l l') : Alike V ((k, v) :: l) ((k, v') :: l')

namespace Alike

variable {V : ν → ν' → Prop} {l₁ l₂ : List (κ × ν)} {l₁' l₂' : List (κ × ν')}

theorem refl {V : ν → ν → Prop} (h : ∀ v, V v v) : ∀ l : List (κ × ν), Alike V l l
  | [] => .nil
  | (_, v) :: l => .cons (h v) (refl h l)

theorem append (h₁ : Alike V l₁ l₁') (h₂ : Alike V l₂ l₂') : Alike V (l₁ ++ l₂) (l₁' ++ l₂') := by
  induction h₁ with
  | nil => exact h₂
  | cons hv _ ih => exact .cons hv ih

theorem map {ι : Type} {f : ι → κ × ν} {g : ι → κ × ν'} (is : List ι)
    (h : ∀ i, (f i).1 = (g i).1 ∧ V (f i).2 (g i).2) : Alike V (is.map f) (is.map g) := by
  induction is with
  | nil => exact .nil
  | cons i is ih =>
    have hcons := Alike.cons (k := (f i).1) (h i).2 ih
    rw [map_cons, map_cons, ← Prod.eta (g i), ← (h i).1]
    exact hcons

variable [DecidableEq κ]

theorem get? (h : Alike V l₁ l₁') (key : κ) : Option.Rel V (Dict.get? key l₁) (Dict.get? key l₁') := by
  induction h with
  | nil => exact .none
  | @cons k v v' l l' hv _ ih =>
    unfold Dict.get?
    split
    · exact .some hv
    · exact ih

theorem contains_eq (h : Alike V l₁ l₁') (key : κ) : Dict.contains key l₁' = Dict.contains key l₁ := by
  have hget := h.get? key
  unfold Dict.contains
  generalize Dict.get? key l₁ = v at *
  generalize Dict.get? key l₁' = v' at *
  cases hget <;> rfl

theorem set (h : Alike V l₁ l₁') (key : κ) {v' : ν'} (hv : V v v') :
    Alike V (Dict.set key v l₁) (Dict.set key v' l₁') := by
  induction h with
  | nil => exact .cons hv .nil
  | @cons k w w' l l' hw hl ih =>
    unfold Dict.set
    split
    · exact .cons hv hl
    · exact .cons hw ih

theorem setAll (hu : Alike V l₁ l₁') (h : Alike V l₂ l₂') :
    Alike V (Dict.setAll l₁ l₂) (Dict.setAll l₁' l₂') := by
  unfold Dict.setAll
  induction hu generalizing l₂ l₂' with
  | nil => exact h
  | @cons k w w' l l' hw _ ih => exact ih (h.set k hw)

end Alike

/-! ## Keys -/

variable [DecidableEq κ]

theorem contains_iff : contains k l = true ↔ k ∈ l.map Prod.fst := by
  unfold contains
  induction l with
  | nil => simp [get?]
  | cons e l ih =>
    rw [get?, map_cons, mem_cons, ← ih]
    split
    · rename_i h
      simp [h]
    · rename_i h
      simp [Ne.symm h]

/-! ## Values -/

section Values

variable {P : ν → Prop} {k : κ} {v : ν} {us l : List (κ × ν)}

theorem forall_get? (hl : ∀ u ∈ l, P u.2) (h : get? k l = some v) : P v := by
  induction l with
  | nil => cases h
  | cons e l ih =>
    obtain ⟨he, hl⟩ := forall_mem_cons.mp hl
    rw [get?] at h
    split at h
    · cases h
      exact he
    · exact ih hl h

theorem forall_set (hl : ∀ u ∈ l, P u.2) (hv : P v) : ∀ u ∈ set k v l, P u.2 := by
  induction l with
  | nil => exact forall_mem_singleton.mpr hv
  | cons e l ih =>
    obtain ⟨he, hl⟩ := forall_mem_cons.mp hl
    rw [set]
    split
    · exact forall_mem_cons.mpr ⟨hv, hl⟩
    · exact forall_mem_cons.mpr ⟨he, ih hl⟩

theorem forall_setAll (hu : ∀ u ∈ us, P u.2) (hl : ∀ u ∈ l, P u.2) : ∀ u ∈ setAll us l, P u.2 := by
  induction us generalizing l with
  | nil => exact hl
  | cons u us ih =>
    obtain ⟨hu, hus⟩ := forall_mem_cons.mp hu
    exact ih hus (forall_set hl hu)

end Values

/-! ## Merging -/

@[simp]
theorem setAll_nil (l : List (κ × ν)) : setAll [] l = l := rfl

@[simp]
theorem setAll_cons (u : κ × ν) (us l : List (κ × ν)) : setAll (u :: us) l = setAll us (set u.1 u.2 l) := rfl

theorem set_set (k : κ) (v w : ν) (l : List (κ × ν)) : set k w (set k v l) = set k w l := by
  induction l with
  | nil => simp [set]
  | cons e l ih =>
    by_cases h : e.1 = k
    · simp [set, h]
    · simp [set, h, ih]

theorem set_comm {j : κ} (hkj : k ≠ j) (v w : ν) (h : k ∈ l.map Prod.fst) :
    set k v (set j w l) = set j w (set k v l) := by
  induction l with
  | nil => simp at h
  | cons e l ih =>
    rw [map_cons, mem_cons] at h
    by_cases hk : e.1 = k
    · have hj : e.1 ≠ j := hk ▸ hkj
      simp [set, hk, hkj]
    · have hl : k ∈ l.map Prod.fst := h.resolve_left (Ne.symm hk)
      by_cases hj : e.1 = j
      · simp [set, hj, Ne.symm hkj]
      · simp [set, hk, hj, ih hl]

theorem keys_set (k : κ) (v : ν) (l : List (κ × ν)) :
    (set k v l).map Prod.fst = if k ∈ l.map Prod.fst then l.map Prod.fst else l.map Prod.fst ++ [k] := by
  induction l with
  | nil => simp [set]
  | cons e l ih =>
    by_cases h : e.1 = k
    · simp [set, h]
    · rw [set, if_neg h, map_cons, ih, map_cons]
      by_cases hl : k ∈ l.map Prod.fst
      · rw [if_pos hl, if_pos (mem_cons_of_mem _ hl)]
      · rw [if_neg hl, if_neg]
        · rfl
        · rw [mem_cons, not_or]
          exact ⟨Ne.symm h, hl⟩

theorem mem_keys_set {j : κ} : j ∈ (set k v l).map Prod.fst ↔ j = k ∨ j ∈ l.map Prod.fst := by
  rw [keys_set]
  split
  · rename_i h
    exact ⟨.inr, fun hj => hj.elim (fun heq => heq ▸ h) id⟩
  · rw [mem_append, mem_singleton, or_comm]

theorem mem_keys_setAll {j : κ} :
    j ∈ (setAll us l).map Prod.fst ↔ j ∈ us.map Prod.fst ∨ j ∈ l.map Prod.fst := by
  induction us generalizing l with
  | nil => simp
  | cons u us ih => rw [setAll_cons, ih, mem_keys_set, map_cons, mem_cons, or_left_comm, or_assoc]

theorem mem_keys_set_self (k : κ) (v : ν) (l : List (κ × ν)) : k ∈ (set k v l).map Prod.fst := by
  rw [keys_set]
  split
  · assumption
  · simp

theorem nodup_keys_set (h : (l.map Prod.fst).Nodup) : ((set k v l).map Prod.fst).Nodup := by
  rw [keys_set]
  split
  · exact h
  · rename_i hk
    exact nodup_append.mpr
      ⟨h, nodup_singleton k, fun a ha b hb => by
        rw [mem_singleton.mp hb]
        exact fun hab => hk (hab ▸ ha)⟩

theorem nodup_keys_setAll (h : (l.map Prod.fst).Nodup) : ((setAll us l).map Prod.fst).Nodup := by
  induction us generalizing l with
  | nil => exact h
  | cons u us ih => exact ih (nodup_keys_set h)

theorem setAll_set_of_mem (hu : k ∉ us.map Prod.fst) (hl : k ∈ l.map Prod.fst) :
    setAll us (set k v l) = set k v (setAll us l) := by
  induction us generalizing l with
  | nil => rfl
  | cons u us ih =>
    rw [map_cons, mem_cons, not_or] at hu
    have hmem : k ∈ (set u.1 u.2 l).map Prod.fst := by
      rw [keys_set]
      split
      · exact hl
      · exact mem_append_left _ hl
    rw [setAll_cons, setAll_cons, ← ih hu.2 hmem, set_comm hu.1 _ _ hl]

theorem setAll_of_set (h : (us.map Prod.fst).Nodup) (l : List (κ × ν)) :
    setAll (set k v us) l = set k v (setAll us l) := by
  induction us generalizing l with
  | nil => rfl
  | cons u us ih =>
    rw [map_cons, nodup_cons] at h
    by_cases hk : u.1 = k
    · subst hk
      have hmem : u.1 ∈ (set u.1 u.2 l).map Prod.fst := mem_keys_set_self _ _ _
      rw [set, if_pos rfl, setAll_cons, setAll_cons, ← setAll_set_of_mem h.1 hmem, set_set]
    · rw [set, if_neg hk, setAll_cons, setAll_cons, ih h.2]

theorem setAll_of_setAll {ws : List (κ × ν)} (h : (us.map Prod.fst).Nodup) (l : List (κ × ν)) :
    setAll (setAll ws us) l = setAll ws (setAll us l) := by
  induction ws generalizing us with
  | nil => rfl
  | cons w ws ih => rw [setAll_cons, ih (nodup_keys_set h), setAll_of_set h, setAll_cons]

theorem mem_of_get? {key : κ} {value : ν} {entries : List (κ × ν)}
    (h : get? key entries = some value) : (key, value) ∈ entries := by
  induction entries with
  | nil => cases h
  | cons entry rest ih =>
    obtain ⟨k, v⟩ := entry
    rw [get?] at h
    split at h
    · next hk =>
      cases h
      subst hk
      exact mem_cons_self
    · exact mem_cons_of_mem _ (ih h)

end Motif.Dict
