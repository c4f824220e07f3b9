/-!
# Association lists

A finite map as a list of pairs in which every key stands once. Setting a key replaces its value in
place; a new key goes to the end.
-/

namespace Motif.Dict

variable {κ ν : Type} [DecidableEq κ]

def get? (key : κ) : List (κ × ν) → Option ν
  | [] => none
  | (k, v) :: rest => if k = key then some v else get? key rest

def contains (key : κ) (entries : List (κ × ν)) : Bool := (get? key entries).isSome

def set (key : κ) (value : ν) : List (κ × ν) → List (κ × ν)
  | [] => [(key, value)]
  | (k, v) :: rest => if k = key then (k, value) :: rest else (k, v) :: set key value rest

def setAll (updates entries : List (κ × ν)) : List (κ × ν) :=
  updates.foldl (fun entries update => set update.1 update.2 entries) entries

theorem get?_set (key other : κ) (value : ν) (entries : List (κ × ν)) : get? other (set key value entries) =
      if key = other then some value else get? other entries := by
  induction entries with
  | nil => simp [set, get?]
  | cons entry rest ih =>
    obtain ⟨k, v⟩ := entry
    by_cases hk : k = key
    · subst hk
      by_cases ho : k = other <;> simp [set, get?, ho]
    · by_cases ho : k = other
      · subst ho
        simp [set, get?, hk, Ne.symm hk]
      · simp [set, get?, hk, ho, ih]

end Motif.Dict
