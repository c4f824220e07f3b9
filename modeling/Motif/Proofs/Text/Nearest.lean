import Mathlib.Data.List.Basic
import Mathlib.Data.String.Basic
import Motif.Text.Nearest

/-!
# Nearest names are nearest

The edit distance by rows is the one that is defined by taking characters off the front. For a row extends two
texts at their ends, and it does not matter at which end a text is taken apart (`levenshtein_concat`). What is
suggested is the beginning of a ranking.
-/

namespace Motif.Text

open List

/-- The least number of insertions, deletions and substitutions that turn one text into the other, by what is
    done with the first characters. -/
def levenshtein : List Char → List Char → Nat
  | [], ys => ys.length
  | x :: xs, [] => (x :: xs).length
  | x :: xs, y :: ys =>
    min (min (levenshtein xs (y :: ys) + 1) (levenshtein (x :: xs) ys + 1))
      (levenshtein xs ys + if x = y then 0 else 1)
termination_by xs ys => xs.length + ys.length

@[simp] theorem levenshtein_nil_left (ys : List Char) : levenshtein [] ys = ys.length := by
  rw [levenshtein]

@[simp] theorem levenshtein_nil_right (xs : List Char) : levenshtein xs [] = xs.length := by
  cases xs with
  | nil => rw [levenshtein]
  | cons x xs => rw [levenshtein]

theorem levenshtein_cons (x y : Char) (xs ys : List Char) : levenshtein (x :: xs) (y :: ys) =
      min (min (levenshtein xs (y :: ys) + 1) (levenshtein (x :: xs) ys + 1))
        (levenshtein xs ys + if x = y then 0 else 1) := by
  rw [levenshtein]

/-! ## Rows -/

theorem levenshtein_singleton_left (x y : Char) (ys : List Char) : levenshtein [x] (ys ++ [y]) =
      min (min (levenshtein [] (ys ++ [y]) + 1) (levenshtein [x] ys + 1))
        (levenshtein [] ys + if x = y then 0 else 1) := by
  induction ys with
  | nil => simp [levenshtein_cons]
  | cons b ys ih =>
    rw [cons_append, levenshtein_cons x b [] (ys ++ [y]), levenshtein_cons x b [] ys, ih]
    simp only [levenshtein_nil_left, length_append, length_cons, length_nil]
    split <;> split <;> omega

theorem levenshtein_singleton_right (x y : Char) (xs : List Char) : levenshtein (xs ++ [x]) [y] =
      min (min (levenshtein xs [y] + 1) (levenshtein (xs ++ [x]) [] + 1))
        (levenshtein xs [] + if x = y then 0 else 1) := by
  induction xs with
  | nil => simp [levenshtein_cons]
  | cons a xs ih =>
    rw [cons_append, levenshtein_cons a y (xs ++ [x]) [], levenshtein_cons a y xs [], ih]
    simp only [levenshtein_nil_right, length_append, length_cons, length_nil]
    split <;> split <;> omega

/-- The distance by what is done with the last characters. What is done with the first ones is independent of
    that, so both sides have the same nine ways to go. -/
theorem levenshtein_concat (x y : Char) (xs ys : List Char) : levenshtein (xs ++ [x]) (ys ++ [y]) =
      min (min (levenshtein xs (ys ++ [y]) + 1) (levenshtein (xs ++ [x]) ys + 1))
        (levenshtein xs ys + if x = y then 0 else 1) := by
  induction xs generalizing ys with
  | nil => exact levenshtein_singleton_left x y ys
  | cons a xs ihx =>
    induction ys with
    | nil => exact levenshtein_singleton_right x y (a :: xs)
    | cons b ys ihy =>
      have hfirst := ihx (b :: ys)
      simp only [cons_append] at ihy hfirst ⊢
      rw [levenshtein_cons a b (xs ++ [x]) (ys ++ [y]), hfirst, ihy, ihx ys,
        levenshtein_cons a b xs (ys ++ [y]), levenshtein_cons a b (xs ++ [x]) ys, levenshtein_cons a b xs ys]
      simp only [← Nat.add_min_add_right]
      ac_rfl

def extensions (done : List Char) : List Char → List (List Char)
  | [] => []
  | x :: xs => (done ++ [x]) :: extensions (done ++ [x]) xs

theorem rowFrom_eq (c : Char) (source done rest : List Char) :
    rowFrom c (levenshtein (source ++ [c]) done) (levenshtein source done) rest
        ((extensions done rest).map (levenshtein source)) =
      (extensions done rest).map (levenshtein (source ++ [c])) := by
  induction rest generalizing done with
  | nil => rfl
  | cons x rest ih => rw [extensions, map_cons, map_cons, rowFrom, ← levenshtein_concat, ih]

def row (target source : List Char) : List Nat :=
  levenshtein source [] :: (extensions [] target).map (levenshtein source)

theorem nextRow_row (c : Char) (target source : List Char) :
    nextRow c target (row target source) = row target (source ++ [c]) := by
  have hcorner : levenshtein source [] + 1 = levenshtein (source ++ [c]) [] := by simp
  rw [row, nextRow, hcorner, rowFrom_eq, row]

theorem lastRow_row (target source done : List Char) :
    lastRow target source (row target done) = row target (done ++ source) := by
  induction source generalizing done with
  | nil => rw [append_nil, lastRow, foldl_nil]
  | cons c source ih =>
    rw [lastRow, foldl_cons, nextRow_row]
    exact (ih (done ++ [c])).trans (by rw [append_assoc, singleton_append])

theorem row_nil (target : List Char) : row target [] = range (target.length + 1) := by
  have hmap (done rest : List Char) :
      (extensions done rest).map (levenshtein []) = range' (done.length + 1) rest.length := by
    induction rest generalizing done with
    | nil => rfl
    | cons x rest ih => simp [extensions, ih, range'_succ]
  rw [row, hmap, levenshtein_nil_left, range_eq_range', range'_succ]
  rfl

theorem getLast?_row (target source : List Char) :
    (row target source).getLast? = some (levenshtein source target) := by
  have hlast (done rest : List Char) :
      (levenshtein source done :: (extensions done rest).map (levenshtein source)).getLast? =
        some (levenshtein source (done ++ rest)) := by
    induction rest generalizing done with
    | nil => simp [extensions]
    | cons x rest ih => rw [extensions, map_cons, getLast?_cons_cons, ih, append_assoc, singleton_append]
  exact hlast [] target

theorem editDistance_eq (source target : String) :
    editDistance source target = levenshtein source.toList target.toList := by
  rw [editDistance, ← row_nil, lastRow_row, nil_append, getLast?_row]
  rfl

/-! ## The ranking -/

/-- The order of a ranking, by distance and then by text, without ties. -/
def Nearer (a b : Nat × String) : Prop := a.1 < b.1 ∨ a.1 = b.1 ∧ a.2 < b.2

theorem closer_iff {a b : Nat × String} : closer a b = true ↔ a.1 < b.1 ∨ a.1 = b.1 ∧ a.2 ≤ b.2 := by
  simp [closer]

theorem closer_trans (a b c : Nat × String) (h : closer a b = true) (h' : closer b c = true) :
    closer a c = true := by
  rw [closer_iff] at *
  rcases h with h | ⟨h, ht⟩ <;> rcases h' with h' | ⟨h', ht'⟩
  · exact .inl (h.trans h')
  · exact .inl (h' ▸ h)
  · exact .inl (h ▸ h')
  · exact .inr ⟨h.trans h', ht.trans ht'⟩

theorem closer_total (a b : Nat × String) : (closer a b || closer b a) = true := by
  rw [Bool.or_eq_true, closer_iff, closer_iff]
  rcases Nat.lt_trichotomy a.1 b.1 with h | h | h
  · exact .inl (.inl h)
  · exact (le_total a.2 b.2).imp (fun ht => .inr ⟨h, ht⟩) fun ht => .inr ⟨h.symm, ht⟩
  · exact .inr (.inl h)

theorem nearer_iff {a b : Nat × String} : Nearer a b ↔ closer a b = true ∧ a ≠ b := by
  rw [Nearer, closer_iff, Ne, Prod.ext_iff]
  constructor
  · rintro (h | ⟨h, ht⟩)
    · exact ⟨.inl h, fun he => h.ne he.1⟩
    · exact ⟨.inr ⟨h, ht.le⟩, fun he => ht.ne he.2⟩
  · rintro ⟨h | ⟨h, ht⟩, hne⟩
    · exact .inl h
    · exact .inr ⟨h, ht.lt_of_ne fun he => hne ⟨h, he⟩⟩

theorem Nearer.trans_closer {a b c : Nat × String} (h : Nearer a b) (h' : closer b c = true) : Nearer a c := by
  rw [Nearer, closer_iff] at *
  rcases h with h | ⟨h, ht⟩ <;> rcases h' with h' | ⟨h', ht'⟩
  · exact .inl (h.trans h')
  · exact .inl (h' ▸ h)
  · exact .inl (h ▸ h')
  · exact .inr ⟨h.trans h', ht.trans_le ht'⟩

theorem eraseReps_loop_sorted (a : Nat × String) (as acc : List (Nat × String))
    (hsorted : (a :: as).Pairwise fun a b => closer a b = true)
    (hacc : (a :: acc).Pairwise fun a b => Nearer b a) :
    (eraseRepsBy.loop (· == ·) a as acc).Pairwise Nearer ∧
      ∀ x, x ∈ eraseRepsBy.loop (· == ·) a as acc ↔ x ∈ acc ∨ x ∈ a :: as := by
  induction as generalizing a acc with
  | nil =>
    refine ⟨pairwise_reverse.2 hacc, fun x => ?_⟩
    simp [eraseRepsBy.loop, or_comm]
  | cons b as ih =>
    rw [eraseRepsBy.loop]
    by_cases hab : a = b
    · subst hab
      obtain ⟨hpair, hmem⟩ := ih a acc (pairwise_cons.1 hsorted).2 hacc
      simp only [BEq.rfl]
      exact ⟨hpair, fun x => by simp [hmem]⟩
    · have hnear : Nearer a b := nearer_iff.2 ⟨rel_of_pairwise_cons hsorted mem_cons_self, hab⟩
      have hacc' : (b :: a :: acc).Pairwise fun a b => Nearer b a := by
        refine pairwise_cons.2 ⟨fun x hx => ?_, hacc⟩
        rcases mem_cons.1 hx with rfl | hx
        · exact hnear
        · exact (rel_of_pairwise_cons hacc hx).trans_closer (nearer_iff.1 hnear).1
      obtain ⟨hpair, hmem⟩ := ih b (a :: acc) (pairwise_cons.1 hsorted).2 hacc'
      simp only [beq_eq_false_iff_ne.2 hab]
      exact ⟨hpair, fun x => by simp [hmem, or_assoc, or_left_comm]⟩

theorem eraseReps_mergeSort (l : List (Nat × String)) :
    (l.mergeSort closer).eraseReps.Pairwise Nearer ∧ ∀ x, x ∈ (l.mergeSort closer).eraseReps ↔ x ∈ l := by
  have hsorted : (l.mergeSort closer).Pairwise fun a b => closer a b = true :=
    pairwise_mergeSort closer_trans closer_total l
  have hmem (x) : x ∈ l.mergeSort closer ↔ x ∈ l := (mergeSort_perm l closer).mem_iff
  revert hsorted hmem
  rcases l.mergeSort closer with _ | ⟨a, as⟩
  · exact fun _ hmem => ⟨Pairwise.nil, hmem⟩
  · intro hsorted hmem
    obtain ⟨hpair, hiff⟩ := eraseReps_loop_sorted a as [] hsorted (pairwise_singleton _ _)
    exact ⟨hpair, fun x => by rw [← hmem x]; exact (hiff x).trans (by simp)⟩

/-- Computing a distance by rows gives the one that the recursion on both texts defines. And what is suggested
    for a name is the first three of a ranking, by distance and then by text and without repetitions, of just the
    candidates other than the name that are within the bound. -/
theorem suggest_eq_take_ranking (name : String) (candidates : List String) (bound : Nat) :
    (∀ source target, editDistance source target = levenshtein source.toList target.toList) ∧
      ∃ ranked : List String, (ranked.Pairwise fun a b =>
          Nearer (levenshtein name.toList a.toList, a) (levenshtein name.toList b.toList, b)) ∧
        (∀ c, c ∈ ranked ↔ c ∈ candidates ∧ c ≠ name ∧ levenshtein name.toList c.toList ≤ bound) ∧
        suggest name candidates bound = ranked.take 3 := by
  refine ⟨editDistance_eq, ?_⟩
  rw [suggest]
  simp only [editDistance_eq]
  generalize hnear : candidates.filterMap _ = near
  -- Each near candidate comes with its own distance, so a pair is known from its name.
  have hmem (x : Nat × String) : x ∈ near ↔
      x.2 ∈ candidates ∧ x.2 ≠ name ∧ levenshtein name.toList x.2.toList ≤ bound ∧
        x.1 = levenshtein name.toList x.2.toList := by
    rw [← hnear, mem_filterMap]
    constructor
    · rintro ⟨c, hc, h⟩
      split at h
      · nomatch h
      · rename_i hne
        obtain ⟨hd, hx⟩ := Option.ite_none_right_eq_some.1 h
        cases hx
        exact ⟨hc, hne, hd, rfl⟩
    · rintro ⟨hc, hne, hd, hx⟩
      exact ⟨x.2, hc, by rw [if_neg hne, if_pos hd, ← hx]⟩
  obtain ⟨hpair, hiff⟩ := eraseReps_mergeSort near
  refine ⟨(near.mergeSort closer).eraseReps.map Prod.snd, ?_, fun c => ?_, map_take⟩
  · refine pairwise_map.2 (hpair.imp_of_mem fun {a b} ha hb h => ?_)
    have hdist {x} (hx : x ∈ (near.mergeSort closer).eraseReps) :
      (levenshtein name.toList x.2.toList, x.2) = x :=
      Prod.ext ((hmem x).1 ((hiff x).1 hx)).2.2.2.symm rfl
    rwa [hdist ha, hdist hb]
  · simp only [mem_map, hiff, hmem]
    constructor
    · rintro ⟨x, ⟨hc, hne, hd, -⟩, rfl⟩
      exact ⟨hc, hne, hd⟩
    · rintro ⟨hc, hne, hd⟩
      exact ⟨(levenshtein name.toList c.toList, c), ⟨hc, hne, hd, rfl⟩, rfl⟩

end Motif.Text
