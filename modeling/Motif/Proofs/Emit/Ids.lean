import Motif.Emit.Constants
import Motif.Proofs.Emit.Names
import Motif.TypeName

/-!
# Kinds of ids

Generated code uses ids of several kinds: those of names of the source, temporaries, the locals of
patterns, and those of the constants of a module. All but the first begin with a dollar sign; a letter
after it tells temporaries, locals, literals and cached calls apart, and numbers follow. The id of a
library function is its name behind a dollar sign, and so is that of a name that the host provides.
-/

namespace Motif.Emit

open IdAllocator Constants List

/-! ## Names of the source -/

/-- A name that can be told from ids that are not its own: it is not empty and has no dollar sign. -/
structure Plain (name : String) : Prop where
  nonempty : name ≠ ""
  undecorated : Undecorated name

instance : DecidablePred Undecorated := fun _ => inferInstanceAs (Decidable (¬ _))

instance : DecidablePred Plain := fun name =>
  decidable_of_iff (name ≠ "" ∧ Undecorated name) ⟨fun h => ⟨h.1, h.2⟩, fun h => ⟨h.1, h.2⟩⟩

def IsVersion (id : String) : Prop := ∃ name k, Plain name ∧ id = versionId name k

theorem IsVersion.ne_dollar {id : String} (h : IsVersion id) (rest : String) : id ≠ "$" ++ rest := by
  obtain ⟨name, k, hname, rfl⟩ := h
  intro heq
  have hhead : (versionId name k).toList.head? = name.toList.head? := by
    cases hchars : name.toList with
    | nil => exact absurd (String.toList_eq_nil_iff.mp hchars) hname.nonempty
    | cons c cs =>
      rcases versionId_eq name k with ⟨h, -⟩ | h
      · rw [h, hchars]
      · rw [h, hchars]
        rfl
  rw [heq, String.toList_append] at hhead
  refine hname.undecorated ?_
  exact mem_of_mem_head? (hhead ▸ rfl)

theorem reserved_undecorated : ∀ word ∈ reservedWords, '$' ∉ word.toList := by decide

theorem not_isReserved_versionId (name : String) (k : Nat) : isReserved (versionId name k) = false := by
  unfold versionId
  split
  · next h =>
    rw [Bool.and_eq_true, Bool.not_eq_true'] at h
    exact h.2
  · rw [isReserved, contains_eq_mem, decide_eq_false_iff_not]
    intro hmem
    exact reserved_undecorated _ hmem (by simp [String.toList_append])

/-! ## Numbered ids -/

theorem toString_inj {m n : Nat} (h : toString m = toString n) : m = n := by
  have hdigits : Nat.toDigits 10 m = Nat.toDigits 10 n := by
    rw [← toList_toString, ← toList_toString, h]
  rw [← Nat.ofDigitChars_ten_toDigits (n := m), hdigits, Nat.ofDigitChars_ten_toDigits]

theorem append_toString_inj {s : String} {m n : Nat} (h : s ++ toString m = s ++ toString n) : m = n :=
  toString_inj ((String.append_right_inj s).mp h)

/-- The letter that tells the numbered ids apart. -/
def mark (id : String) : Option Char := id.toList[1]?

@[simp] theorem mark_tempId (n : Nat) : mark (tempId n) = some 't' := by
  simp [mark, tempId, String.toList_append]

@[simp] theorem mark_patternLocal (n : Nat) : mark (patternLocal n) = some 'p' := by
  simp [mark, patternLocal, String.toList_append]

@[simp] theorem mark_literalId (i : Nat) : mark (literalId i) = some 'l' := by
  simp [mark, literalId, String.toList_append]

@[simp] theorem mark_builderId (i : Nat) : mark (builderId i) = some 'b' := by
  simp [mark, builderId, String.toList_append]

/-- The ids that are told from names of the source and of the library by a letter, or that are fixed:
    the library, the context and the exports of a module, and the result slot of a function. -/
inductive Internal : String → Prop where
  | library : Internal "$r"
  | context : Internal "$c"
  | exports : Internal "$x"
  | result : Internal resultId
  | temp (n : Nat) : Internal (tempId n)
  | patternLocal (n : Nat) : Internal (patternLocal n)
  | literal (i : Nat) : Internal (literalId i)
  | builder (i : Nat) : Internal (builderId i)

theorem Internal.not_isVersion {id : String} (h : Internal id) : ¬ IsVersion id := by
  intro hversion
  cases h with
  | library => exact hversion.ne_dollar "r" rfl
  | context => exact hversion.ne_dollar "c" rfl
  | exports => exact hversion.ne_dollar "x" rfl
  | result => exact hversion.ne_dollar "v" rfl
  | temp n => exact hversion.ne_dollar ("t" ++ toString n) (by simp [tempId, ← String.append_assoc])
  | patternLocal n =>
    exact hversion.ne_dollar ("p" ++ toString n) (by simp [Emit.patternLocal, ← String.append_assoc])
  | literal i => exact hversion.ne_dollar ("l" ++ toString i) (by simp [literalId, ← String.append_assoc])
  | builder i => exact hversion.ne_dollar ("b" ++ toString i) (by simp [builderId, ← String.append_assoc])

theorem Internal.of_importId {name : String} (h : Internal (importId name)) :
    name ∈ ["r", "c", "x", "v"] ∨ name.toList.head? ∈ [some 't', some 'p', some 'l', some 'b'] := by
  have hcancel (rest : String) (h : importId name = "$" ++ rest) : name = rest :=
    (String.append_right_inj "$").mp h
  have hletter (letter : String) {n : Nat} {id : String} (hid : importId name = id)
      (h : id = "$" ++ letter ++ toString n) (hne : letter.toList ≠ []) :
      name.toList.head? = letter.toList.head? := by
    rw [hcancel _ (hid.trans (h.trans (String.append_assoc ..))), String.toList_append]
    exact head?_append_of_ne_nil _ hne
  generalize hid : importId name = id at h
  cases h with
  | library => exact .inl (by simp [hcancel "r" hid])
  | context => exact .inl (by simp [hcancel "c" hid])
  | exports => exact .inl (by simp [hcancel "x" hid])
  | result => exact .inl (by simp [hcancel "v" hid])
  | temp n => exact .inr (by simp [hletter "t" hid rfl (by decide)])
  | patternLocal n => exact .inr (by simp [hletter "p" hid rfl (by decide)])
  | literal i => exact .inr (by simp [hletter "l" hid rfl (by decide)])
  | builder i => exact .inr (by simp [hletter "b" hid rfl (by decide)])

theorem importId_inj {a b : String} (h : importId a = importId b) : a = b :=
  (String.append_right_inj "$").mp h

/-! ## Library functions -/

def libraryNames : List String :=
  ["isTrue", "isFalse", "isIn", "isMatch", "sliceArray", "createIterator", "definePattern",
    "createDoBlock", "createGenerator", "awaitValue", "awaitAny", "awaitAll", "emitValue",
    "importModule"] ++ TypeName.all.map TypeName.predicate

theorem predicate_mem_libraryNames (t : TypeName) : t.predicate ∈ libraryNames := by
  refine mem_append_right _ (mem_map_of_mem ?_)
  cases t <;> decide

theorem not_internal_library {name : String} (h : name ∈ libraryNames) : ¬ Internal (importId name) := by
  have hnames : ∀ name ∈ libraryNames, name ∉ ["r", "c", "x", "v"] ∧
      name.toList.head? ∉ [some 't', some 'p', some 'l', some 'b'] := by decide
  intro hinternal
  rcases hinternal.of_importId with hfixed | hletter
  · exact (hnames name h).1 hfixed
  · exact (hnames name h).2 hletter

end Motif.Emit
