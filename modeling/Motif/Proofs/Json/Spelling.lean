import Mathlib.Data.List.TakeWhile
import Motif.Json.Parser

/-!
# Spellings in documents

A document keeps numbers and strings as they are spelled. A number is taken whole if what follows it
cannot go on it, a string that can be decoded is taken up to the quote after it, and whole numbers that
fit 64 bits are read back from their digits.
-/

namespace Motif.Json

open Text.Quoted List

variable {found : List Char × List Char} {cs : List Char} {c : Char} {n : Nat}

/-! ## Numbers -/

/-- What is taken from a text, down to a rest, is spelled with the characters of numbers. -/
def Takes (cs rest : List Char) : Prop := ∃ pre, cs = pre ++ rest ∧ ∀ c ∈ pre, isNumberChar c = true

theorem Takes.refl (cs : List Char) : Takes cs cs := ⟨[], rfl, by simp⟩

theorem Takes.trans {a b c : List Char} (hab : Takes a b) (hbc : Takes b c) : Takes a c := by
  obtain ⟨p, rfl, hp⟩ := hab
  obtain ⟨q, rfl, hq⟩ := hbc
  refine ⟨p ++ q, by simp, fun x hx => ?_⟩
  rcases mem_append.mp hx with hx | hx
  · exact hp x hx
  · exact hq x hx

theorem Takes.cons (hc : isNumberChar c = true) (cs : List Char) : Takes (c :: cs) cs :=
  ⟨[c], rfl, by simpa using hc⟩

theorem takes_spanDigits (h : spanDigits cs = found) : Takes cs found.2 := by
  subst h
  refine ⟨cs.takeWhile isDigit, takeWhile_append_dropWhile.symm, fun c hc => ?_⟩
  rw [isNumberChar, all_eq_true.mp all_takeWhile c hc]
  rfl

theorem takes_spanWhole (h : spanWhole cs = some found) : Takes cs found.2 := by
  unfold spanWhole at h
  split at h
  · cases h
    exact .cons (by decide) _
  · split at h
    · cases h
    · exact takes_spanDigits (Option.some.inj h)

theorem takes_spanFraction (h : spanFraction cs = some found) : Takes cs found.2 := by
  unfold spanFraction at h
  split at h
  · split at h
    · cases h
    · exact (Takes.cons (by decide) _).trans (takes_spanDigits (Option.some.inj h))
  · cases h
    exact .refl _

theorem takes_spanExponent {found : Bool × List Char × List Char} (h : spanExponent cs = some found) :
    Takes cs found.2.2 := by
  unfold spanExponent at h
  split at h
  · next c rest =>
    split at h
    · next hc =>
      have hletter : isNumberChar c = true := by rcases hc with rfl | rfl <;> decide
      refine (Takes.cons hletter rest).trans ?_
      split at h
      next negative rest' hsign =>
      have htakes : Takes rest rest' := by
        split at hsign <;> cases hsign
        · exact .cons (by decide) _
        · exact .cons (by decide) _
        · exact .refl _
      split at h
      · cases h
      · next hdigits =>
        cases h
        exact htakes.trans (takes_spanDigits hdigits)
    · cases h
      exact .refl _
  · cases h
    exact .refl _

theorem takes_spanLiteral {found : Literal × List Char} (h : spanLiteral cs = some found) :
    Takes cs found.2 := by
  unfold spanLiteral at h
  split at h
  next negative cs' hsign =>
  have hcs' : Takes cs cs' := by
    split at hsign <;> cases hsign
    · exact .cons (by decide) _
    · exact .refl _
  simp only [Option.bind_eq_bind, Option.bind_eq_some_iff, Option.pure_def, Option.some.injEq] at h
  obtain ⟨whole, hwhole, fraction, hfraction, exponent, hexponent, rfl⟩ := h
  exact hcs'.trans ((takes_spanWhole hwhole).trans
    ((takes_spanFraction hfraction).trans (takes_spanExponent hexponent)))

theorem isNumberChar_of_literal? {text : String} (h : (literal? text).isSome) :
    ∀ c ∈ text.toList, isNumberChar c = true := by
  unfold literal? at h
  split at h
  · next hspan =>
    obtain ⟨pre, hpre, hall⟩ := takes_spanLiteral hspan
    rw [hpre, append_nil]
    exact hall
  · cases h

def Ends (rest : List Char) : Prop := ∀ c ∈ rest.head?, isNumberChar c = false

theorem Ends.nil : Ends [] := by simp [Ends]

theorem Ends.cons (hc : isNumberChar c = false) (cs : List Char) : Ends (c :: cs) := by
  simpa [Ends] using hc

theorem spanNumber_literal {text : String} (h : (literal? text).isSome) {rest : List Char}
    (hrest : Ends rest) : spanNumber (text.toList ++ rest) = some (text, rest) := by
  have hall := isNumberChar_of_literal? h
  have htake : (text.toList ++ rest).takeWhile isNumberChar = text.toList := by
    rw [takeWhile_append_of_pos hall]
    cases rest with
    | nil => simp
    | cons c cs => simp [hrest c rfl]
  have hdrop : (text.toList ++ rest).dropWhile isNumberChar = rest := by
    rw [dropWhile_append_of_pos hall]
    cases rest with
    | nil => rfl
    | cons c cs => simp [hrest c rfl]
  rw [spanNumber, htake, hdrop, String.ofList_toList, if_pos h]

/-! ## Whole numbers -/

theorem isDigit_of_mem_toDigits (h : c ∈ Nat.toDigits 10 n) : isDigit c = true := by
  have hdigit := Nat.isDigit_of_mem_toDigits (by decide) (by decide) h
  simpa [isDigit, Char.isDigit, Char.le_def] using hdigit

theorem digitValue_digitChar : ∀ d < 10, digitValue (Nat.digitChar d) = d := by decide

theorem toDigits_ten_of_le (h : 10 ≤ n) :
    Nat.toDigits 10 n = Nat.toDigits 10 (n / 10) ++ [Nat.digitChar (n % 10)] :=
  Nat.toDigits_of_base_le (by decide) h

theorem head?_toDigits (h : n ≠ 0) : (Nat.toDigits 10 n).head? ≠ some '0' := by
  induction n using Nat.strongRecOn with
  | ind n ih =>
    by_cases hn : n < 10
    · have hdigit : ∀ d < 10, d ≠ 0 → Nat.digitChar d ≠ '0' := by decide
      rw [Nat.toDigits_of_lt_base hn]
      simpa using hdigit n hn h
    · have hfront := ih (n / 10) (by omega) (by omega)
      rw [toDigits_ten_of_le (by omega)]
      cases hdigits : Nat.toDigits 10 (n / 10) with
      | nil => exact absurd hdigits Nat.toDigits_ne_nil
      | cons d ds => simpa [hdigits] using hfront

theorem spanWhole_toDigits (n : Nat) : spanWhole (Nat.toDigits 10 n) = some (Nat.toDigits 10 n, []) := by
  by_cases hn : n = 0
  · subst hn; rfl
  · have htake : (Nat.toDigits 10 n).takeWhile isDigit = Nat.toDigits 10 n :=
      takeWhile_eq_self_iff.mpr fun _ => isDigit_of_mem_toDigits
    have hdrop : (Nat.toDigits 10 n).dropWhile isDigit = [] :=
      dropWhile_eq_nil_iff.mpr fun _ => isDigit_of_mem_toDigits
    unfold spanWhole
    split
    · next hzero => exact absurd (by rw [hzero]; rfl) (head?_toDigits hn)
    · rw [spanDigits, htake, hdrop]
      split
      · next hnil => exact absurd (congrArg Prod.fst hnil) Nat.toDigits_ne_nil
      · rfl

def wholeLiteral (n : Nat) : Literal where
  negative := false
  whole := Nat.toDigits 10 n
  fraction := []
  exponentNegative := false
  exponent := []
  isFloat := false

theorem literal?_toString (n : Nat) : literal? (toString n) = some (wholeLiteral n) := by
  have htext : (toString n).toList = Nat.toDigits 10 n := by
    rw [Nat.toString_eq_ofList_toDigits, String.toList_ofList]
  have hsign : ∀ cs, Nat.toDigits 10 n ≠ '-' :: cs := by
    intro cs h
    have hminus := isDigit_of_mem_toDigits (c := '-') (n := n) (by rw [h]; exact mem_cons_self)
    exact absurd hminus (by decide)
  have hspan : spanLiteral (Nat.toDigits 10 n) = some (wholeLiteral n, []) := by
    unfold spanLiteral
    split
    next hmatch =>
    split at hmatch
    · next h => exact absurd h (hsign _)
    · cases hmatch
      rw [spanWhole_toDigits]
      rfl
  rw [literal?, htext, hspan]

theorem natOfDigits_toDigits (n : Nat) : natOfDigits (Nat.toDigits 10 n) = n := by
  induction n using Nat.strongRecOn with
  | ind n ih =>
    by_cases hn : n < 10
    · rw [Nat.toDigits_of_lt_base hn]
      simp [natOfDigits, digitValue_digitChar n hn]
    · have hfront := ih (n / 10) (by omega)
      rw [toDigits_ten_of_le (by omega)]
      rw [natOfDigits] at hfront ⊢
      rw [foldl_append, hfront]
      simp only [foldl_cons, foldl_nil, digitValue_digitChar (n % 10) (by omega)]
      omega

theorem nat?_ofNat (h : n ≤ maxSignificand) : (Json.ofNat n).nat? = some n := by
  simp only [ofNat, nat?, literal?_toString, wholeLiteral, natOfDigits_toDigits]
  simp [h]

theorem foldl_addWhole_toDigits (h : n ≤ maxSignificand) :
    (Nat.toDigits 10 n).foldl Scaled.addWhole { significand := 0, power := 0, full := false } =
      { significand := n, power := 0, full := false } := by
  induction n using Nat.strongRecOn with
  | ind n ih =>
    by_cases hn : n < 10
    · rw [Nat.toDigits_of_lt_base hn]
      simp [Scaled.addWhole, digitValue_digitChar n hn, h]
    · have hfront := ih (n / 10) (by omega) (by omega)
      have hnext : n / 10 * 10 + n % 10 = n := by omega
      rw [toDigits_ten_of_le (by omega), foldl_append, hfront]
      simp [Scaled.addWhole, digitValue_digitChar (n % 10) (by omega), hnext, h]

theorem float?_ofNat (h : n ≤ maxSignificand) : (Json.ofNat n).float? = some (floatOfNat n) := by
  have hscaled : (wholeLiteral n).scaled = { significand := n, power := 0, full := false } := by
    simp [Literal.scaled, wholeLiteral, foldl_addWhole_toDigits h]
  rw [ofNat, float?, literal?_toString, Option.bind_some, Literal.float?, hscaled]
  rfl

/-! ## Strings -/

theorem spanString_digits {a b d : Char} (h : (hex4? a b c d).isSome) (before cs : List Char) :
    spanString before ('\\' :: 'u' :: a :: b :: c :: d :: cs) =
      spanString (d :: c :: b :: a :: 'u' :: '\\' :: before) cs := by
  rw [spanString, if_pos h]

theorem spanString_letter (h : (shortEscape? c).isSome) (before cs : List Char) :
    spanString before ('\\' :: c :: cs) = spanString (c :: '\\' :: before) cs := by
  have hu : c ≠ 'u' := by rintro rfl; cases h
  rw [spanString.eq_def]
  split <;> grind

theorem spanString_plain (h : ¬(c = '\\' ∨ c = '"' ∨ c.toNat < 32)) (before cs : List Char) :
    spanString before (c :: cs) = spanString (c :: before) cs := by
  rw [spanString.eq_def]
  split <;> grind

theorem spanString_of_decodeOnto {done found : List Char} (h : decodeOnto done cs = some found)
    (before rest : List Char) :
    spanString before (cs ++ '"' :: rest) = some (String.ofList (before.reverse ++ cs), rest) := by
  fun_induction decodeOnto done cs generalizing before with
  | case1 => simp [spanString]
  | case3 _ _ _ _ _ _ hhigh _ _ _ _ _ _ _ hlow _ ih =>
    simp only [cons_append]
    rw [spanString_digits (Option.isSome_of_eq_some hhigh),
      spanString_digits (Option.isSome_of_eq_some hlow), ih h]
    simp
  | case8 _ _ _ _ _ _ _ hhex _ _ ih =>
    simp only [cons_append]
    rw [spanString_digits (Option.isSome_of_eq_some hhex), ih h]
    simp
  | case9 _ _ _ _ _ hletter ih =>
    simp only [cons_append]
    rw [spanString_letter (Option.isSome_of_eq_some hletter), ih h]
    simp
  | case12 _ _ _ _ _ hplain ih =>
    rw [cons_append, spanString_plain hplain, ih h]
    simp
  | _ => cases h

theorem spanString_of_decode? {escaped : String} (h : (decode? escaped).isSome) (rest : List Char) :
    spanString [] (escaped.toList ++ '"' :: rest) = some (escaped, rest) := by
  rw [decode?, Option.isSome_map] at h
  obtain ⟨found, hfound⟩ := Option.isSome_iff_exists.mp h
  rw [spanString_of_decodeOnto hfound]
  simp

end Motif.Json
