import Motif.Text.Quoted

/-!
# Quoted text, read back

`encode` chooses one of the spellings that `decode?` accepts for a character, and `decode?` undoes it.
-/

namespace Motif.Text.Quoted

theorem hexValue?_hexDigit : ∀ d < 16, hexValue? (hexDigit d) = some d := by decide

/-- How a character is written: as itself, behind a backslash by one letter, or as four digits. -/
inductive Escaped (c : Char) : List Char → Prop where
  | plain (hquote : c ≠ '"') (hslash : c ≠ '\\') (hcontrol : 32 ≤ c.toNat) : Escaped c [c]
  | letter {d : Char} (hd : shortEscape? d = some c) (hu : d ≠ 'u') : Escaped c ['\\', d]
  | digits {a b d e : Char} (hdigits : hex4? a b d e = some c.toNat) (hcontrol : c.toNat < 32) :
    Escaped c ['\\', 'u', a, b, d, e]

theorem escaped_escape (c : Char) : Escaped c (escape c) := by
  unfold escape
  split
  · exact .letter rfl (by decide)
  · exact .letter rfl (by decide)
  · exact .letter rfl (by decide)
  · exact .letter rfl (by decide)
  · exact .letter rfl (by decide)
  · next hquote hslash _ _ _ =>
    split
    · next h8 =>
      have hc : c = Char.ofNat 8 := by rw [← h8, Char.ofNat_toNat]
      exact .letter (by rw [hc]; rfl) (by decide)
    · split
      · next h12 =>
        have hc : c = Char.ofNat 12 := by rw [← h12, Char.ofNat_toNat]
        exact .letter (by rw [hc]; rfl) (by decide)
      · split
        · next h32 =>
          have hhigh := hexValue?_hexDigit (c.toNat / 16) (by omega)
          have hlow := hexValue?_hexDigit (c.toNat % 16) (by omega)
          have hzero : hexValue? '0' = some 0 := by decide
          refine .digits ?_ h32
          simp only [hex4?, hzero, hhigh, hlow, Option.bind_eq_bind, Option.bind_some, Option.pure_def,
            Option.some.injEq]
          omega
        · next h32 => exact .plain (fun h => hquote h) (fun h => hslash h) (by omega)

theorem Escaped.decodeOnto {c : Char} {cs : List Char} (h : Escaped c cs) (done rest : List Char) :
    decodeOnto done (cs ++ rest) = decodeOnto (c :: done) rest := by
  cases h with
  | plain hquote hslash hcontrol =>
    rw [List.singleton_append, Quoted.decodeOnto.eq_def]
    split <;> grind
  | @letter d hd hu =>
    show Quoted.decodeOnto done ('\\' :: d :: rest) = _
    rw [Quoted.decodeOnto.eq_def]
    split <;> grind
  | digits hdigits hcontrol =>
    have hhigh : isHighSurrogate c.toNat = false := by simp [isHighSurrogate]; omega
    have hlow : isLowSurrogate c.toNat = false := by simp [isLowSurrogate]; omega
    simp [Quoted.decodeOnto, hdigits, hhigh, hlow]

theorem decodeOnto_flatMap_escape (cs done : List Char) :
    decodeOnto done (cs.flatMap escape) = some (done.reverse ++ cs) := by
  induction cs generalizing done with
  | nil => simp [decodeOnto]
  | cons c cs ih => rw [List.flatMap_cons, (escaped_escape c).decodeOnto, ih]; simp

theorem decode?_encode (s : String) : decode? (encode s) = some s := by
  rw [decode?, encode, String.toList_ofList, decodeOnto_flatMap_escape]
  simp

end Motif.Text.Quoted
