import Mathlib
import Motif.Emit.Constants
import Motif.Proofs.Emit.Ids
import Motif.Proofs.Tree.Format

/-!
# Literals are known by their texts

Two values with the same text are the same value, bit by bit in their numbers and in the order of their
entries, if the texts of the magnitudes of their finite numbers are those of numbers and tell them apart. So
a constant that is known by the text of a literal stands for one literal only (`script_faithful`). What is
known of the bits of a float (`pack_unpack_of_valid`) comes with no smaller part of Mathlib than all of it.
-/

namespace Motif

open List

variable {x y : Float} {r r' : List Char}

/-! ## Numbers -/

namespace Number

open Float.Model UnpackedFloat

def specials : List Float :=
  [.ofBits 0x7FF8000000000000, .ofBits 0x7FF0000000000000, .ofBits 0xFFF0000000000000]

theorem mem_specials (h : isFinite x = false) : x ∈ specials := by
  have hlt := x.toBits.toNat_lt
  have hexponent : x.toBits.toNat / 2 ^ 52 % 2048 = 2047 := by
    by_contra hne
    simp only [isFinite, parts, Nat.pow_eq] at h
    rw [if_neg hne] at h
    grind
  have hbits : x.toBits.toNat ∈ specials.map (·.toBits.toNat) := by
    by_cases hfraction : x.toBits.toNat % 2 ^ 52 = 0
    · show x.toBits.toNat ∈ [0x7FF8000000000000, 0x7FF0000000000000, 0xFFF0000000000000]
      simp only [mem_cons, not_mem_nil, or_false]
      omega
    · have hnan : x.toBits.toBitVec = packedNaN .binary64 := by
        refine x.toModel.valid.eq_packedNaN (BitVec.eq_of_toNat_eq ?_) fun hzero => hfraction ?_
        · rw [unpackExponent_def, BitVec.extractLsb'_toNat, Nat.shiftRight_eq_div_pow]
          exact hexponent
        · have hzero := congrArg BitVec.toNat hzero
          rw [unpackMantissa_def, BitVec.extractLsb'_toNat, Nat.shiftRight_zero] at hzero
          exact hzero
      rw [← UInt64.toNat_toBitVec, hnan]
      exact mem_cons_self
  obtain ⟨y, hy, heq⟩ := mem_map.mp hbits
  exact Float.toBits_inj.mp (UInt64.toNat_inj.mp heq) ▸ hy

theorem pack_neg {u : UnpackedFloat} (h : u ≠ .notANumber) :
    ∃ s e m, UnpackedFloat.pack .binary64 u = packComponents .binary64 s e m ∧
      UnpackedFloat.pack .binary64 u.neg = packComponents .binary64 (-s) e m := by
  cases u with
  | notANumber => exact absurd rfl h
  | infinity s => exact ⟨s, _, _, rfl, rfl⟩
  | zero s => exact ⟨s, _, _, rfl, rfl⟩
  | finite s m e hm =>
    refine ⟨s, ?_⟩
    simp only [UnpackedFloat.pack, UnpackedFloat.neg]
    split
    · exact ⟨_, _, rfl, rfl⟩
    · split
      · exact ⟨_, _, rfl, rfl⟩
      · exact ⟨_, _, rfl, rfl⟩

theorem unpack_ne_nan (h : isFinite x = true) : x.toModel.unpack ≠ .notANumber := by
  intro hu
  have hbits : x.toBits.toBitVec = _ := (unpack_eq_notANumber_iff_of_valid x.toModel.valid).mp hu
  unfold isFinite parts at h
  rw [← UInt64.toNat_toBitVec, hbits] at h
  exact absurd h (by decide)

theorem neg_injective (hx : isFinite x = true) (hy : isFinite y = true) (h : -x = -y) : x = y := by
  obtain ⟨s, e, m, hu, hneg⟩ := pack_neg (unpack_ne_nan hx)
  obtain ⟨s', e', m', hu', hneg'⟩ := pack_neg (unpack_ne_nan hy)
  have hbits : packComponents .binary64 (-s) e m = packComponents .binary64 (-s') e' m' := by
    rw [← hneg, ← hneg']
    exact congrArg (fun z => z.toBits.toBitVec) h
  have he : e = e' := by simpa using congrArg unpackExponent hbits
  have hm : m = m' := by simpa using congrArg unpackMantissa hbits
  have hs : (-s).toBitVec = (-s').toBitVec := by simpa using congrArg unpackSign hbits
  have hs : s = s' := by
    cases s <;> cases s'
    · rfl
    · exact absurd hs (by decide)
    · exact absurd hs (by decide)
    · rfl
  apply Float.toBits_inj.mp
  apply UInt64.toBitVec_inj.mp
  calc x.toBits.toBitVec
      = UnpackedFloat.pack .binary64 x.toModel.unpack := (pack_unpack_of_valid x.toModel.valid).symm
    _ = UnpackedFloat.pack .binary64 y.toModel.unpack := by rw [hu, hu', hs, he, hm]
    _ = y.toBits.toBitVec := pack_unpack_of_valid y.toModel.valid

end Number

namespace Value

open Json (isDigit isNumberChar)
open Number (parts isFinite text)
open Text.Quoted (quote encode decode?_encode)

def magnitude (x : Float) : Float := if signed x then -x else x

/-- The magnitude of a finite number is spelled with the characters of numbers, a digit first. -/
def Spelled (x : Float) : Prop :=
  isFinite x = true → (text (magnitude x)).toList.head?.any isDigit = true ∧
    (text (magnitude x)).toList.all isNumberChar = true

instance : DecidablePred Spelled := fun _ => inferInstanceAs (Decidable (_ → _))

/-- Finite numbers whose magnitudes are written alike have the same magnitude. -/
def ToldApart (x y : Float) : Prop :=
  isFinite x = true → isFinite y = true → text (magnitude x) = text (magnitude y) → magnitude x = magnitude y

instance : DecidableRel ToldApart := fun _ _ => inferInstanceAs (Decidable (_ → _))

/-! ## Words -/

/-- What is in no word. All but the last can follow a value in a text. -/
def stops : List Char := [',', ']', ' ', ')', '(']

def Stops (r : List Char) : Prop := ∀ c ∈ r.head?, c ∈ stops

theorem Stops.cons {c : Char} (hc : c ∈ stops) (r : List Char) : Stops (c :: r) := by
  simpa [Stops] using hc

/-- Which of the constructors a character begins; a closing bracket begins none. -/
def opened (c : Char) : Nat :=
  if isDigit c then 3 else if c = 'u' then 0 else if c = 'n' then 1 else if c = 't' ∨ c = 'f' then 2
  else if c = '"' then 4 else if c = '[' then 5 else if c = '\x7b' then 6 else if c = ']' then 7 else 3

theorem word_append_inj {cs cs' : List Char} (hcs : ∀ c ∈ cs, c ∉ stops) (hcs' : ∀ c ∈ cs', c ∉ stops)
    (hr : Stops r) (hr' : Stops r') (h : cs ++ r = cs' ++ r') : cs = cs' ∧ r = r' := by
  induction cs generalizing cs' with
  | nil =>
    cases cs' with
    | nil => exact ⟨rfl, h⟩
    | cons d ds => exact absurd (hr d (by simp [show r = _ from h])) (hcs' d mem_cons_self)
  | cons c cs ih =>
    cases cs' with
    | nil => exact absurd (hr' c (by simp [show r' = _ from h.symm])) (hcs c mem_cons_self)
    | cons d ds =>
      obtain ⟨rfl, hrest⟩ := cons.inj h
      obtain ⟨rfl, hr⟩ := ih (fun d hd => hcs d (mem_cons_of_mem _ hd))
        (fun d hd => hcs' d (mem_cons_of_mem _ hd)) hrest
      exact ⟨rfl, hr⟩

theorem word_text (h : Spelled x) : ∃ c cs, (text (magnitude x)).toList = c :: cs ∧
    isDigit c = isFinite x ∧ opened c = 3 ∧ ∀ d ∈ c :: cs, d ∉ stops := by
  have hstops : ∀ c ∈ stops, isNumberChar c = false := by simp [stops, isNumberChar, isDigit]
  cases hfinite : isFinite x with
  | false =>
    have htexts : Number.specials.map (fun x => text (magnitude x)) = ["NaN", "Infinity", "Infinity"] := rfl
    have htext := htexts ▸ mem_map_of_mem (Number.mem_specials hfinite)
    simp only [mem_cons, not_mem_nil, or_false, or_self] at htext
    rcases htext with htext | htext
    · rw [htext]
      exact ⟨'N', "aN".toList, rfl, rfl, rfl, by simp [stops]⟩
    · rw [htext]
      exact ⟨'I', "nfinity".toList, rfl, rfl, rfl, by simp [stops]⟩
  | true =>
    obtain ⟨hhead, hall⟩ := h hfinite
    cases hcs : (text (magnitude x)).toList with
    | nil => simp [hcs] at hhead
    | cons c cs =>
      rw [hcs] at hhead hall
      have hc : isDigit c = true := by simpa using hhead
      refine ⟨c, cs, rfl, hc, if_pos hc, fun d hd hstop => ?_⟩
      have hnumber := all_eq_true.mp hall d hd
      rw [hstops d hstop] at hnumber
      cases hnumber

theorem eq_of_text (hx : Spelled x) (hy : Spelled y) (happart : ToldApart x y) (hsign : signed x = signed y)
    (h : text (magnitude x) = text (magnitude y)) : x = y := by
  obtain ⟨c, cs, hcs, hc, -⟩ := word_text hx
  obtain ⟨d, ds, hds, hd, -⟩ := word_text hy
  have hspecial : ∀ x ∈ Number.specials, ∀ y ∈ Number.specials, signed x = signed y →
      text (magnitude x) = text (magnitude y) → x = y := by decide
  have hsame : isFinite x = isFinite y := by
    rw [h, hds] at hcs
    rw [← hc, ← hd, (cons.inj hcs).1]
  cases hfinite : isFinite x with
  | false => exact hspecial x (Number.mem_specials hfinite) y (Number.mem_specials (hsame ▸ hfinite)) hsign h
  | true =>
    have hmagnitude := happart hfinite (hsame ▸ hfinite) h
    unfold magnitude at hmagnitude
    rw [← hsign] at hmagnitude
    split at hmagnitude
    · exact Number.neg_injective hfinite (hsame ▸ hfinite) hmagnitude
    · exact hmagnitude

theorem number_append_inj (hx : Spelled x) (hy : Spelled y) (happart : ToldApart x y) (hr : Stops r)
    (hr' : Stops r') (h : (numberScript x).toList ++ r = (numberScript y).toList ++ r') : x = y ∧ r = r' := by
  obtain ⟨c, cs, hcs, -, -, hword⟩ := word_text hx
  obtain ⟨d, ds, hds, -, -, hword'⟩ := word_text hy
  have hplain {z : Float} (hz : signed z = false) : numberScript z = text (magnitude z) := by
    simp [numberScript, magnitude, hz]
  have hsigned {z : Float} (hz : signed z = true) (rest : List Char) :
      (numberScript z).toList ++ rest = '(' :: '-' :: ((text (magnitude z)).toList ++ ')' :: rest) := by
    simp [numberScript, magnitude, hz]
  have hboth {r r' : List Char} (hsign : signed x = signed y) (hr : Stops r) (hr' : Stops r')
      (h : (text (magnitude x)).toList ++ r = (text (magnitude y)).toList ++ r') : x = y ∧ r = r' := by
    obtain ⟨htext, hrest⟩ := word_append_inj (hcs ▸ hword) (hds ▸ hword') hr hr' h
    exact ⟨eq_of_text hx hy happart hsign (String.toList_inj.mp htext), hrest⟩
  cases hsx : signed x <;> cases hsy : signed y
  · rw [hplain hsx, hplain hsy] at h
    exact hboth (hsx.trans hsy.symm) hr hr' h
  · rw [hplain hsx, hsigned hsy, hcs] at h
    exact absurd (by simp [(cons.inj h).1, stops]) (hword c mem_cons_self)
  · rw [hsigned hsx, hplain hsy, hds] at h
    exact absurd (by simp [← (cons.inj h).1, stops]) (hword' d mem_cons_self)
  · rw [hsigned hsx, hsigned hsy] at h
    obtain ⟨hxy, hrest⟩ := hboth (hsx.trans hsy.symm) (.cons (by decide) r) (.cons (by decide) r')
      (cons.inj (cons.inj h).2).2
    exact ⟨hxy, (cons.inj hrest).2⟩

theorem quote_append_inj {s t : String} (h : (quote s).toList ++ r = (quote t).toList ++ r') :
    s = t ∧ r = r' := by
  have hspan (u : String) :=
    Json.spanString_of_decode? (show (Text.Quoted.decode? (encode u)).isSome by rw [decode?_encode]; rfl)
  have hrest : (encode s).toList ++ '"' :: r = (encode t).toList ++ '"' :: r' := by simpa [quote] using h
  have hboth : some (encode s, r) = some (encode t, r') := by rw [← hspan s r, ← hspan t r', hrest]
  obtain ⟨hencode, hr⟩ := Prod.mk.inj (Option.some.inj hboth)
  have hdecode := decode?_encode t
  rw [← hencode, decode?_encode] at hdecode
  exact ⟨Option.some.inj hdecode, hr⟩

/-! ## Lists -/

theorem intercalate_toList (t : String) (ts : List String) :
    (", ".intercalate (t :: ts)).toList = t.toList ++ ts.flatMap (',' :: ' ' :: ·.toList) := by
  induction ts generalizing t with
  | nil => simp [String.intercalate_singleton]
  | cons u ts ih =>
    rw [String.intercalate_cons_cons, flatMap_cons, cons_append, cons_append, ← ih u]
    simp

section Lists

variable {α : Type} {write : α → String} {stop : Char}

theorem separated_append_inj {as bs : List α} (hstop : stop ∈ stops) (hcomma : stop ≠ ',')
    (hinj : ∀ a ∈ as, ∀ b ∈ bs, ∀ {r r'}, Stops r → Stops r' →
      (write a).toList ++ r = (write b).toList ++ r' → a = b ∧ r = r')
    (h : (as.map write).flatMap (',' :: ' ' :: ·.toList) ++ stop :: r
      = (bs.map write).flatMap (',' :: ' ' :: ·.toList) ++ stop :: r') : as = bs ∧ r = r' := by
  induction as generalizing bs with
  | nil =>
    cases bs with
    | nil => simpa using h
    | cons b bs => exact absurd (cons.inj h).1 hcomma
  | cons a as ih =>
    cases bs with
    | nil => exact absurd (cons.inj h).1.symm hcomma
    | cons b bs =>
      have hstops (cs : List α) (rest : List Char) :
          Stops ((cs.map write).flatMap (',' :: ' ' :: ·.toList) ++ stop :: rest) := by
        cases cs with
        | nil => exact .cons hstop _
        | cons => exact .cons (by decide) _
      simp only [map_cons, flatMap_cons, cons_append, append_assoc, cons.injEq, true_and] at h
      obtain ⟨rfl, hrest⟩ := hinj a mem_cons_self b mem_cons_self (hstops as r) (hstops bs r') h
      obtain ⟨rfl, hr⟩ := ih (fun a ha b hb => hinj a (mem_cons_of_mem _ ha) b (mem_cons_of_mem _ hb)) hrest
      exact ⟨rfl, hr⟩

theorem joined_append_inj (stop : Char) {as bs : List α} (hstop : stop ∈ stops) (hcomma : stop ≠ ',')
    (hfirst : ∀ a ∈ as ++ bs, ∀ {r r'}, (write a).toList ++ r ≠ stop :: r')
    (hinj : ∀ a ∈ as, ∀ b ∈ bs, ∀ {r r'}, Stops r → Stops r' →
      (write a).toList ++ r = (write b).toList ++ r' → a = b ∧ r = r')
    (h : (", ".intercalate (as.map write)).toList ++ stop :: r
      = (", ".intercalate (bs.map write)).toList ++ stop :: r') : as = bs ∧ r = r' := by
  have htail (a : α) (as : List α) (rest : List Char) :
      (", ".intercalate ((a :: as).map write)).toList ++ rest =
        (write a).toList ++ ((as.map write).flatMap (',' :: ' ' :: ·.toList) ++ rest) := by
    rw [map_cons, intercalate_toList, append_assoc]
  cases as with
  | nil => cases bs with
    | nil => exact ⟨rfl, (cons.inj h).2⟩
    | cons b bs => exact absurd ((htail b bs _).symm.trans h.symm) (hfirst b (by simp))
  | cons a as => cases bs with
    | nil => exact absurd ((htail a as _).symm.trans h) (hfirst a (by simp))
    | cons b bs =>
      refine separated_append_inj hstop hcomma hinj ?_
      rw [htail, htail] at h
      simpa using h

end Lists

/-! ## Values -/

theorem opened_script {v : Value} (h : ∀ x ∈ v.numbers, Spelled x) (r : List Char) :
    ((script v).toList ++ r).head?.map opened = some v.ctorIdx := by
  cases v with
  | number x =>
    obtain ⟨c, cs, hcs, -, hc, -⟩ := word_text (h x (by simp [numbers]))
    rw [script, numberScript]
    rw [magnitude] at hcs
    split
    · simp [opened, isDigit]; rfl
    · next hsign =>
      rw [if_neg hsign] at hcs
      rw [hcs]
      exact congrArg some hc
  | bool b => cases b <;> rfl
  | string s => simp [script, quote, opened, isDigit]; rfl
  | array items => simp [script, opened, isDigit]; rfl
  | object entries => cases entries <;> simp [script, opened, isDigit] <;> rfl
  | _ => rfl

theorem scriptItems_eq_map (items : List Value) : scriptItems items = items.map script := by
  induction items with
  | nil => rfl
  | cons v vs ih => rw [scriptItems, ih, map_cons]

theorem scriptEntries_eq_map (entries : List (String × Value)) :
    scriptEntries entries = entries.map fun entry => quote entry.1 ++ ": " ++ script entry.2 := by
  induction entries with
  | nil => rfl
  | cons entry entries ih => rw [scriptEntries, ih, map_cons]

structure Legible (v w : Value) : Prop where
  left : ∀ x ∈ v.numbers, Spelled x
  right : ∀ y ∈ w.numbers, Spelled y
  apart : ∀ x ∈ v.numbers, ∀ y ∈ w.numbers, ToldApart x y

theorem Legible.mono {v w v' w' : Value} (h : Legible v w) (hv : v'.numbers ⊆ v.numbers)
    (hw : w'.numbers ⊆ w.numbers) : Legible v' w' :=
  ⟨fun x hx => h.left x (hv hx), fun y hy => h.right y (hw hy), fun x hx y hy => h.apart x (hv hx) y (hw hy)⟩

theorem ctorIdx_eq {v w : Value} (hl : Legible v w) (h : (script v).toList ++ r = (script w).toList ++ r') :
    v.ctorIdx = w.ctorIdx :=
  Option.some.inj (by rw [← opened_script hl.left r, h, opened_script hl.right r'])

theorem script_ne_bracket {v : Value} (h : ∀ x ∈ v.numbers, Spelled x) :
    (script v).toList ++ r ≠ ']' :: r' := by
  intro heq
  have hopened := opened_script h r
  rw [heq] at hopened
  cases v <;> cases hopened

theorem script_append_inj {v w : Value} (hl : Legible v w) (hr : Stops r) (hr' : Stops r')
    (h : (script v).toList ++ r = (script w).toList ++ r') : v = w ∧ r = r' := by
  induction v using Value.ind generalizing w r r' with
  | nothing | null =>
    cases w <;> cases ctorIdx_eq hl h
    exact ⟨rfl, append_cancel_left h⟩
  | bool b =>
    cases w <;> cases ctorIdx_eq hl h
    next b' => cases b <;> cases b' <;> simp_all [script]
  | number x =>
    cases w <;> cases ctorIdx_eq hl h
    next y =>
    have hx : x ∈ (number x).numbers := by simp [numbers]
    have hy : y ∈ (number y).numbers := by simp [numbers]
    obtain ⟨rfl, hr⟩ := number_append_inj (hl.left x hx) (hl.right y hy) (hl.apart x hx y hy) hr hr' h
    exact ⟨rfl, hr⟩
  | string s =>
    cases w <;> cases ctorIdx_eq hl h
    obtain ⟨rfl, hr⟩ := quote_append_inj h
    exact ⟨rfl, hr⟩
  | array items ih =>
    cases w <;> cases ctorIdx_eq hl h
    next items' =>
    have hitem {v w : Value} (hv : v ∈ items) (hw : w ∈ items') : Legible v w :=
      hl.mono (fun x hx => mem_itemsNumbers.mpr ⟨v, hv, hx⟩) (fun x hx => mem_itemsNumbers.mpr ⟨w, hw, hx⟩)
    simp only [script, scriptItems_eq_map, String.toList_append, append_assoc] at h
    have hspelled (u : Value) (hu : u ∈ items ++ items') (x : Float) (hx : x ∈ u.numbers) : Spelled x := by
      rcases mem_append.mp hu with hu | hu
      · exact hl.left x (mem_itemsNumbers.mpr ⟨u, hu, hx⟩)
      · exact hl.right x (mem_itemsNumbers.mpr ⟨u, hu, hx⟩)
    obtain ⟨rfl, hr⟩ := joined_append_inj ']' (by decide) (by decide)
      (fun u hu {_ _} => script_ne_bracket (hspelled u hu)) (fun v hv w hw {_ _} => ih v hv (hitem hv hw))
      (append_cancel_left h)
    exact ⟨rfl, hr⟩
  | object entries ih =>
    cases w <;> cases ctorIdx_eq hl h
    next entries' =>
    have hentry : ∀ v ∈ entries, ∀ w ∈ entries', ∀ {r r'}, Stops r → Stops r' →
        (quote v.1 ++ ": " ++ script v.2).toList ++ r = (quote w.1 ++ ": " ++ script w.2).toList ++ r' →
        v = w ∧ r = r' := by
      intro v hv w hw r r' hr hr' h
      simp only [String.toList_append, append_assoc] at h
      obtain ⟨hkey, h⟩ := quote_append_inj h
      have hlegible : Legible v.2 w.2 := hl.mono (fun x hx => mem_entriesNumbers.mpr ⟨v, hv, hx⟩)
        (fun x hx => mem_entriesNumbers.mpr ⟨w, hw, hx⟩)
      obtain ⟨hvalue, hr⟩ := ih v hv hlegible hr hr' (append_cancel_left h)
      exact ⟨Prod.ext hkey hvalue, hr⟩
    cases entries with
    | nil => cases entries' with
      | nil => exact ⟨rfl, append_cancel_left h⟩
      | cons => simp [script] at h
    | cons => cases entries' with
      | nil => simp [script] at h
      | cons =>
        simp only [script, scriptEntries_eq_map, String.toList_append, append_assoc] at h
        obtain ⟨hlist, hr⟩ := joined_append_inj ' ' (by decide) (by decide)
          (fun _ _ {_ _} heq => by simp [quote] at heq) hentry (append_cancel_left h)
        exact ⟨congrArg _ hlist, (cons.inj hr).2⟩

/-! ## Constants -/

open Emit Constants in
theorem intern_spec (text : String) (texts : List String) :
    (intern text texts).2[(intern text texts).1]? = some text ∧ texts <+: (intern text texts).2 := by
  unfold intern
  split
  · next i hi =>
    obtain ⟨hlt, htext, -⟩ := idxOf?_eq_some_iff.mp hi
    exact ⟨by simpa [getElem?_eq_getElem hlt] using htext, prefix_rfl⟩
  · simp

open Emit Constants in
/-- Values with the same text are the same value, if the formatter of numbers tells the magnitudes of finite
    numbers in them apart and spells them as numbers. So the constants for two literals are one constant only if
    the literals are the same value. -/
theorem script_faithful (v w : Value) (hspelled : ∀ x ∈ v.numbers ++ w.numbers, Spelled x)
    (happart : ∀ x ∈ v.numbers, ∀ y ∈ w.numbers, ToldApart x y) : (v.script = w.script → v = w) ∧
      ∀ c c' : Constants, (c.useLiteral v.script).2.literals <+: c'.literals →
        (c'.useLiteral w.script).1 = (c.useLiteral v.script).1 → v = w := by
  obtain ⟨hleft, hright⟩ := forall_mem_append.mp hspelled
  have hend : Stops [] := nofun
  have hinj (h : v.script = w.script) : v = w :=
    (script_append_inj ⟨hleft, hright, happart⟩ hend hend (congrArg (·.toList ++ []) h)).1
  refine ⟨hinj, fun c c' hlater hid => hinj ?_⟩
  obtain ⟨hv, -⟩ := intern_spec v.script c.literals
  obtain ⟨hw, hkept⟩ := intern_spec w.script c'.literals
  have hsame : (intern w.script c'.literals).1 = (intern v.script c.literals).1 := append_toString_inj hid
  rw [hsame] at hw
  obtain ⟨rest, hrest⟩ := hlater.trans hkept
  have hlt := (List.getElem?_eq_some_iff.mp hv).1
  rw [← hrest] at hw
  exact Option.some.inj (hv.symm.trans ((getElem?_append_left hlt).symm.trans hw))

/-- Two lists of the same length that differ in the sign of a zero, with text that could be taken for more. -/
theorem script_faithful_zeros :
    let v : Value := .array [.number 0, .number (-2.5e-7), .object [("a", .string "]\", 1"), ("a", .null)]]
    let w : Value := .array [.number (-0), .number (-2.5e-7), .object [("a", .string "]\", 1"), ("a", .null)]]
    (∀ x ∈ v.numbers ++ w.numbers, Spelled x) ∧ (∀ x ∈ v.numbers, ∀ y ∈ w.numbers, ToldApart x y) ∧
      v.script ≠ w.script := by
  intro v w
  have hspelled : ∀ x ∈ v.numbers ++ w.numbers, Spelled x := by decide
  have happart : ∀ x ∈ v.numbers, ∀ y ∈ w.numbers, ToldApart x y := by decide
  exact ⟨hspelled, happart, fun h => absurd ((script_faithful v w hspelled happart).1 h) (by decide)⟩

end Value

end Motif
