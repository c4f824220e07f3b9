import Mathlib.Data.List.Basic
import Motif.Emit.Monad

/-!
# Ids are handed out once

The ids of names without a dollar sign never clash: not with those of other names, and not with
those handed out before. `Sound` says what the generator keeps true of its table of names while it
works inside one function, and `Written` what a write to a name changes.
-/

namespace Motif.Emit

variable {id name : String}

/-! ## Ids -/

/-- The name has no dollar sign, as the ids of generated code do. -/
def Undecorated (name : String) : Prop := '$' ∉ name.toList

namespace IdAllocator

theorem versionId_eq (name : String) (n : Nat) : (versionId name n = name ∧ n = 0) ∨
      (versionId name n).toList = name.toList ++ '$' :: (toString n).toList := by
  unfold versionId
  split
  · rename_i h
    rw [Bool.and_eq_true, beq_iff_eq] at h
    exact .inl ⟨rfl, h.1⟩
  · right
    simp [String.toList_append]

theorem toList_toString (n : Nat) : (toString n).toList = Nat.toDigits 10 n := by
  rw [Nat.toString_eq_ofList_toDigits, String.toList_ofList]

theorem not_mem_toDigits (n : Nat) : '$' ∉ Nat.toDigits 10 n := by
  intro h
  exact absurd (Nat.isDigit_of_mem_toDigits (by decide) (by decide) h) (by decide)

theorem versionId_inj {a b : String} (ha : Undecorated a) (hb : Undecorated b) {i j : Nat}
    (h : versionId a i = versionId b j) : a = b ∧ i = j := by
  rcases versionId_eq a i with ⟨hi, rfl⟩ | hi <;> rcases versionId_eq b j with ⟨hj, rfl⟩ | hj
  · exact ⟨hi.symm.trans (h.trans hj), rfl⟩
  · rw [← h, hi] at hj
    exact absurd (by rw [hj]; simp) ha
  · rw [h, hj] at hi
    exact absurd (by rw [hi]; simp) hb
  · rw [h, hj, toList_toString, toList_toString,
      List.append_cons_inj_of_notMem hb (not_mem_toDigits j)] at hi
    refine ⟨(String.toList_inj.mp hi.1).symm, ?_⟩
    rw [← Nat.ofDigitChars_ten_toDigits (n := i), ← hi.2.2, Nat.ofDigitChars_ten_toDigits]

end IdAllocator

/-! ## Tables -/

namespace NameTable

theorem get?_insert (name other id : String) (entries : List (String × List String)) :
    (Dict.get? other (insert name id entries)).bind List.head? =
      if other = name then some id else (Dict.get? other entries).bind List.head? := by
  induction entries with
  | nil => by_cases h : other = name <;> simp [insert, Dict.get?, h, Ne.symm]
  | cons entry rest ih =>
    obtain ⟨k, ids⟩ := entry
    unfold insert
    split
    · rename_i hk
      subst hk
      by_cases h : other = k
      · simp [Dict.get?, h]
      · simp [Dict.get?, h, Ne.symm h]
    · rename_i hk
      split
      · by_cases h : other = name
        · simp [Dict.get?, h]
        · simp [Dict.get?, h, Ne.symm h]
      · rw [Dict.get?, Dict.get?]
        split
        · rename_i hother
          subst hother
          rw [if_neg hk]
        · exact ih

theorem current?_push (t : NameTable) (name other id : String) :
    (t.push name id).current? other = if other = name then some id else t.current? other :=
  get?_insert name other id t.versions

end NameTable

/-! ## States of the generator -/

def State.count (s : State) (name : String) : Nat := (Dict.get? name s.ids.versions).getD 0

def State.hoisted (s : State) : List String := (s.frames.head?.getD {}).hoisted

def State.nextId (s : State) (name : String) : String := IdAllocator.versionId name (s.count name)

structure Issued (s : State) (name id : String) : Prop where
  undecorated : Undecorated name
  hoisted : id ∈ s.hoisted
  version : ∃ k < s.count name, id = IdAllocator.versionId name k

/-- The generator is inside one function without parameters and a result slot, and the latest ids of
    names have been handed out to them. -/
structure Sound (s : State) : Prop where
  frame : ∃ f, s.frames = [f] ∧ f.params = [] ∧ f.hasResult = false
  table : ∀ name id, s.names.current? name = some id → Issued s name id

structure Extends (s s' : State) : Prop where
  count : ∀ name, s.count name ≤ s'.count name
  hoisted : ∀ id ∈ s.hoisted, id ∈ s'.hoisted

namespace Extends

variable {s s₁ s₂ : State}

theorem refl (s : State) : Extends s s := ⟨fun _ => Nat.le_refl _, fun _ h => h⟩

theorem trans (h₁ : Extends s s₁) (h₂ : Extends s₁ s₂) : Extends s s₂ where
  count name := Nat.le_trans (h₁.count name) (h₂.count name)
  hoisted id hid := h₂.hoisted id (h₁.hoisted id hid)

theorem issued (h : Extends s s₁) (hid : Issued s name id) : Issued s₁ name id := by
  obtain ⟨k, hk, rfl⟩ := hid.version
  exact ⟨hid.undecorated, h.hoisted _ hid.hoisted, k, Nat.lt_of_lt_of_le hk (h.count name), rfl⟩

end Extends

theorem Issued.ne_nextId {s : State} {other : String} (h : Issued s name id) (hother : Undecorated other) :
    id ≠ s.nextId other := by
  obtain ⟨k, hk, rfl⟩ := h.version
  intro heq
  obtain ⟨rfl, rfl⟩ := IdAllocator.versionId_inj h.undecorated hother heq
  exact Nat.lt_irrefl _ hk

/-- What a write to a name changes: the name has a new id, which is declared. -/
structure Written (s : State) (name : String) (s' : State) : Prop where
  sound : Sound s'
  later : Extends s s'
  current : ∀ other, s'.names.current? other =
    if other = name then some (s.nextId name) else s.names.current? other
  issued : Issued s' name (s.nextId name)

/-- What a read of a name changes: a name without an id is given one. -/
structure Known (s : State) (name id : String) (s' : State) : Prop where
  sound : Sound s'
  later : Extends s s'
  current : s'.names.current? name = some id
  others : ∀ other, other ≠ name → s'.names.current? other = s.names.current? other
  own : ∀ old, s.names.current? name = some old → id = old

theorem Known.keeps {s s' : State} (h : Known s name id s') (other own : String)
    (hown : s.names.current? other = some own) : s'.names.current? other = some own := by
  by_cases hother : other = name
  · subst hother
    rw [h.current, h.own own hown]
  · rw [h.others other hother, hown]

/-! ## Steps of the generator -/

section Steps

variable {α β : Type} {setting : Setting} {s s₁ s₂ : State} {step : Emit α}

/-- A step of the generator succeeds and leads from one state to another. -/
def Emits (setting : Setting) (step : Emit α) (s : State) (a : α) (s' : State) : Prop :=
  (step.run setting).run s = .ok (a, s')

theorem emits_pure (a : α) : Emits setting (pure a) s a s := rfl

theorem Emits.bind {f : α → Emit β} {a : α} {b : β} (hx : Emits setting step s a s₁)
    (hf : Emits setting (f a) s₁ b s₂) : Emits setting (step >>= f) s b s₂ := by
  unfold Emits at *
  rw [ReaderT.run_bind, StateT.run_bind, hx]
  exact hf

theorem emits_get : Emits setting get s s s := rfl

theorem emits_read : Emits setting read s setting s := rfl

theorem emits_modify (f : State → State) : Emits setting (modify f) s () (f s) := rfl

theorem emits_nestedNames {a : α} (h : Emits setting step { s with names := s.names.derive } a s₁) :
    Emits setting (nestedNames step) s a { s₁ with names := s.names } := by
  refine emits_get.bind ((emits_modify _).bind (h.bind ?_))
  exact (emits_modify _).bind (emits_pure a)

theorem emits_inFrame {frame : Frame} {a : α}
    (h : Emits setting step { s with names := s.names.derive, frames := frame :: s.frames } a s₁) :
    Emits setting (inFrame frame step) s (a, s₁.frames.head?.getD {})
      { s₁ with names := s.names, frames := s₁.frames.tail } := by
  unfold inFrame
  let s₂ : State := { s₁ with frames := s₁.frames.tail }
  suffices hstep : Emits setting _ { s with names := s.names.derive } _ s₂ from
    emits_nestedNames hstep
  refine (emits_modify _).bind (h.bind (emits_get.bind ?_))
  exact (emits_modify _).bind (emits_pure _)

theorem emits_newVersion (name : String) : Emits setting (newVersion name) s (s.nextId name)
      { s with ids := (s.ids.version name).2, names := s.names.push name (s.nextId name) } := rfl

theorem count_version (name other : String) (s' : State) (h : s'.ids = (s.ids.version name).2) :
    s'.count other = if other = name then s.count name + 1 else s.count other := by
  unfold State.count
  rw [h, IdAllocator.version]
  dsimp only
  rw [Dict.get?_set]
  by_cases hother : other = name
  · simp [hother]
  · simp [hother, Ne.symm hother]

theorem hoist_eq (f : Frame) (id : String) :
    (f.hoist id).params = f.params ∧ (f.hoist id).hasResult = f.hasResult ∧
      (∀ other ∈ f.hoisted, other ∈ (f.hoist id).hoisted) ∧ (f.params = [] → id ∈ (f.hoist id).hoisted) := by
  unfold Frame.hoist
  split
  · rename_i h
    refine ⟨rfl, rfl, fun _ h => h, fun hparams => ?_⟩
    simpa [hparams] using h
  · exact ⟨rfl, rfl, fun _ h => List.mem_append_left _ h, fun _ => by simp⟩

theorem emits_writeName (setting : Setting) (hs : Sound s) (hname : Undecorated name) :
    ∃ s', Emits setting (writeName name) s (s.nextId name) s' ∧ Written s name s' := by
  obtain ⟨f, hframes, hparams, hresult⟩ := hs.frame
  let s' : State :=
    { s with
      ids := (s.ids.version name).2
      names := s.names.push name (s.nextId name)
      frames := [f.hoist (s.nextId name)] }
  have hemits : Emits setting (writeName name) s (s.nextId name) s' := by
    obtain ⟨constants, ids, names, frames⟩ := s
    dsimp only at hframes
    subst hframes
    rfl
  obtain ⟨hparams', hresult', hmem, hself⟩ := hoist_eq f (s.nextId name)
  have hhoisted : s.hoisted = f.hoisted := by rw [State.hoisted, hframes]; rfl
  have hcurrent (other : String) : s'.names.current? other =
      if other = name then some (s.nextId name) else s.names.current? other :=
    NameTable.current?_push s.names name other (s.nextId name)
  have hlater : Extends s s' := by
    refine ⟨fun other => ?_, fun id hid => hmem id (hhoisted ▸ hid)⟩
    rw [count_version name other s' rfl]
    split
    · rename_i hother
      rw [hother]
      exact Nat.le_succ _
    · exact Nat.le_refl _
  have hissued : Issued s' name (s.nextId name) := by
    refine ⟨hname, hself hparams, s.count name, ?_, rfl⟩
    rw [count_version name name s' rfl, if_pos rfl]
    exact Nat.lt_succ_self _
  refine ⟨s', hemits, ⟨⟨_, rfl, hparams'.trans hparams, hresult'.trans hresult⟩, ?_⟩, hlater,
    hcurrent, hissued⟩
  intro other id hid
  rw [hcurrent] at hid
  split at hid
  · rename_i hother
    cases hid
    exact hother ▸ hissued
  · exact hlater.issued (hs.table other id hid)

theorem emits_readName (setting : Setting) (hs : Sound s) (hname : Undecorated name) :
    ∃ id s', Emits setting (readName name) s id s' ∧ Known s name id s' := by
  cases hcurrent : s.names.current? name with
  | some id =>
    refine ⟨id, s, ?_, hs, .refl s, hcurrent, fun _ _ => rfl, fun old hold => ?_⟩
    · refine emits_get.bind ?_
      rw [hcurrent]
      exact emits_pure id
    · exact Option.some.inj (hcurrent.symm.trans hold)
  | none =>
    obtain ⟨s', hemits, hwritten⟩ := emits_writeName setting hs hname
    refine ⟨s.nextId name, s', ?_, hwritten.sound, hwritten.later, ?_, fun other hother => ?_,
      fun old hold => ?_⟩
    · refine emits_get.bind ?_
      rw [hcurrent]
      exact hemits
    · rw [hwritten.current, if_pos rfl]
    · rw [hwritten.current, if_neg hother]
    · rw [hcurrent] at hold
      cases hold

end Steps

end Motif.Emit
