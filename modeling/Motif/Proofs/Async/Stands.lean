import Motif.Proofs.Async.Gather

/-!
# Awaiting a collection as a whole

The continuation for a collection stands for it: it never settles before it is clear what it settles with,
and when nothing is left to do it has the array of all values, or the failure of one of the continuations
that the collection is made of, however deep that one is and however often it occurs.
-/

namespace Motif.Async

open List

variable {κ ρ σ : Type} {client : Client κ ρ σ} {s s' : Scene κ ρ σ} {m : Move κ ρ}
  {moves : List (Move κ ρ)} {a : List (Work κ ρ σ)} {w w₀ w₁ : World κ ρ σ}
  {group target index c : Nat} {children : List Nat} {item : Awaitable} {items : List Awaitable} {e : Failure}

/-! ## What a collection is made of -/

mutual

def Awaitable.leaves : Awaitable → List Nat
  | .ready _ => []
  | .pending c => [c]
  | .many items => leavesOf items

/-- The continuations in a collection, in order. -/
def leavesOf : List Awaitable → List Nat
  | [] => []
  | item :: rest => item.leaves ++ leavesOf rest

end

mutual

/-- The value of something, once the continuations that it is made of have values. -/
def Awaitable.value? (w : World κ ρ σ) : Awaitable → Option Value
  | .ready v => some v
  | .pending c => (w.outcome? c).bind Except.toOption
  | .many items => (valuesOf? w items).map .array

def valuesOf? (w : World κ ρ σ) : List Awaitable → Option (List Value)
  | [] => some []
  | item :: rest => (item.value? w).bind fun v => (valuesOf? w rest).map (v :: ·)

end

theorem mem_leavesOf : c ∈ leavesOf items ↔ ∃ item ∈ items, c ∈ item.leaves := by
  induction items with
  | nil => simp [leavesOf]
  | cons item rest ih => simp [leavesOf, ih]

theorem valuesOf?_eq_some {values : List Value} (hlength : items.length = values.length)
    (h : ∀ (index : Nat) item, items[index]? = some item →
      ∃ v, values[index]? = some v ∧ item.value? w = some v) : valuesOf? w items = some values := by
  induction items generalizing values with
  | nil =>
    obtain rfl := eq_nil_of_length_eq_zero hlength.symm
    rfl
  | cons item rest ih =>
    cases values with
    | nil => cases hlength
    | cons v values =>
      obtain ⟨_, hv, hitem⟩ := h 0 item rfl
      obtain rfl := Option.some.inj hv
      have hrest := ih (Nat.succ.inj hlength) fun index item hitem => h (index + 1) item hitem
      rw [valuesOf?, hitem, hrest]
      rfl

mutual

theorem resolved_of_value? : ∀ (item : Awaitable) {v : Value}, item.value? w = some v →
    ∀ c ∈ item.leaves, ∃ v, w.outcome? c = some (.ok v)
  | .ready _, _, _ => forall_mem_nil _
  | .pending c, v, h => by
    refine forall_mem_singleton.mpr ?_
    obtain ⟨outcome, hc, hv⟩ := Option.bind_eq_some_iff.mp h
    cases outcome with
    | error e => cases hv
    | ok v => exact ⟨v, hc⟩
  | .many items, _, h => by
    obtain ⟨values, hvalues, -⟩ := Option.map_eq_some_iff.mp h
    exact resolved_of_valuesOf? items hvalues

theorem resolved_of_valuesOf? : ∀ (items : List Awaitable) {values : List Value},
    valuesOf? w items = some values → ∀ c ∈ leavesOf items, ∃ v, w.outcome? c = some (.ok v)
  | [], _, _ => forall_mem_nil _
  | item :: rest, _, h => by
    obtain ⟨v, hv, hrest⟩ := Option.bind_eq_some_iff.mp h
    obtain ⟨values, hvalues, -⟩ := Option.map_eq_some_iff.mp hrest
    exact forall_mem_append.mpr ⟨resolved_of_value? item hv, resolved_of_valuesOf? rest hvalues⟩

end

/-! ## What stands for what -/

/-- A continuation stands for something that is awaited. It may be that groups of `G` are needed, and that
    continuations of `C` are their targets. -/
inductive Stands (G C : Nat → Prop) (s : Scene κ ρ σ) : Awaitable → Nat → Prop
  | ready {v : Value} {c : Nat} (h : s.world.outcome? c = some (.ok v)) : Stands G C s (.ready v) c
  | pending {c : Nat} : Stands G C s (.pending c) c
  | empty {c : Nat} (h : s.world.outcome? c = some (.ok (.array []))) : Stands G C s (.many []) c
  | many {items : List Awaitable} {children : List Nat} {group c : Nat} (hG : G group) (hC : C c)
    (hgathers : Gathers s group c children) (hlength : items.length = children.length)
    (h : ∀ {index : Nat} {item : Awaitable} {d : Nat}, items[index]? = some item → children[index]? = some d →
      Stands G C s item d) : Stands G C s (.many items) c

variable {G C G' C' : Nat → Prop}

theorem Stands.mono (h : Stands G C s item c) (hG : ∀ group, G group → G' group)
    (hC : ∀ c, C c → C' c) : Stands G' C' s item c := by
  induction h with
  | ready h => exact .ready h
  | pending => exact .pending
  | empty h => exact .empty h
  | many hgroup hc hgathers hlength _ ih => exact .many (hG _ hgroup) (hC _ hc) hgathers hlength ih

theorem Stands.frame (h : Stands G C s item c) (hf : Frame G C s s') : Stands G C s' item c := by
  obtain ⟨xs, hpath, -⟩ := hf.path
  induction h with
  | ready h => exact .ready (hpath.outcome?_of_some h)
  | pending => exact .pending
  | empty h => exact .empty (hpath.outcome?_of_some h)
  | many hgroup hc hgathers hlength _ ih =>
    refine .many hgroup hc (hgathers.frame (hf.mono ?_ ?_)) hlength ih
    · rintro _ rfl
      exact hgroup
    · rintro _ rfl
      exact hc

theorem Stands.step (h : Stands G C s item c) (hs : Sound s) (hm : Moves client s m s')
    (hclient : ∀ c outcome, m = .called (.settle c outcome) → ¬ C c) : Stands G C s' item c := by
  have he := hm.effect hs
  induction h with
  | ready h => exact .ready (he.outcome?_of_some h)
  | pending => exact .pending
  | empty h => exact .empty (he.outcome?_of_some h)
  | many hgroup hc hgathers hlength _ ih =>
    refine .many hgroup hc (hgathers.step hs hm fun outcome hcalled => ?_) hlength ih
    exact hclient _ outcome hcalled hc

/-! ## Outcomes -/

theorem Gathers.ok {v : Value} (h : Gathers s group target children)
    (htarget : s.world.outcome? target = some (.ok v)) :
    ∃ values : List Value, v = .array values ∧ values.length = children.length ∧
      ∀ index c : Nat, children[index]? = some c →
        ∃ v, values[index]? = some v ∧ s.world.outcome? c = some (.ok v) := by
  obtain ⟨g, -, rfl, hopen | hdrained⟩ := h.record
  · rcases hopen.target with hnone | ⟨_, _, _, _, hfailed⟩
    · rw [hnone] at htarget
      cases htarget
    · rw [hfailed] at htarget
      cases htarget
  · obtain ⟨values, hlength, hvalues, hchildren⟩ := hdrained.values
    rw [hvalues] at htarget
    cases htarget
    exact ⟨values, rfl, hlength, hchildren⟩

theorem Gathers.error (h : Gathers s group target children)
    (htarget : s.world.outcome? target = some (.error e)) :
    ∃ d ∈ children, s.world.outcome? d = some (.error e) := by
  obtain ⟨g, -, rfl, hopen | hdrained⟩ := h.record
  · rcases hopen.target with hnone | ⟨d, hd, e', he', hfailed⟩
    · rw [hnone] at htarget
      cases htarget
    · rw [hfailed] at htarget
      cases htarget
      exact ⟨d, hd, he'⟩
  · obtain ⟨values, -, hvalues, -⟩ := hdrained.values
    rw [hvalues] at htarget
    cases htarget

theorem Stands.value? {v : Value} (h : Stands G C s item c) (hc : s.world.outcome? c = some (.ok v)) :
    item.value? s.world = some v := by
  induction h generalizing v with
  | ready h =>
    rw [h] at hc
    cases hc
    rfl
  | pending =>
    rw [Awaitable.value?, hc]
    rfl
  | empty h =>
    rw [h] at hc
    cases hc
    rfl
  | @many items children group c _ _ hgathers hlength _ ih =>
    obtain ⟨values, rfl, hvalues, hchildren⟩ := hgathers.ok hc
    have hitems : valuesOf? s.world items = some values := by
      refine valuesOf?_eq_some (hlength.trans hvalues.symm) fun index item hitem => ?_
      have hlt : index < children.length := hlength ▸ lt_of_getElem? hitem
      obtain ⟨v, hv, hok⟩ := hchildren index _ (getElem?_eq_getElem hlt)
      exact ⟨v, hv, ih hitem (getElem?_eq_getElem hlt) hok⟩
    rw [Awaitable.value?, hitems]
    rfl

theorem Stands.failure (h : Stands G C s item c) (hc : s.world.outcome? c = some (.error e)) :
    ∃ leaf ∈ item.leaves, s.world.outcome? leaf = some (.error e) := by
  induction h with
  | ready h | empty h =>
    rw [h] at hc
    cases hc
  | pending => exact ⟨_, mem_singleton.mpr rfl, hc⟩
  | @many items children group c _ _ hgathers hlength _ ih =>
    obtain ⟨d, hd, hfailed⟩ := hgathers.error hc
    obtain ⟨index, hd⟩ := mem_iff_getElem?.mp hd
    have hlt : index < items.length := hlength ▸ lt_of_getElem? hd
    obtain ⟨leaf, hleaf, hrejected⟩ := ih (getElem?_eq_getElem hlt) hd hfailed
    exact ⟨leaf, mem_leavesOf.mpr ⟨_, getElem_mem hlt, hleaf⟩, hrejected⟩

/-! ## When nothing is left to do -/

theorem Scene.Idle.not_due {callback : Callback κ} {outcome : Outcome} (h : s.Idle)
    (hc : s.world.outcome? c = some outcome) : ¬ s.ledger.Due c callback := by
  intro hdue
  have hnone : s.world.outcome? c = none := hdue.located.outcome?_eq_none h.tasks
  rw [hnone] at hc
  cases hc

theorem Gathers.idle_ok (h : Gathers s group target children) (hidle : s.Idle)
    (hchildren : ∀ d ∈ children, ∃ v, s.world.outcome? d = some (.ok v)) :
    ∃ v, s.world.outcome? target = some (.ok v) := by
  obtain ⟨g, -, rfl, hopen | hdrained⟩ := h.record
  · -- all places are filled, so the group cannot be open
    have hsome : ∀ slot ∈ g.slots, ¬ slot.isNone = true := by
      intro slot hslot
      obtain ⟨index, hslot⟩ := mem_iff_getElem?.mp hslot
      have hlt : index < children.length := hopen.length ▸ lt_of_getElem? hslot
      obtain ⟨v, hok⟩ := hchildren _ (getElem_mem hlt)
      obtain ⟨slot', hslot', hstanding⟩ := hopen.standing (getElem?_eq_getElem hlt)
      obtain rfl := Option.some.inj (hslot.symm.trans hslot')
      cases hstanding with
      | due hdue => exact absurd hdue (hidle.not_due hok)
      | resolved => exact Bool.false_ne_true
      | rejected hfailed =>
        rw [hok] at hfailed
        cases hfailed
    have hzero := hopen.remaining.trans (countP_eq_zero.mpr hsome)
    exact absurd hopen.pos (Nat.not_lt.mpr (Nat.le_of_eq hzero))
  · obtain ⟨values, -, hvalues, -⟩ := hdrained.values
    exact ⟨_, hvalues⟩

theorem Gathers.idle_error {d : Nat} (h : Gathers s group target children) (hidle : s.Idle)
    (hd : d ∈ children) (hfailed : s.world.outcome? d = some (.error e)) :
    ∃ e, s.world.outcome? target = some (.error e) := by
  obtain ⟨g, -, rfl, hopen | hdrained⟩ := h.record
  · obtain ⟨index, hd⟩ := mem_iff_getElem?.mp hd
    obtain ⟨slot, -, hstanding⟩ := hopen.standing hd
    cases hstanding with
    | due hdue => exact absurd hdue (hidle.not_due hfailed)
    | resolved hok =>
      rw [hfailed] at hok
      cases hok
    | rejected _ _ htarget =>
      rcases hopen.target with hnone | ⟨_, _, e', _, htarget'⟩
      · rw [hnone] at htarget
        cases htarget
      · exact ⟨e', htarget'⟩
  · obtain ⟨index, hd⟩ := mem_iff_getElem?.mp hd
    obtain ⟨_, -, -, hchildren⟩ := hdrained.values
    obtain ⟨v, -, hok⟩ := hchildren index d hd
    rw [hfailed] at hok
    cases hok

theorem Stands.idle_ok (h : Stands G C s item c) (hidle : s.Idle)
    (hleaves : ∀ leaf ∈ item.leaves, ∃ v, s.world.outcome? leaf = some (.ok v)) :
    ∃ v, s.world.outcome? c = some (.ok v) := by
  induction h with
  | ready h | empty h => exact ⟨_, h⟩
  | pending => exact hleaves _ (mem_singleton.mpr rfl)
  | @many items children group c _ _ hgathers hlength _ ih =>
    refine hgathers.idle_ok hidle fun d hd => ?_
    obtain ⟨index, hd⟩ := mem_iff_getElem?.mp hd
    have hlt : index < items.length := hlength ▸ lt_of_getElem? hd
    refine ih (getElem?_eq_getElem hlt) hd fun leaf hleaf => ?_
    exact hleaves leaf (mem_leavesOf.mpr ⟨_, getElem_mem hlt, hleaf⟩)

theorem Stands.idle_error {leaf : Nat} (h : Stands G C s item c) (hidle : s.Idle)
    (hleaf : leaf ∈ item.leaves) (hfailed : s.world.outcome? leaf = some (.error e)) :
    ∃ e, s.world.outcome? c = some (.error e) := by
  induction h with
  | ready | empty => cases hleaf
  | pending =>
    obtain rfl := mem_singleton.mp hleaf
    exact ⟨e, hfailed⟩
  | @many items children group c _ _ hgathers hlength _ ih =>
    obtain ⟨item, hitem, hleaf⟩ := mem_leavesOf.mp hleaf
    obtain ⟨index, hitem⟩ := mem_iff_getElem?.mp hitem
    have hlt : index < children.length := hlength ▸ lt_of_getElem? hitem
    obtain ⟨e', hchild⟩ := ih hitem (getElem?_eq_getElem hlt) hleaf
    exact hgathers.idle_error hidle (getElem_mem hlt) hchild

end Motif.Async
