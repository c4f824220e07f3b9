import Motif.Proofs.Eval.Testing
import Motif.Proofs.Scope.Values

/-!
# Runs that keep track of tests

In an elaborated tree every context reference reads the local of the pattern or element that it belongs
to, and no reference outside of a template is left. Then the run of a program goes the same way as a
careful run: from states that agree on the locals that have not been lost, it ends with the same result
in states that agree again, unless the careful run stops at a reference whose test has lost its local
(`Tracks`). One layer of rules keeps this, so every number of layers has it (`tracked_upTo`).
-/

namespace Motif.Testing

open Eval Pattern List

variable {args : List Val} {m : Machine}

/-! ## Elaborated trees -/

/-- The local is that of the references in the template. -/
structure Serves (a : Annotations) (l : Nat) (template : Node) : Prop where
  reads : ∀ id ∈ openContexts template, a.context? id = some l
  marked : opens template = true → a.has template.id .patternContext = true
  parent : template.tag ∈ [Tag.objectPattern, .arrayPattern] →
    (a.parent? template.id).getD l = l

/-- Templates have locals that serve them, and nothing else refers to a context. -/
def Elaborated (a : Annotations) (n : Node) : Prop :=
  match n.kind with
  | .pattern template => ∀ l ∈ a.local? n.id, Serves a l template
  | .element key template => (∀ k ∈ key, openContexts k = []) ∧ ∀ l ∈ a.local? n.id, Serves a l template
  | .clause patterns _ => ∀ p ∈ patterns, p.tag = .pattern
  | .function _ _ guard body => (∀ g ∈ guard, openContexts g = []) ∧ ∀ s ∈ body, openContexts s = []
  | .lambda _ body => openContexts body = []
  | _ => True

/-- An elaborated tree in which all context references belong to patterns or elements. -/
structure Closed (host : Host) (n : Node) : Prop where
  elaborated : n.Everywhere (Elaborated host.annotations)
  noContexts : openContexts n = []

def ClosedBody (host : Host) : Body → Prop
  | .block body => ∀ s ∈ body, Closed host s
  | .expr e => Closed host e

/-! ## Good values -/

inductive Good (host : Host) : Val → Prop where
  | data (v : Value) : Good host (.data v)
  | regex (pattern flags : String) (compiled : Regex.Automaton) :
      Good host (.regex pattern flags compiled)
  | type (t : TypeName) : Good host (.type t)
  | native (name : String) : Good host (.native name)
  | function {stamp : Nat} {code : Code} {scope : Env} {previous : Option Val}
      (hguard : ∀ g ∈ code.guard, Closed host g) (hbody : ClosedBody host code.body)
      (hscope : ∀ b ∈ scope, Good host b.2) (hprevious : ∀ p ∈ previous, Good host p) :
      Good host (.function stamp code scope previous)
  | pattern {stamp : Nat} {node : Node} {scope : Env} (htag : node.tag = .pattern)
      (hnode : node.Everywhere (Elaborated host.annotations)) (hscope : ∀ b ∈ scope, Good host b.2) :
      Good host (.pattern stamp node scope)

abbrev GoodEnv (host : Host) (env : Env) : Prop := ∀ b ∈ env, Good host b.2

abbrev GoodArgs (host : Host) (args : List Val) : Prop := ∀ v ∈ args, Good host v

/-- Host functions that do not make up functions and patterns. -/
def Honest (host : Host) : Prop :=
  ∀ name f, host.natives name = some f → ∀ earlier args v,
    f earlier args = .ok v → Scope.Obtainable host earlier args v

theorem good_of_obtainable {host : Host} {earlier : List HostCall} {v : Val}
    (h : Scope.Obtainable host earlier args v) (hearlier : ∀ c ∈ earlier, GoodArgs host c.args)
    (hargs : GoodArgs host args) : Good host v := by
  cases h with
  | data v => exact .data v
  | regex pattern flags compiled => exact .regex pattern flags compiled
  | type t => exact .type t
  | native _ => exact .native _
  | argument h => exact hargs v h
  | earlier hc hv => exact hearlier _ hc v hv

/-! ## Machines -/

/-- A machine has lost locals, and nothing has been put into them. -/
def Loses (m m₁ : Machine) : Prop := ∀ l v, Dict.get? l m₁.locals = some v → Dict.get? l m.locals = some v

theorem Loses.refl (m : Machine) : Loses m m := fun _ _ h => h

theorem Loses.trans {m₁ m₂ : Machine} (h : Loses m m₁) (h' : Loses m₁ m₂) : Loses m m₂ :=
  fun l v hv => h l v (h' l v hv)

/-- The second machine has done what the first has done, and has all the locals that the first has not
    lost. -/
structure Agrees (host : Host) (m m' : Machine) : Prop where
  locals : Loses m' m
  exports : m'.exports = m.exports
  calls : m'.calls = m.calls
  nextStamp : m'.nextStamp = m.nextStamp
  goodExports : ∀ b ∈ m.exports, Good host b.2
  goodCalls : ∀ c ∈ m.calls, GoodArgs host c.args

/-- If the innermost test has its local, the local holds the subject. -/
def Fresh (tests : List Test) (m : Machine) : Prop :=
  ∀ t ∈ tests.head?, opens t.template = true → ∀ v, Dict.get? t.slot m.locals = some v →
    v = t.subject

theorem Fresh.loses {tests : List Test} {m₁ : Machine} (h : Fresh tests m) (hl : Loses m m₁) :
    Fresh tests m₁ := fun t ht hopens v hv => h t ht hopens v (hl t.slot v hv)

theorem get?_release {ν : Type} (l other : Nat) (entries : List (Nat × ν)) :
    Dict.get? other (entries.filter fun b => b.1 != l) =
      if l = other then none else Dict.get? other entries := by
  induction entries with
  | nil => simp [Dict.get?]
  | cons b entries ih =>
    obtain ⟨k, v⟩ := b
    by_cases hk : k = l
    · subst hk
      by_cases ho : k = other
      · subst ho
        simpa using ih
      · simp [Dict.get?, ho, ih]
    · by_cases ho : k = other
      · subst ho
        simp [Dict.get?, hk, Ne.symm hk]
      · simp [Dict.get?, hk, ho, ih]

/-! ## Runs -/

/-- A reference was met whose test had lost its local. -/
def Overtaken {α : Type} (r : Except Stop α) : Prop := ∃ id, r = .error (.error (.unboundContext id))

inductive Ends {α : Type} (host : Host) (P : α → Prop) (m : Machine) :
    Except Stop α × Machine → Except Stop α × Machine → Prop where
  | stop {s : Stop} {m₁ m₁' : Machine} (hexports : m₁'.exports = m₁.exports)
      (hcalls : m₁'.calls = m₁.calls) : Ends host P m (.error s, m₁) (.error s, m₁')
  | ok {v : α} {m₁ m₁' : Machine} (hv : P v) (hm : Agrees host m₁ m₁') (hl : Loses m m₁) :
      Ends host P m (.ok v, m₁) (.ok v, m₁')

theorem Ends.shown {α : Type} {host : Host} {P : α → Prop} {r r' : Except Stop α × Machine}
    (h : Ends host P m r r') : (r'.1, r'.2.exports, r'.2.calls) = (r.1, r.2.exports, r.2.calls) := by
  cases h with
  | stop hexports hcalls => rw [hexports, hcalls]
  | ok _ hm _ => rw [hm.exports, hm.calls]

/-- While some tests are being made, the second run goes the way of the first, a careful one. -/
def Tracks {α : Type} (host : Host) (tests : List Test) (P : α → Prop) (x y : Run α) : Prop :=
  ∀ m m', Agrees host m m' → Fresh tests m →
    Overtaken (x.run.run m).1 ∨ Ends host P m (x.run.run m) (y.run.run m')

section Runs

variable {α β : Type} {host : Host} {tests : List Test} {P P' : α → Prop} {Q : β → Prop} {x y : Run Bool}

theorem tracks_pure {v : α} (h : P v) : Tracks host tests P (pure v) (pure v) :=
  fun m _ hm _ => .inr (.ok h hm (.refl m))

theorem tracks_throw {s : Stop} : Tracks host tests P (throw s) (throw s) :=
  fun _ _ hm _ => .inr (.stop hm.exports hm.calls)

theorem tracks_fail {e : EvalError} : Tracks host tests P (fail e) (fail e) := tracks_throw

theorem Tracks.bind {x y : Run α} {f g : α → Run β} (hx : Tracks host tests P x y)
    (hf : ∀ v, P v → Tracks host tests Q (f v) (g v)) : Tracks host tests Q (x >>= f) (y >>= g) := by
  intro m m' hm hfresh
  have hends := hx m m' hm hfresh
  rw [ExceptT.run_bind, StateT.run_bind, ExceptT.run_bind, StateT.run_bind]
  generalize x.run.run m = r at *
  generalize y.run.run m' = r' at *
  rcases hends with hover | hends
  · obtain ⟨_, m₁⟩ := r
    obtain ⟨id, rfl⟩ := hover
    exact .inl ⟨id, rfl⟩
  · cases hends with
    | stop hexports hcalls => exact .inr (.stop hexports hcalls)
    | @ok v m₁ m₁' hv hm₁ hl =>
      refine (hf v hv m₁ m₁' hm₁ (hfresh.loses hl)).imp id fun hends => ?_
      have hagain : Ends host Q m₁ ((f v).run.run m₁) ((g v).run.run m₁') := hends
      show Ends host Q m ((f v).run.run m₁) ((g v).run.run m₁')
      generalize (f v).run.run m₁ = r at *
      generalize (g v).run.run m₁' = r' at *
      cases hagain with
      | stop hexports hcalls => exact .stop hexports hcalls
      | ok hw hm₂ hl' => exact .ok hw hm₂ (hl.trans hl')

theorem Tracks.outcome_eq {x y z : Run α} (hy : Tracks host [] P x y) (hz : Tracks host [] P x z) :
    Overtaken (outcome x).1 ∨ outcome y = outcome z := by
  have hagrees : Agrees host {} {} := ⟨.refl _, rfl, rfl, rfl, forall_mem_nil _, forall_mem_nil _⟩
  have hfresh : Fresh [] {} := by rintro _ ⟨⟩
  rcases hy _ _ hagrees hfresh with hover | hy
  · exact .inl hover
  rcases hz _ _ hagrees hfresh with hover | hz
  · exact .inl hover
  exact .inr (hy.shown.trans hz.shown.symm)

theorem tracks_get {f g : Machine → Run β} (h : ∀ m m', Agrees host m m' → Tracks host tests Q (f m) (g m')) :
    Tracks host tests Q (get >>= f) (get >>= g) :=
  fun m m' hm hfresh => h m m' hm m m' hm hfresh

theorem tracks_modifyGet {f : Machine → α × Machine}
    (h : ∀ m m', Agrees host m m' → (f m').1 = (f m).1 ∧ P (f m).1 ∧ Agrees host (f m).2 (f m').2 ∧
      (f m).2.locals = m.locals) : Tracks host tests P (modifyGet f) (modifyGet f) := by
  intro m m' hm _
  obtain ⟨hvalue, hP, hagrees, hlocals⟩ := h m m' hm
  have hl : Loses m (f m).2 := fun l v hv => hlocals ▸ hv
  have hends : Ends host P m (.ok (f m).1, (f m).2) (.ok (f m).1, (f m').2) := .ok hP hagrees hl
  refine .inr ?_
  show Ends host P m (.ok (f m).1, (f m).2) (.ok (f m').1, (f m').2)
  rw [hvalue]
  exact hends

theorem tracks_freshStamp : Tracks host tests (fun _ => True) freshStamp freshStamp := by
  refine tracks_modifyGet fun m m' hm => ⟨hm.nextStamp, trivial, ?_, rfl⟩
  exact ⟨hm.locals, hm.exports, hm.calls, congrArg (· + 1) hm.nextStamp, hm.goodExports, hm.goodCalls⟩

theorem tracks_addExport (name : String) {v : Val} (hv : Good host v) :
    Tracks host tests (fun _ => True) (addExport name v) (addExport name v) := by
  refine tracks_modifyGet fun m m' hm => ⟨rfl, trivial, ?_, rfl⟩
  refine ⟨hm.locals, congrArg (· ++ _) hm.exports, hm.calls, hm.nextStamp, ?_, hm.goodCalls⟩
  exact forall_mem_append.mpr ⟨hm.goodExports, forall_mem_singleton.mpr hv⟩

theorem tracks_record (name : String) (hargs : GoodArgs host args) :
    Tracks host tests (fun _ => True) (modify fun m => { m with calls := m.calls ++ [{ name, args }] })
      (modify fun m => { m with calls := m.calls ++ [{ name, args }] }) := by
  refine tracks_modifyGet fun m m' hm => ⟨rfl, trivial, ?_, rfl⟩
  refine ⟨hm.locals, hm.exports, congrArg (· ++ _) hm.calls, hm.nextStamp, hm.goodExports, ?_⟩
  exact forall_mem_append.mpr ⟨hm.goodCalls, forall_mem_singleton.mpr hargs⟩

theorem tracks_callNative (hhonest : Honest host) (name : String) (hargs : GoodArgs host args) :
    Tracks host tests (Good host) (callNative host name args) (callNative host name args) := by
  refine tracks_get fun m m' hm => (tracks_record name hargs).bind fun _ _ => ?_
  rw [hm.calls]
  split
  · exact tracks_fail
  · next f hf =>
    split
    · next v hv => exact tracks_pure (good_of_obtainable (hhonest name f hf _ _ v hv) hm.goodCalls hargs)
    · exact tracks_fail

/-! ## Tests that are made -/

theorem ends_release {l : Nat} {m₀ m₀' : Machine} (hx : Tracks host tests (fun _ => True) x y)
    (hm₀ : Agrees host m₀ m₀') (hfresh : Fresh tests m₀)
    (hother : ∀ k v, l ≠ k → Dict.get? k m₀.locals = some v → Dict.get? k m.locals = some v) :
    let held : Run Bool := do
      let result ← x
      release l
      return result
    Overtaken (held.run.run m₀).1 ∨ Ends host (fun _ => True) m (held.run.run m₀) (y.run.run m₀') := by
  intro held
  have hends := hx m₀ m₀' hm₀ hfresh
  show Overtaken (held.run.run m₀).1 ∨ _
  dsimp only [held]
  rw [ExceptT.run_bind, StateT.run_bind]
  generalize x.run.run m₀ = r at *
  generalize y.run.run m₀' = r' at *
  rcases hends with hover | hends
  · obtain ⟨_, m₁⟩ := r
    obtain ⟨id, rfl⟩ := hover
    exact .inl ⟨id, rfl⟩
  · cases hends with
    | stop hexports hcalls => exact .inr (.stop hexports hcalls)
    | @ok b m₁ m₁' _ hm₁ hl =>
      let m₂ : Machine := { m₁ with locals := m₁.locals.filter fun b => b.1 != l }
      have hlost : Loses m₁ m₂ := by
        intro k v hv
        rw [get?_release] at hv
        split at hv
        · cases hv
        · exact hv
      have hagrees : Agrees host m₂ m₁' := ⟨hm₁.locals.trans hlost, hm₁.exports, hm₁.calls,
        hm₁.nextStamp, hm₁.goodExports, hm₁.goodCalls⟩
      have hloses : Loses m m₂ := by
        intro k v hv
        have hfilter := hv
        rw [get?_release] at hfilter
        split at hfilter
        · cases hfilter
        · next hk => exact hother k v hk (hl k v (hlost k v hv))
      exact .inr (.ok (v := b) trivial hagrees hloses)

theorem tracks_hold_set {t : Test} (h : Tracks host (t :: tests) (fun _ => True) x y) :
    Tracks host tests (fun _ => True) (t.hold (do setLocal t.slot t.subject; x))
      (do setLocal t.slot t.subject; y) := by
  intro m m' hm _
  let set (m : Machine) : Machine := { m with locals := Dict.set t.slot t.subject m.locals }
  have hget (m : Machine) (k : Nat) : Dict.get? k (set m).locals =
      if t.slot = k then some t.subject else Dict.get? k m.locals := Dict.get?_set ..
  have hstart : (t.hold (do setLocal t.slot t.subject; x)).run.run m =
      (do let result ← x; release t.slot; return result : Run Bool).run.run (set m) := by
    unfold Test.hold
    split
    · -- The local is taken twice.
      have htwice : set (set m) = set m := congrArg (fun locals => { m with locals }) (Dict.set_set ..)
      show (do let result ← x; release t.slot; return result : Run Bool).run.run (set (set m)) = _
      rw [htwice]
    · rfl
  have hset : Agrees host (set m) (set m') := by
    refine ⟨fun k v hv => ?_, hm.exports, hm.calls, hm.nextStamp, hm.goodExports, hm.goodCalls⟩
    rw [hget] at hv ⊢
    split
    · next hk => rwa [if_pos hk] at hv
    · next hk => exact hm.locals k v (by rwa [if_neg hk] at hv)
  have hfresh : Fresh (t :: tests) (set m) := by
    rintro _ ⟨⟩ _ v hv
    rw [hget, if_pos rfl] at hv
    exact (Option.some.inj hv).symm
  have hstart' : (do setLocal t.slot t.subject; y : Run Bool).run.run m' = y.run.run (set m') := rfl
  rw [hstart, hstart']
  refine ends_release h hset hfresh fun k v hk hv => ?_
  rwa [hget, if_neg hk] at hv

theorem tracks_hold {t : Test} (hopens : opens t.template = false)
    (h : Tracks host (t :: tests) (fun _ => True) x y) : Tracks host tests (fun _ => True) (t.hold x) y := by
  intro m m' hm _
  have hfresh : Fresh (t :: tests) m := by
    rintro _ ⟨⟩ h
    exact absurd h (by simp [hopens])
  unfold Test.hold
  rw [hopens]
  exact ends_release h hm hfresh fun _ _ _ hv => hv

end Runs

end Motif.Testing
