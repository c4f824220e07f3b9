import Motif.Pass.Simplify
import Motif.Proofs.Dict
import Motif.Proofs.Eval.Fuel

/-!
# Loops in loops

A loop over nothing but a loop runs as the loop over the ranges of both does. The inner loop of the two is
run in the scope of an iteration of the outer one, with nothing bound on its own; in the one loop the
inner ranges add to what the outer ones have bound. The two scopes are the same at every level, so the two
runs do the same things in the same order (`Parallel`) and end alike, also where they fail or return. What
is left is fuel: the inner loop is one layer further down.
-/

namespace Motif.Simplify

open Eval

variable {α β γ δ : Type} {p p' : Progress}

/-! ## Runs side by side -/

/-- From every state the two runs end in the same state, with the same error or with related results. -/
def Parallel (P : α → β → Prop) (x : Run α) (y : Run β) : Prop :=
  ∀ m, ∃ m₁, (∃ s, x.run.run m = (.error s, m₁) ∧ y.run.run m = (.error s, m₁)) ∨
    ∃ a b, x.run.run m = (.ok a, m₁) ∧ y.run.run m = (.ok b, m₁) ∧ P a b

namespace Parallel

variable {P : α → β → Prop} {Q : γ → δ → Prop} {x : Run α} {y : Run β} {f : α → Run γ} {g : β → Run δ}

theorem ofPure {a : α} {b : β} (h : P a b) : Parallel P (pure a) (pure b) :=
  fun m => ⟨m, .inr ⟨a, b, rfl, rfl, h⟩⟩

theorem ofFail {e : EvalError} : Parallel P (fail e) (fail e) := fun m => ⟨m, .inl ⟨.error e, rfl, rfl⟩⟩

theorem refl (x : Run α) : Parallel (· = ·) x x := by
  intro m
  rcases hrun : x.run.run m with ⟨s | a, m₁⟩
  · exact ⟨m₁, .inl ⟨s, rfl, rfl⟩⟩
  · exact ⟨m₁, .inr ⟨a, a, rfl, rfl, rfl⟩⟩

theorem bind (hx : Parallel P x y) (hf : ∀ a b, P a b → Parallel Q (f a) (g b)) :
    Parallel Q (x >>= f) (y >>= g) := by
  intro m
  rw [ExceptT.run_bind, StateT.run_bind, ExceptT.run_bind, StateT.run_bind]
  obtain ⟨m₁, ⟨s, hx, hy⟩ | ⟨a, b, hx, hy, hab⟩⟩ := hx m
  · rw [hx, hy]
    exact ⟨m₁, .inl ⟨s, rfl, rfl⟩⟩
  · rw [hx, hy]
    exact hf a b hab m₁

theorem same (x : Run α) {g : α → Run δ} (h : ∀ a, Parallel Q (f a) (g a)) : Parallel Q (x >>= f) (x >>= g) :=
  (refl x).bind fun a _ hab => hab ▸ h a

theorem eq {y : Run α} (h : Parallel (· = ·) x y) : x = y := by
  funext m
  obtain ⟨m₁, ⟨s, hx, hy⟩ | ⟨a, b, hx, hy, hab⟩⟩ := h m
  · exact hx.trans hy.symm
  · exact hx.trans (hab ▸ hy.symm)

end Parallel

/-! ## Ranges -/

/-- Parts of loops that end in the same way. The scopes around them stay as they are. -/
def SameFlow (o o' : Env) (x x' : Flow × Progress) : Prop := x.1 = x'.1 ∧ x.2.outer = o ∧ x'.2.outer = o'

theorem parallel_overItems {o o' : Env} {step step' : Value → Progress → Run (Flow × Progress)}
    (h : ∀ v p p', p.outer = o → p'.outer = o' → Parallel (SameFlow o o') (step v p) (step' v p'))
    (items : List Value) (hp : p.outer = o) (hp' : p'.outer = o') :
    Parallel (SameFlow o o') (overItems step items p) (overItems step' items p') := by
  induction items generalizing p p' with
  | nil => exact .ofPure ⟨rfl, hp, hp'⟩
  | cons v items ih =>
    refine (h v p p' hp hp').bind fun x x' hx => ?_
    obtain ⟨f, q⟩ := x
    obtain ⟨f', q'⟩ := x'
    obtain ⟨hf, hq, hq'⟩ := hx
    dsimp only at hf
    subst hf
    cases f with
    | next => exact ih hq hq'
    | returned v => exact .ofPure ⟨rfl, hq, hq'⟩

theorem nodup_keys_nil : (([] : Env).map Prod.fst).Nodup := List.nodup_nil

theorem bind_eq_setAll (t : Target) (v : Val) : ∃ us, ∀ e, Eval.bind t v e = Dict.setAll us e := by
  cases t with
  | name name => exact ⟨[(name, v)], fun e => rfl⟩
  | array names => exact ⟨_, fun e => rfl⟩
  | object pairs => exact ⟨_, fun e => rfl⟩

section Ranges

variable {host : Host} {r r' : Rules} {b : List Node}

/-- The ranges of an inner loop, run in the scope of an iteration of the outer one or with what that
    iteration has bound. `own` has what the inner ranges have bound. -/
theorem parallel_innerRanges {bound own o : Env} (hbound : (bound.map Prod.fst).Nodup)
    (hown : (own.map Prod.fst).Nodup) (rs : List Node) (hp : p.outer = Dict.setAll bound o)
    (hp' : p'.outer = o) : Parallel (SameFlow (Dict.setAll bound o) o) (overRanges r [] b rs own p)
      (overRanges r [] b rs (Dict.setAll own bound) p') := by
  induction rs generalizing own p p' with
  | nil =>
    unfold overRanges
    rw [hp, hp', Dict.setAll_of_setAll hbound]
    exact .same _ fun x => .ofPure ⟨rfl, rfl, rfl⟩
  | cons range rs ih =>
    unfold overRanges
    split
    · rename_i t c g hk
      rw [hp, hp', Dict.setAll_of_setAll hbound]
      refine .same _ fun v => .same _ fun items => ?_
      refine parallel_overItems (fun item p p' hp hp' => ?_) items hp hp'
      obtain ⟨us, hus⟩ := bind_eq_setAll t (.data item)
      simp only [hus]
      -- What the range binds goes on top of both, and the guard sees the same scope.
      rw [hp, hp', ← Dict.setAll_of_setAll hown, Dict.setAll_of_setAll hbound]
      refine .same _ fun admitted => ?_
      cases admitted with
      | true => exact ih (Dict.nodup_keys_setAll hown) hp hp'
      | false => exact .ofPure ⟨rfl, hp, hp'⟩
    · exact .ofFail

theorem execNode_loop {i : Nat} {s : Span} (rs : List Node) (e : Env) :
    execNode host r ⟨i, s, .loop rs b []⟩ e = (do
      let x ← overRanges r [] b rs [] { outer := e }
      return (x.1, e)) := by
  unfold execNode
  dsimp only
  congr 1
  funext x
  obtain ⟨f, p⟩ := x
  cases f with
  | returned v => rfl
  | next =>
    dsimp only
    split <;> rfl

/-- A loop as the body of another one, with the ranges of both or one after the other. The judgements
    `r'` are those that the outer loop is run by; they run the inner loop one layer above `r`. -/
theorem parallel_fusedRanges {i : Nat} {s : Span} {irs : List Node} (heval : r'.eval = r.eval)
    (hexec : ∀ e, r'.exec ⟨i, s, .loop irs b []⟩ e = execNode host r ⟨i, s, .loop irs b []⟩ e)
    {bound o : Env} (hbound : (bound.map Prod.fst).Nodup) (rs : List Node) (hp : p.outer = o)
    (hp' : p'.outer = o) : Parallel (SameFlow o o) (overRanges r' [] [⟨i, s, .loop irs b []⟩] rs bound p)
      (overRanges r [] b (rs ++ irs) bound p') := by
  have hadmits (g : Option Node) (e : Env) : admits r' g e = admits r g e := by
    cases g with
    | none => rfl
    | some g => rw [admits, admits, heval]
  induction rs generalizing bound p p' with
  | nil =>
    rw [overRanges, block_singleton, hexec, execNode_loop, List.nil_append, bind_assoc]
    conv_rhs => rw [← bind_pure (overRanges r [] b irs bound p')]
    -- The inner loop starts with nothing bound on its own.
    refine (parallel_innerRanges hbound nodup_keys_nil irs (hp ▸ rfl) hp').bind fun x x' hx => ?_
    rw [pure_bind]
    exact .ofPure ⟨hx.1, hp, hx.2.2⟩
  | cons range rs ih =>
    rw [List.cons_append]
    unfold overRanges
    split
    · rename_i t c g hk
      rw [hp, hp', heval]
      refine .same _ fun v => .same _ fun items => ?_
      refine parallel_overItems (fun item p p' hp hp' => ?_) items hp hp'
      obtain ⟨us, hus⟩ := bind_eq_setAll t (.data item)
      simp only [hus]
      rw [hp, hp', hadmits]
      refine .same _ fun admitted => ?_
      cases admitted with
      | true => exact ih (Dict.nodup_keys_setAll hbound) hp hp'
      | false => exact .ofPure ⟨rfl, hp, hp'⟩
    · exact .ofFail

theorem execNode_fused {i k : Nat} {s s' : Span} {rs irs : List Node} (heval : r'.eval = r.eval)
    (hexec : ∀ e, r'.exec ⟨k, s', .loop irs b []⟩ e = execNode host r ⟨k, s', .loop irs b []⟩ e) (e : Env) :
    execNode host r' ⟨i, s, .loop rs [⟨k, s', .loop irs b []⟩] []⟩ e =
      execNode host r ⟨i, s, .loop (rs ++ irs) b []⟩ e := by
  rw [execNode_loop, execNode_loop]
  refine Parallel.eq ?_
  refine (parallel_fusedRanges heval hexec nodup_keys_nil rs rfl rfl).bind fun x x' hx => ?_
  exact .ofPure (by rw [hx.1])

end Ranges

/-! ## Fuel -/

section Fuel

variable {host : Host} {i k : Nat} {s s' : Span} {rs irs b : List Node}

def liftedExec (host : Host) (j : Nat) : Rules :=
  { Rules.upTo host j with exec := (Rules.upTo host (j + 1)).exec }

theorem prolongs_liftedExec (host : Host) (j : Nat) : (Rules.upTo host j).Prolongs (liftedExec host j) where
  eval _ _ := .refl _
  exec := (Rules.prolongs_upTo_succ host j).exec
  call _ _ := .refl _
  fits _ _ _ _ := .refl _

theorem liftedExec_prolongs (host : Host) (j : Nat) :
    (liftedExec host j).Prolongs (Rules.upTo host (j + 1)) where
  eval := (Rules.prolongs_upTo_succ host j).eval
  exec _ _ := .refl _
  call := (Rules.prolongs_upTo_succ host j).call
  fits := (Rules.prolongs_upTo_succ host j).fits

theorem execNode_liftedExec (j : Nat) (e : Env) :
    execNode host (liftedExec host j) ⟨i, s, .loop rs [⟨k, s', .loop irs b []⟩] []⟩ e =
      execNode host (Rules.upTo host j) ⟨i, s, .loop (rs ++ irs) b []⟩ e :=
  have heval : (liftedExec host j).eval = (Rules.upTo host j).eval := rfl
  execNode_fused heval (fun _ => rfl) e

theorem prolongs_fused (fuel : Nat) (e : Env) :
    Prolongs ((Rules.upTo host fuel).exec ⟨i, s, .loop rs [⟨k, s', .loop irs b []⟩] []⟩ e)
      ((Rules.upTo host fuel).exec ⟨i, s, .loop (rs ++ irs) b []⟩ e) := by
  cases fuel with
  | zero => exact .outOfFuel
  | succ j =>
    rw [Rules.exec_succ, Rules.exec_succ, ← execNode_liftedExec]
    exact (prolongs_liftedExec host j).step.exec _ e

theorem prolongs_nested (fuel : Nat) (e : Env) :
    Prolongs ((Rules.upTo host fuel).exec ⟨i, s, .loop (rs ++ irs) b []⟩ e)
      ((Rules.upTo host (fuel + 1)).exec ⟨i, s, .loop rs [⟨k, s', .loop irs b []⟩] []⟩ e) := by
  cases fuel with
  | zero => exact .outOfFuel
  | succ j =>
    rw [Rules.exec_succ, Rules.exec_succ, ← execNode_liftedExec]
    exact (liftedExec_prolongs host j).step.exec _ e

end Fuel

/-- A loop in a loop, neither with an alternative body, and the one loop over the ranges of both end in
    the same way, whatever the ranges and the body are. From any state and scope, if one of the two ends
    (runs through, returns a value or fails) given enough fuel, so does the other: with the same flow and
    scope or the same error, and in the same state, which has the exports, the values under test and the
    calls of host functions. -/
theorem fused_concludes_iff (host : Host) (i k : Nat) (s s' : Span) (ranges innerRanges body : List Node)
    (env : Env) (m : Machine) (result : Except EvalError (Flow × Env)) (m' : Machine) :
    let inner : Node := ⟨k, s', .loop innerRanges body []⟩
    let nested : Node := ⟨i, s, .loop ranges [inner] []⟩
    Concludes (fun fuel => (Rules.upTo host fuel).exec nested env) m result m' ↔
      Concludes (fun fuel => (Rules.upTo host fuel).exec (fuse nested ranges [inner] []) env) m
        result m' := by
  constructor
  · exact .imp fun fuel => ⟨fuel, prolongs_fused fuel env⟩
  · exact .imp fun fuel => ⟨fuel + 1, prolongs_nested fuel env⟩

end Motif.Simplify
