import Mathlib.Data.List.Forall2
import Motif.Eval.Rules

/-!
# Runs compared

A run refines another one if, whenever the first succeeds, the second does too and with related
results. Refinement is composed the way runs are: `Refines.bind` follows the computation, and a run
that fails is refined by everything. The special case in which the results are equal is
`Improves`.
-/

namespace Motif.Eval

variable {α β γ δ : Type}

/-! ## Runs that succeed -/

/-- The run succeeds with the value and leaves the second machine. -/
def Gives (x : Run α) (m : Machine) (a : α) (m' : Machine) : Prop := x.run.run m = (.ok a, m')

section Gives

variable {x : Run α} {f : α → Run β} {m m₁ m₂ : Machine} {a b : α} {c : β} {e : EvalError}
  {s : Stop}

theorem gives_pure (a : α) (m : Machine) : Gives (pure a) m a m := rfl

theorem gives_pure_inv (h : Gives (pure a) m b m₁) : a = b ∧ m = m₁ := by
  cases h
  exact ⟨rfl, rfl⟩

theorem Gives.bind (hx : Gives x m a m₁) (hf : Gives (f a) m₁ c m₂) : Gives (x >>= f) m c m₂ := by
  unfold Gives at *
  rw [ExceptT.run_bind, StateT.run_bind, hx]
  exact hf

theorem Gives.bind_inv (h : Gives (x >>= f) m c m₂) : ∃ a m₁, Gives x m a m₁ ∧ Gives (f a) m₁ c m₂ := by
  unfold Gives at h
  rw [ExceptT.run_bind, StateT.run_bind] at h
  rcases hx : x.run.run m with ⟨_ | a, m₁⟩
  · rw [hx] at h
    cases h
  · rw [hx] at h
    exact ⟨a, m₁, hx, h⟩

theorem not_gives_throw : ¬ Gives (throw s : Run α) m a m₁ := by
  intro h
  cases h

theorem not_gives_fail : ¬ Gives (fail e : Run α) m a m₁ := not_gives_throw

theorem gives_get (m : Machine) : Gives get m m m := rfl

theorem gives_get_inv {s : Machine} (h : Gives get m s m₁) : m = s ∧ m = m₁ := by
  cases h
  exact ⟨rfl, rfl⟩

theorem gives_modify (f : Machine → Machine) (m : Machine) : Gives (modify f) m () (f m) := rfl

theorem gives_modify_inv {f : Machine → Machine} {u : Unit} (h : Gives (modify f) m u m₁) : m₁ = f m := by
  cases h
  rfl

end Gives

/-! ## Refinement -/

/-- Whenever `x` succeeds, from a state related to its own `y` succeeds with a related value and
    leaves a related state. -/
def Refines (M : Machine → Machine → Prop) (P : α → β → Prop) (x : Run α) (y : Run β) : Prop :=
  ∀ ⦃m m'⦄, M m m' → ∀ ⦃a m₁⦄, Gives x m a m₁ →
    ∃ b m₁', Gives y m' b m₁' ∧ P a b ∧ M m₁ m₁'

namespace Refines

variable {M : Machine → Machine → Prop} {P P' : α → β → Prop} {Q : γ → δ → Prop}
  {x : Run α} {y : Run β} {f : α → Run γ} {g : β → Run δ}

theorem ofPure {a : α} {b : β} (h : P a b) : Refines M P (pure a) (pure b) := by
  intro m m' hm a' m₁ hx
  obtain ⟨rfl, rfl⟩ := gives_pure_inv hx
  exact ⟨b, m', gives_pure b m', h, hm⟩

theorem ofThrow {s : Stop} : Refines M P (throw s) y := fun _ _ _ _ _ hx => absurd hx not_gives_throw

theorem ofFail {e : EvalError} : Refines M P (fail e) y := ofThrow

theorem bind (hx : Refines M P x y) (hf : ∀ a b, P a b → Refines M Q (f a) (g b)) :
    Refines M Q (x >>= f) (y >>= g) := by
  intro m m' hm c m₂ h
  obtain ⟨a, m₁, ha, hc⟩ := h.bind_inv
  obtain ⟨b, m₁', hb, hab, hm₁⟩ := hx hm ha
  obtain ⟨d, m₂', hd, hcd, hm₂⟩ := hf a b hab hm₁ hc
  exact ⟨d, m₂', hb.bind hd, hcd, hm₂⟩

theorem bindEq {y : Run α} {g : α → Run δ} (hx : Refines M (· = ·) x y)
    (hf : ∀ a, Refines M Q (f a) (g a)) : Refines M Q (x >>= f) (y >>= g) :=
  hx.bind fun a _ hab => hab ▸ hf a

theorem ofSuccess (h : ∀ m a m₁, Gives x m a m₁ → Refines M P x y) : Refines M P x y :=
  fun m _ hm a m₁ hx => h m a m₁ hx hm hx

theorem mapM {ρ : α → β → Prop} {xs : List α} {ys : List β} (h : List.Forall₂ ρ xs ys)
    (hf : ∀ x y, ρ x y → Refines M Q (f x) (g y)) : Refines M (List.Forall₂ Q) (xs.mapM f) (ys.mapM g) := by
  induction h with
  | nil => exact ofPure .nil
  | cons hxy _ ih =>
    rw [List.mapM_cons, List.mapM_cons]
    refine (hf _ _ hxy).bind fun a b hab => ih.bind fun as bs habs => ?_
    exact ofPure (.cons hab habs)

end Refines

/-! ## Improvement -/

def Improves (x y : Run α) : Prop := ∀ ⦃m a m₁⦄, Gives x m a m₁ → Gives y m a m₁

namespace Improves

variable {x y z : Run α} {f g : α → Run β}

theorem refl (x : Run α) : Improves x x := fun _ _ _ h => h

theorem trans (hxy : Improves x y) (hyz : Improves y z) : Improves x z := fun _ _ _ h => hyz (hxy h)

theorem ofThrow {s : Stop} : Improves (throw s) y := fun _ _ _ h => absurd h not_gives_throw

theorem ofFail {e : EvalError} : Improves (fail e) y := ofThrow

theorem bind (hx : Improves x y) (hf : ∀ a, Improves (f a) (g a)) : Improves (x >>= f) (y >>= g) := by
  intro m c m₂ h
  obtain ⟨a, m₁, ha, hc⟩ := h.bind_inv
  exact (hx ha).bind (hf a hc)

end Improves

theorem Refines.improve {M : Machine → Machine → Prop} {P : α → β → Prop} {x : Run α}
    {y z : Run β} (h : Refines M P x y) (hyz : Improves y z) : Refines M P x z := by
  intro m m' hm a m₁ ha
  obtain ⟨b, m₁', hb, hab, hm₁⟩ := h hm ha
  exact ⟨b, m₁', hyz hb, hab, hm₁⟩

/-! ## Fuel and blocks -/

section Blocks

variable {host : Host} {j : Nat} {n : Node} {e : Env} {m m₁ : Machine} {v : Val}
  {exec : Node → Env → Run (Flow × Env)}

theorem eval_upTo_inv (h : Gives ((Rules.upTo host j).eval n e) m v m₁) :
    ∃ j', j = j' + 1 ∧ Gives (evalNode host (Rules.upTo host j') n e) m v m₁ := by
  cases j with
  | zero => exact absurd h not_gives_throw
  | succ j' => exact ⟨j', rfl, h⟩

theorem exec_upTo_inv {x : Flow × Env} (h : Gives ((Rules.upTo host j).exec n e) m x m₁) :
    ∃ j', j = j' + 1 ∧ Gives (execNode host (Rules.upTo host j') n e) m x m₁ := by
  cases j with
  | zero => exact absurd h not_gives_throw
  | succ j' => exact ⟨j', rfl, h⟩

theorem block_singleton (n : Node) (e : Env) : block exec [n] e = exec n e := by
  unfold block
  conv_rhs => rw [← bind_pure (exec n e)]
  congr 1
  funext x
  obtain ⟨f, e₁⟩ := x
  cases f <;> rfl

theorem block_append (b b' : List Node) (e : Env) :
    block exec (b ++ b') e = (do
      match ← block exec b e with
      | (.returned v, e) => pure (.returned v, e)
      | (.next, e) => block exec b' e) := by
  induction b generalizing e with
  | nil =>
    rw [block, pure_bind]
    rfl
  | cons n b ih =>
    rw [List.cons_append, block, block, bind_assoc]
    congr 1
    funext x
    obtain ⟨f, e₁⟩ := x
    cases f with
    | next => exact ih e₁
    | returned v => rw [pure_bind]

end Blocks

end Motif.Eval
