import Motif.Emit.Compiled
import Motif.Proofs.Simplify.Negation

/-!
# Conditions that need no check

The language and the host do not agree on which values are true: the host takes an empty text for false, and
what is not a number. So generated code has conditions checked by the library, unless the expression gives a
truth value for certain (`isBoolean`). There the host can be trusted, and with its short-circuit operators
too.
-/

namespace Motif.Emit

open Eval

/-- Whether the host takes a value for true as it stands. -/
def hostTruthy : Val → Bool
  | .data .nothing => false
  | .data .null => false
  | .data (.bool b) => b
  | .data (.number x) => !(Number.isZero x || x.isNaN)
  | .data (.string s) => !s.isEmpty
  | _ => true

/-- The operator `&&` of the host. -/
def hostAnd (left right : Run Val) : Run Val := do
  let l ← left
  if hostTruthy l then right else pure l

/-- The operator `||` of the host. -/
def hostOr (left right : Run Val) : Run Val := do
  let l ← left
  if hostTruthy l then pure l else right

variable {host : Host} {op : BinaryOp} {n : Node} {env : Env} {m m' : Machine} {v : Val}

theorem eval?_relational (hop : op.isRelational = true) {a b d : Value} (h : op.eval? a b = some d) :
    ∃ c, d = .bool c := by
  have hmap {α : Type} {x : Option α} {f : α → Bool} (h : x.map (fun a => Value.bool (f a)) = some d) :
      ∃ c, d = .bool c := by
    obtain ⟨a, -, rfl⟩ := Option.map_eq_some_iff.mp h
    exact ⟨_, rfl⟩
  have hcompare {test : Ordering → Bool} (h : Value.compareWith test a b = some d) : ∃ c, d = .bool c := by
    unfold Value.compareWith at h
    split at h
    · exact ⟨_, (Option.some.inj h).symm⟩
    · exact ⟨_, (Option.some.inj h).symm⟩
    · cases h
  cases op with
  | eq | neq | isIn | notIn => exact hmap h
  | lt | lte | gt | gte => exact hcompare h
  | like => cases h
  | _ => cases hop

theorem operate?_relational (hop : op.isRelational = true) {a b : Val} {d : Value}
    (h : operate? op a b = some d) : ∃ c, d = .bool c := by
  unfold operate? at h
  split at h
  · rcases Option.or_eq_some_iff.mp h with h | ⟨-, h⟩
    · exact eval?_relational hop h
    · exact ⟨_, (Option.some.inj h).symm⟩
  · rcases Option.or_eq_some_iff.mp h with h | ⟨-, h⟩
    · exact eval?_relational hop h
    · exact ⟨_, (Option.some.inj h).symm⟩
  · exact eval?_relational hop h
  · exact ⟨_, (Option.some.inj h).symm⟩
  · exact ⟨_, (Option.some.inj h).symm⟩
  · cases h

theorem binary_relational (hop : op.isRelational = true) {rules : Rules} {a b : Val}
    (h : Gives (binary host rules op a b) m v m') : ∃ c, v = .bool c := by
  by_cases hlike : op = .like
  · subst hlike
    obtain ⟨c, m₁, -, h⟩ := h.bind_inv
    exact ⟨c, (gives_pure_inv h).1.symm⟩
  · obtain ⟨d, hd, rfl, -⟩ := binary_gives_inv hlike h
    obtain ⟨c, rfl⟩ := operate?_relational hop hd
    exact ⟨c, rfl⟩

theorem bool_of_isBoolean (hn : isBoolean n = true) {fuel : Nat}
    (h : Gives ((Rules.upTo host fuel).eval n env) m v m') : ∃ b, v = .bool b := by
  fun_induction isBoolean n generalizing fuel m v m' with
  | case1 i span b =>
    obtain ⟨j, rfl, h⟩ := eval_upTo_inv h
    exact ⟨b, (gives_pure_inv h).1.symm⟩
  | case2 i span op left right =>
    obtain ⟨j, rfl, h⟩ := eval_upTo_inv h
    obtain ⟨a, m₁, -, h⟩ := h.bind_inv
    obtain ⟨b, m₂, -, h⟩ := h.bind_inv
    exact binary_relational hn h
  | case3 i span op operand =>
    cases eq_of_beq hn
    obtain ⟨j, rfl, h⟩ := eval_upTo_inv h
    obtain ⟨w, m₁, -, h⟩ := h.bind_inv
    rw [unary_not] at h
    exact ⟨_, (gives_pure_inv h).1.symm⟩
  | case4 i span left right ihl ihr =>
    -- A conjunction gives back one of its operands as it is, so both have to be boolean.
    obtain ⟨hleft, hright⟩ := (Bool.and_eq_true ..).mp hn
    obtain ⟨j, rfl, h⟩ := eval_upTo_inv h
    obtain ⟨l, m₁, hl, h⟩ := h.bind_inv
    split at h
    · exact ihr hright h
    · obtain ⟨rfl, rfl⟩ := gives_pure_inv h
      exact ihl hleft hl
  | case5 i span left right ihl ihr =>
    obtain ⟨hleft, hright⟩ := (Bool.and_eq_true ..).mp hn
    obtain ⟨j, rfl, h⟩ := eval_upTo_inv h
    obtain ⟨l, m₁, hl, h⟩ := h.bind_inv
    split at h
    · obtain ⟨rfl, rfl⟩ := gives_pure_inv h
      exact ihl hleft hl
    · exact ihr hright h
  | case6 i span callee args =>
    obtain ⟨htag, hlength⟩ := (Bool.and_eq_true ..).mp hn
    obtain ⟨arg, rfl⟩ := List.length_eq_one_iff.mp (eq_of_beq hlength)
    -- Only a pattern is called like this, and its call is a test.
    obtain ⟨i', span', k⟩ := callee
    cases k <;> cases htag
    obtain ⟨j, rfl, h⟩ := eval_upTo_inv h
    obtain ⟨subject, m₁, -, h⟩ := h.bind_inv
    obtain ⟨c, m₂, -, h⟩ := h.bind_inv
    exact ⟨c, (gives_pure_inv h).1.symm⟩
  | case7 => cases hn

theorem bind_congr_of_gives {α β : Type} {x : Run α} {f g : α → Run β}
    (h : ∀ m a m', Gives x m a m' → f a = g a) : x >>= f = x >>= g := by
  refine ExceptT.ext (StateT.ext fun m => ?_)
  rw [ExceptT.run_bind, ExceptT.run_bind, StateT.run_bind, StateT.run_bind]
  rcases hx : x.run.run m with ⟨_ | a, m₁⟩
  · rfl
  · exact congrArg (fun r : Run β => r.run.run m₁) (h m a m₁ hx)

/-- An expression that is taken for a truth value is worth one whenever it has a value: in any scope and state,
    with any annotations and host functions. So the host, which tests it as it stands, takes it for true just if
    it is; and a conjunction or disjunction that is taken for a truth value does what the operator of the host
    does, whatever its operands do. -/
theorem boolean_tested_by_host (n : Node) (hn : isBoolean n = true) (host : Host) (fuel : Nat) (env : Env) :
    (∀ m v m', Gives ((Rules.upTo host fuel).eval n env) m v m' →
      (∃ b, v = .bool b) ∧ hostTruthy v = v.isTruthy) ∧
    (∀ left right, n.kind = .conj left right → (Rules.upTo host (fuel + 1)).eval n env =
      hostAnd ((Rules.upTo host fuel).eval left env) ((Rules.upTo host fuel).eval right env)) ∧
    ∀ left right, n.kind = .disj left right → (Rules.upTo host (fuel + 1)).eval n env =
      hostOr ((Rules.upTo host fuel).eval left env) ((Rules.upTo host fuel).eval right env) := by
  have htruthy {n : Node} (hn : isBoolean n = true) {m m' : Machine} {v : Val}
      (h : Gives ((Rules.upTo host fuel).eval n env) m v m') : hostTruthy v = v.isTruthy := by
    obtain ⟨b, rfl⟩ := bool_of_isBoolean hn h
    rfl
  obtain ⟨i, span, k⟩ := n
  refine ⟨fun m v m' h => ⟨bool_of_isBoolean hn h, htruthy hn h⟩, ?_, ?_⟩
  · rintro left right rfl
    rw [isBoolean, Bool.and_eq_true] at hn
    exact bind_congr_of_gives fun m l m' hl => by rw [htruthy hn.1 hl]
  · rintro left right rfl
    rw [isBoolean, Bool.and_eq_true] at hn
    exact bind_congr_of_gives fun m l m' hl => by rw [htruthy hn.1 hl]

/-- The condition `x = x and not x`. -/
def selfContained : Node :=
  let x : Node := .ofKind (.ident "x")
  .ofKind (.conj (.ofKind (.binary .eq x x)) (.ofKind (.unary .not x)))

/-- The name stands for an empty text, which is true, though not for the host. The condition is false for
    both. -/
theorem boolean_tested_by_host_empty :
    let host : Host := { annotations := {}, natives := fun _ => none }
    let env : Env := [("x", .data (.string ""))]
    isBoolean selfContained = true ∧ hostTruthy (.data (.string "")) ≠ Val.isTruthy (.data (.string "")) ∧
      Gives ((Rules.upTo host 3).eval selfContained env) {} (.bool false) {} ∧
      hostTruthy (.bool false) = Val.isTruthy (.bool false) := by
  intro host env
  have hgives : Gives ((Rules.upTo host 3).eval selfContained env) {} (.bool false) {} := rfl
  exact ⟨rfl, by decide, hgives, ((boolean_tested_by_host selfContained rfl host 3 env).1 _ _ _ hgives).2⟩

end Motif.Emit
