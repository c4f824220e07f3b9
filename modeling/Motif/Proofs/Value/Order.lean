import Motif.Operator
import Motif.Proofs.Value.Equality

/-!
# Comparisons and their opposites

A comparison and its opposite have results on the same operands, and the results are opposite ones, with
one exception: between two numbers of which one is `NaN` no order holds, so there both answer `false`.
-/

namespace Motif

open Float.Model (UnpackedFloat)

/-- Floating-point numbers are in some order unless one of them is `NaN`. -/
theorem unpackedFloat_isNone_compare (x y : UnpackedFloat) : (x.compare y).isNone = (x.isNaN || y.isNaN) := by
  cases x with
  | notANumber => rfl
  | infinity s =>
    cases y with
    | infinity s' => rfl
    | _ => cases s <;> rfl
  | zero s =>
    cases y with
    | infinity s' => cases s' <;> rfl
    | finite s' => cases s' <;> rfl
    | _ => rfl
  | finite s m e hm =>
    cases y with
    | infinity s' => cases s <;> cases s' <;> rfl
    | finite s' => cases s <;> cases s' <;> rfl
    | _ => cases s <;> rfl

namespace Value

theorem compareNumbers?_eq (x y : Float) :
    compareNumbers? x y = x.toModel.unpack.compare y.toModel.unpack := by
  have hlt (x y : Float) : x < y ↔ x.toModel.unpack.compare y.toModel.unpack = some .lt := by
    show decide (x.toModel < y.toModel) = true ↔ _
    rw [decide_eq_true_iff]
    show (x.toModel.unpack.compare y.toModel.unpack == some .lt) = true ↔ _
    exact beq_iff_eq
  have heq : (x == y) = (x.toModel.unpack.compare y.toModel.unpack == some .eq) := rfl
  unfold compareNumbers?
  simp only [hlt, heq, unpackedFloat_compare_swap y.toModel.unpack]
  generalize x.toModel.unpack.compare y.toModel.unpack = order
  cases order with
  | none => rfl
  | some order => cases order <;> rfl

def Unordered : Value → Value → Prop
  | .number x, .number y => x.isNaN ∨ y.isNaN
  | _, _ => False

theorem compareNumbers?_eq_none (x y : Float) :
    compareNumbers? x y = none ↔ Unordered (.number x) (.number y) := by
  rw [compareNumbers?_eq, ← Option.isNone_iff_eq_none, unpackedFloat_isNone_compare, Bool.or_eq_true]
  rfl

theorem compareWith_of_unordered {v w : Value} (h : Unordered v w) (test : Ordering → Bool) :
    compareWith test v w = some (.bool false) := by
  cases v with
  | number x =>
    cases w with
    | number y => rw [compareWith, (compareNumbers?_eq_none x y).mpr h]; rfl
    | _ => exact h.elim
  | _ => exact h.elim

theorem compareWith_not {v w : Value} (h : ¬ Unordered v w) {test test' : Ordering → Bool}
    (htest : ∀ order, test' order = !test order) :
    compareWith test' v w = (compareWith test v w).bind UnaryOp.not.eval? := by
  cases v with
  | number x =>
    cases w with
    | number y =>
      rw [← compareNumbers?_eq_none, ← ne_eq, Option.ne_none_iff_exists'] at h
      obtain ⟨order, horder⟩ := h
      simp only [compareWith, horder, Option.map_some, Option.getD_some, htest]
      rfl
    | _ => rfl
  | string s =>
    cases w with
    | string t => simp only [compareWith, htest]; rfl
    | _ => rfl
  | _ => rfl

end Value

namespace BinaryOp

open Value

variable {op op' : BinaryOp}

def orders : List BinaryOp := [.lt, .lte, .gt, .gte]

theorem eval?_of_order (h : op.inverse? = some op') (horder : op ∈ orders) :
    ∃ test test' : Ordering → Bool, (∀ order, test' order = !test order) ∧
      op.eval? = compareWith test ∧ op'.eval? = compareWith test' := by
  cases op <;> cases h
  case lt => exact ⟨(· == .lt), (· != .lt), fun _ => rfl, rfl, rfl⟩
  case lte => exact ⟨(· != .gt), (· == .gt), fun _ => (Bool.not_not _).symm, rfl, rfl⟩
  case gt => exact ⟨(· == .gt), (· != .gt), fun _ => rfl, rfl, rfl⟩
  case gte => exact ⟨(· != .lt), (· == .lt), fun _ => (Bool.not_not _).symm, rfl, rfl⟩
  all_goals exact absurd horder (by decide)

theorem eval?_of_equality (h : op.inverse? = some op') (horder : op ∉ orders) (v w : Value) :
    op'.eval? v w = (op.eval? v w).bind UnaryOp.not.eval? := by
  cases op <;> cases h
  case eq =>
    show (strictEquals? v w).map _ = ((strictEquals? v w).map _).bind _
    cases strictEquals? v w <;> rfl
  case neq =>
    show (strictEquals? v w).map _ = ((strictEquals? v w).map _).bind _
    cases hsame : strictEquals? v w with
    | none => rfl
    | some same => cases same <;> rfl
  all_goals exact absurd (by decide) horder

theorem eval?_inverse (h : op.inverse? = some op') (v w : Value) :
    ((op ∈ orders ∧ v.Unordered w) ∧ op.eval? v w = some (.bool false) ∧ op'.eval? v w = some (.bool false)) ∨
      ¬ (op ∈ orders ∧ v.Unordered w) ∧ op'.eval? v w = (op.eval? v w).bind UnaryOp.not.eval? := by
  by_cases horder : op ∈ orders
  · obtain ⟨test, test', htest, hop, hop'⟩ := eval?_of_order h horder
    rw [hop, hop']
    by_cases hvw : v.Unordered w
    · exact .inl ⟨⟨horder, hvw⟩, compareWith_of_unordered hvw test, compareWith_of_unordered hvw test'⟩
    · exact .inr ⟨fun both => hvw both.2, compareWith_not hvw htest⟩
  · exact .inr ⟨fun both => horder both.1, eval?_of_equality h horder v w⟩

theorem eval?_inverse_eq_none (h : op.inverse? = some op') (v w : Value) :
    op'.eval? v w = none ↔ op.eval? v w = none := by
  rcases eval?_inverse h v w with ⟨-, hop, hop'⟩ | ⟨-, hop'⟩
  · rw [hop, hop']
  · rw [hop']
    -- Every value has a negation.
    cases op.eval? v w with
    | none => simp
    | some u => simp [UnaryOp.eval?]

theorem eval?_inverse_iff (h : op.inverse? = some op') (v w : Value) :
    op'.eval? v w = (op.eval? v w).bind UnaryOp.not.eval? ↔ ¬ (op ∈ orders ∧ v.Unordered w) := by
  rcases eval?_inverse h v w with ⟨hnone, hop, hop'⟩ | ⟨hsome, hop'⟩
  · rw [hop, hop']
    constructor
    · intro heq
      cases heq
    · intro hsome
      exact absurd hnone hsome
  · exact ⟨fun _ => hsome, fun _ => hop'⟩

end BinaryOp

end Motif
