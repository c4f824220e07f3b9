import Mathlib.Order.Compare
import Motif.Value.Access

/-!
# Equality of values

Which of two values is on the left makes no difference to whether they are equal. For numbers this is
read off the model of floating-point numbers, where equality is a comparison that comes out even.
-/

namespace Motif

open Float.Model (UnpackedFloat)

theorem unpackedFloat_compare_swap (x y : UnpackedFloat) : x.compare y = (y.compare x).map Ordering.swap := by
  -- Of two numbers of one sign, the exponents are compared first and then the mantissas.
  have hfinite (m m' : Nat) (e e' : Int) :
      (compare e e').then (compare m m') = ((compare e' e).then (compare m' m)).swap := by
    have he : compare e e' = (compare e' e).swap := Std.OrientedCmp.eq_swap
    have hm : compare m m' = (compare m' m).swap := Std.OrientedCmp.eq_swap
    rw [Ordering.swap_then, he, hm]
  cases x with
  | notANumber => cases y <;> rfl
  | infinity s =>
    cases y with
    | infinity s' => cases s <;> cases s' <;> rfl
    | _ => cases s <;> rfl
  | zero s =>
    cases y with
    | infinity s' => cases s' <;> rfl
    | finite s' => cases s' <;> rfl
    | _ => rfl
  | finite s m e hm =>
    cases y with
    | infinity s' => cases s <;> cases s' <;> rfl
    | zero => cases s <;> rfl
    | notANumber => cases s <;> rfl
    | finite s' m' e' hm' =>
      cases s <;> cases s'
      · exact congrArg some (congrArg Ordering.swap (hfinite m m' e e'))
      · rfl
      · rfl
      · exact congrArg some (hfinite m m' e e')

theorem float_beq_comm (x y : Float) : (x == y) = (y == x) := by
  show (x.toModel.unpack.compare y.toModel.unpack == some Ordering.eq) =
    (y.toModel.unpack.compare x.toModel.unpack == some Ordering.eq)
  rw [unpackedFloat_compare_swap]
  generalize y.toModel.unpack.compare x.toModel.unpack = order
  cases order with
  | none => rfl
  | some order => cases order <;> rfl

namespace Value

theorem strictEquals?_comm (v w : Value) : strictEquals? v w = strictEquals? w v := by
  cases v with
  | number x =>
    cases w with
    | number y => exact congrArg some (float_beq_comm x y)
    | _ => rfl
  | bool a =>
    cases w with
    | bool b => exact congrArg some (Bool.beq_comm)
    | _ => rfl
  | string s =>
    cases w with
    | string t => exact congrArg some (Bool.beq_comm)
    | _ => rfl
  | _ => cases w <;> rfl

theorem strictlyEqual_comm (v w : Value) : strictlyEqual v w = strictlyEqual w v := by
  rw [strictlyEqual, strictEquals?_comm, ← strictlyEqual]

theorem accepts_of_isPrimitive {template : Value} (h : template.isPrimitive) (v : Value) :
    template.accepts v = v.strictlyEqual template := by
  rw [strictlyEqual_comm]
  cases template with
  | array | object => cases h
  | _ => rw [accepts] <;> rintro _ _ ⟨⟩

end Value

end Motif
