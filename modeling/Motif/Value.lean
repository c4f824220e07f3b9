import Motif.Number.Binary

/-!
# Values

What a program computes with. `nothing` is the absence of a value; objects keep their entries in
order and may hold a key more than once, in which case the first entry answers.
-/

namespace Motif

inductive Value where
  | nothing
  | null
  | bool (b : Bool)
  | number (x : Float)
  | string (s : String)
  | array (items : List Value)
  | object (entries : List (String × Value))
  deriving Repr, Inhabited

namespace Value

/-! ## Equality -/

mutual

def same : Value → Value → Bool
  | .nothing, .nothing => true
  | .null, .null => true
  | .bool a, .bool b => a == b
  | .number x, .number y => decide (x = y)
  | .string s, .string t => s == t
  | .array xs, .array ys => sameItems xs ys
  | .object xs, .object ys => sameEntries xs ys
  | _, _ => false

def sameItems : List Value → List Value → Bool
  | [], [] => true
  | x :: xs, y :: ys => same x y && sameItems xs ys
  | _, _ => false

def sameEntries : List (String × Value) → List (String × Value) → Bool
  | [], [] => true
  | (k, x) :: xs, (l, y) :: ys => k == l && same x y && sameEntries xs ys
  | _, _ => false

end

mutual

theorem same_iff_eq : ∀ v w : Value, same v w = true ↔ v = w
  | .nothing, w => by cases w <;> simp [same]
  | .null, w => by cases w <;> simp [same]
  | .bool _, w => by cases w <;> simp [same]
  | .number _, w => by cases w <;> simp [same]
  | .string _, w => by cases w <;> simp [same]
  | .array xs, w => by
    cases w <;> simp [same]
    exact sameItems_iff_eq xs _
  | .object xs, w => by
    cases w <;> simp [same]
    exact sameEntries_iff_eq xs _

theorem sameItems_iff_eq : ∀ xs ys : List Value, sameItems xs ys = true ↔ xs = ys
  | [], ys => by cases ys <;> simp [sameItems]
  | x :: xs, ys => by
    cases ys with
    | nil => simp [sameItems]
    | cons y ys => simp [sameItems, same_iff_eq x y, sameItems_iff_eq xs ys]

theorem sameEntries_iff_eq : ∀ xs ys : List (String × Value), sameEntries xs ys = true ↔ xs = ys
  | [], ys => by cases ys <;> simp [sameEntries]
  | (k, x) :: xs, ys => by
    cases ys with
    | nil => simp [sameEntries]
    | cons y ys => simp [sameEntries, same_iff_eq x y.2, sameEntries_iff_eq xs ys, Prod.ext_iff]

end

instance : DecidableEq Value := fun v w => decidable_of_iff _ (same_iff_eq v w)

/-! ## What a value is -/

/-- `false`, `null`, nothing and the two zeros are false; all else is true, `NaN` and everything
empty included. -/
def isTruthy : Value → Bool
  | .nothing => false
  | .null => false
  | .bool b => b
  | .number x => !Number.isZero x
  | .string _ => true
  | .array _ => true
  | .object _ => true

def isPrimitive : Value → Bool
  | .array _ => false
  | .object _ => false
  | _ => true

def typeName : Value → String
  | .nothing => "nothing"
  | .null => "null"
  | .bool _ => "boolean"
  | .number _ => "number"
  | .string _ => "string"
  | .array _ => "array"
  | .object _ => "object"

def number? : Value → Option Float
  | .number x => some x
  | _ => none

def string? : Value → Option String
  | .string s => some s
  | _ => none

def isInteger : Value → Bool
  | .number x => Number.isInteger x
  | _ => false

def get? (v : Value) (key : String) : Option Value :=
  match v with
  | .object entries => entries.lookup key
  | _ => none

end Value

end Motif
