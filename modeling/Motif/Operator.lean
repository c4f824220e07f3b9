import Motif.Number.Binary
import Motif.Text.Units
import Motif.Value.Text

/-!
# Operators

The unary and binary operators and what they compute. An application that has no result (the
operands are of the wrong types) is `none`.
-/

namespace Motif

inductive UnaryOp where
  | not
  | neg
  deriving Repr, DecidableEq, Inhabited

inductive BinaryOp where
  | add
  | sub
  | mul
  | div
  | mod
  | eq
  | neq
  | lt
  | lte
  | gt
  | gte
  | isIn
  | notIn
  | like
  deriving Repr, DecidableEq, Inhabited

namespace UnaryOp

def name : UnaryOp → String
  | .not => "not"
  | .neg => "neg"

def all : List UnaryOp := [.not, .neg]

def ofName? (name : String) : Option UnaryOp := all.find? fun op => op.name == name

def eval? : UnaryOp → Value → Option Value
  | .not, v => some (.bool !v.isTruthy)
  | .neg, .number x => some (.number (-x))
  | .neg, _ => none

end UnaryOp

namespace BinaryOp

def name : BinaryOp → String
  | .add => "add"
  | .sub => "sub"
  | .mul => "mul"
  | .div => "div"
  | .mod => "mod"
  | .eq => "eq"
  | .neq => "neq"
  | .lt => "lt"
  | .lte => "lte"
  | .gt => "gt"
  | .gte => "gte"
  | .isIn => "in"
  | .notIn => "notIn"
  | .like => "like"

def all : List BinaryOp :=
  [.add, .sub, .mul, .div, .mod, .eq, .neq, .lt, .lte, .gt, .gte, .isIn, .notIn, .like]

def ofName? (name : String) : Option BinaryOp := all.find? fun op => op.name == name

def isComparison : BinaryOp → Bool
  | .eq | .neq | .lt | .lte | .gt | .gte => true
  | _ => false

/-- The operators whose result is always a truth value. In a pattern they say something about the
value under test instead of giving a template to compare it with. -/
def isRelational : BinaryOp → Bool
  | .isIn | .notIn | .like => true
  | op => op.isComparison

/-- The comparison that answers the opposite. -/
def inverse? : BinaryOp → Option BinaryOp
  | .eq => some .neq
  | .neq => some .eq
  | .lt => some .gte
  | .gte => some .lt
  | .gt => some .lte
  | .lte => some .gt
  | _ => none

/-- The JavaScript operator, for the operators that have one. -/
def script? : BinaryOp → Option String
  | .add => some "+"
  | .sub => some "-"
  | .mul => some "*"
  | .div => some "/"
  | .mod => some "%"
  | .eq => some "==="
  | .neq => some "!=="
  | .lt => some "<"
  | .lte => some "<="
  | .gt => some ">"
  | .gte => some ">="
  | .isIn => none
  | .notIn => none
  | .like => none

end BinaryOp

namespace Value

/-- Equality of primitive values. Values of different types are different, and `NaN` differs from
itself. Collections have no such equality. -/
def strictEquals? : Value → Value → Option Bool
  | .array _, _ => none
  | .object _, _ => none
  | _, .array _ => none
  | _, .object _ => none
  | .nothing, .nothing => some true
  | .null, .null => some true
  | .bool a, .bool b => some (a == b)
  | .number x, .number y => some (x == y)
  | .string s, .string t => some (s == t)
  | _, _ => some false

def strictlyEqual (v w : Value) : Bool := strictEquals? v w == some true

def compareNumbers? (x y : Float) : Option Ordering :=
  if x < y then some .lt else if x == y then some .eq else if y < x then some .gt else none

/-- The order of two numbers or of two strings, put through `test`. No order holds of `NaN`. -/
def compareWith (test : Ordering → Bool) : Value → Value → Option Value
  | .number x, .number y => some (.bool (((compareNumbers? x y).map test).getD false))
  | .string s, .string t => some (.bool (test (Text.compareUnits s t)))
  | _, _ => none

def arithmetic (f : Float → Float → Float) : Value → Value → Option Value
  | .number x, .number y => some (.number (f x y))
  | _, _ => none

/-- The sum of two numbers; with a string on either side, the two texts joined. -/
def add? : Value → Value → Option Value
  | .number x, .number y => some (.number (x + y))
  | v@(.string _), w => do return .string ((← v.hostText?) ++ (← w.hostText?))
  | v, w@(.string _) => do return .string ((← v.hostText?) ++ (← w.hostText?))
  | _, _ => none

/-- Membership: a primitive in an array, a key in an object, a part in a string. -/
def contains? (collection item : Value) : Option Bool :=
  match collection with
  | .array items => if item.isPrimitive then some (items.any fun v => strictlyEqual v item) else none
  | .object entries => item.string?.map fun key => entries.any fun entry => entry.1 == key
  | .string s => item.string?.map fun part => Text.contains s part
  | _ => none

end Value

open Value in
/-- The result of a binary operator. Matching is not decided by the operands' data alone, so `like`
has no result here. -/
def BinaryOp.eval? : BinaryOp → Value → Value → Option Value
  | .add, v, w => add? v w
  | .sub, v, w => arithmetic (· - ·) v w
  | .mul, v, w => arithmetic (· * ·) v w
  | .div, v, w => arithmetic (· / ·) v w
  | .mod, v, w => arithmetic Number.remainder v w
  | .eq, v, w => (strictEquals? v w).map .bool
  | .neq, v, w => (strictEquals? v w).map fun same => .bool !same
  | .lt, v, w => compareWith (· == .lt) v w
  | .lte, v, w => compareWith (· != .gt) v w
  | .gt, v, w => compareWith (· == .gt) v w
  | .gte, v, w => compareWith (· != .lt) v w
  | .isIn, v, w => (contains? w v).map .bool
  | .notIn, v, w => (contains? w v).map fun found => .bool !found
  | .like, _, _ => none

end Motif
