import Motif.Value

/-!
# Type names

Names such as `Integer` that stand for a test on values. Whether something is a function is not a
question about data, so `Function` has a predicate but no answer for data values.
-/

namespace Motif

inductive TypeName where
  | any
  | array
  | boolean
  | function
  | integer
  | null
  | number
  | object
  | string
  deriving Repr, DecidableEq, Inhabited

namespace TypeName

def all : List TypeName := [.any, .array, .boolean, .function, .integer, .null, .number, .object, .string]

def name : TypeName → String
  | .any => "Any"
  | .array => "Array"
  | .boolean => "Boolean"
  | .function => "Function"
  | .integer => "Integer"
  | .null => "Null"
  | .number => "Number"
  | .object => "Object"
  | .string => "String"

def ofName? (name : String) : Option TypeName := all.find? fun t => t.name == name

/-- The library function that tests for the type in generated code. -/
def predicate (t : TypeName) : String := "is" ++ t.name

def check? : TypeName → Value → Option Bool
  | .any, .nothing => some false
  | .any, _ => some true
  | .array, .array _ => some true
  | .boolean, .bool _ => some true
  | .integer, v => some v.isInteger
  | .null, .null => some true
  | .number, .number _ => some true
  | .object, .object _ => some true
  | .string, .string _ => some true
  | .function, _ => none
  | _, _ => some false

end TypeName

end Motif
