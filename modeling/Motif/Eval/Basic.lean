import Motif.Annotation
import Motif.Regex.Automaton
import Motif.Tree.Node
import Motif.TypeName

/-!
# Running programs: values and state

What a running program holds beside data: functions with the scope they were made in, patterns,
regular expressions, named types. A run reads the annotations of its tree and may call functions of
its host, and it can fail; what it has done until then stays done.
-/

namespace Motif.Eval

inductive Body where
  | block (body : List Node)
  | expr (expr : Node)

/-- The text of a function. A lambda has no name. -/
structure Code where
  name : Option String
  params : List Node
  guard : Option Node
  body : Body

inductive Val where
  | data (value : Value)
  /-- A function with the scope it was made in and the definition it falls back to. The `stamp`
  tells it apart from others made from the same text. -/
  | function (stamp : Nat) (code : Code) (scope : List (String × Val)) (previous : Option Val)
  | native (name : String)
  | pattern (stamp : Nat) (node : Node) (scope : List (String × Val))
  | regex (pattern flags : String) (compiled : Regex.Automaton)
  | type (t : TypeName)
  deriving Inhabited

abbrev Env := List (String × Val)

namespace Val

def nothing : Val := .data .nothing

def bool (b : Bool) : Val := .data (.bool b)

def typeName : Val → String
  | .data v => v.typeName
  | .function .. => "function"
  | .native _ => "function"
  | .pattern .. => "pattern"
  | .regex .. => "regex"
  | .type _ => "type"

def isTruthy : Val → Bool
  | .data v => v.isTruthy
  | _ => true

def data? : Val → Option Value
  | .data v => some v
  | _ => none

def identical : Val → Val → Bool
  | .function m .., .function n .. => m == n
  | .native f, .native g => f == g
  | .pattern m .., .pattern n .. => m == n
  | .regex p f _, .regex q g _ => p == q && f == g
  | .type s, .type t => s == t
  | _, _ => false

def hasType (t : TypeName) : Val → Bool
  | .data v => (t.check? v).getD false
  | .function .. => t == .any || t == .function
  | .native _ => t == .any || t == .function
  | _ => t == .any

end Val

/-- Why a run failed. Types are given by their names. -/
inductive EvalError where
  | undefined (name : String)
  | notCallable (type : String)
  | noMatchingDefinition (name : String)
  | unsupported (tag : Tag)
  | operator (op left right : String)
  | notData (type : String)
  | notIterable (type : String)
  | unboundContext (id : Nat)
  | missingPatternLocal (id : Nat)
  | regex
  deriving Repr, DecidableEq, Inhabited

def EvalError.message : EvalError → String
  | .undefined name => "'" ++ name ++ "' is not defined"
  | .notCallable type => "a " ++ type ++ " is not callable"
  | .noMatchingDefinition name => "no matching definition for '" ++ name ++ "'"
  | .unsupported tag => "'" ++ tag.name ++ "' is not supported by the interpreter"
  | .operator op left right => "operator '" ++ op ++ "' is not defined for " ++ left ++ " and " ++ right
  | .notData type => "a " ++ type ++ " cannot be stored in a collection"
  | .notIterable type => "cannot iterate over a " ++ type
  | .unboundContext id => "context reference NodeId(" ++ toString id ++ ") has no owning pattern local"
  | .missingPatternLocal id => "pattern node NodeId(" ++ toString id ++ ") has no local"
  | .regex => "invalid regex"

structure HostCall where
  name : String
  args : List Val

/-- What a run is given: the annotations of the tree, and the functions of the host. A host function
may remember earlier calls: it is asked with all the calls that were made before. -/
structure Host where
  annotations : Annotations
  natives : String → Option (List HostCall → List Val → Except EvalError Val)

structure Machine where
  locals : List (Nat × Val) := []
  exports : List (String × Val) := []
  calls : List HostCall := []
  nextStamp : Nat := 0

/-- How a run ends early. Running out of fuel says nothing about the program. -/
inductive Stop where
  | error (e : EvalError)
  | outOfFuel

/-- A computation of a running program. The state outlives a failure. -/
abbrev Run := ExceptT Stop (StateM Machine)

def fail {α : Type} (e : EvalError) : Run α := throw (.error e)

def freshStamp : Run Nat := modifyGet fun m => (m.nextStamp, { m with nextStamp := m.nextStamp + 1 })

def setLocal (l : Nat) (v : Val) : Run Unit := modify fun m => { m with locals := Dict.set l v m.locals }

def getLocal (l : Nat) : Run Val := do return (Dict.get? l (← get).locals).getD .nothing

def addExport (name : String) (v : Val) : Run Unit :=
  modify fun m => { m with exports := m.exports ++ [(name, v)] }

def asData (v : Val) : Run Value :=
  match v with
  | .data value => pure value
  | _ => fail (.notData v.typeName)

def callNative (host : Host) (name : String) (args : List Val) : Run Val := do
  let earlier := (← get).calls
  modify fun m => { m with calls := m.calls ++ [{ name, args }] }
  match host.natives name with
  | none => fail (.undefined name)
  | some f =>
    match f earlier args with
    | .ok v => pure v
    | .error e => fail e

end Motif.Eval
