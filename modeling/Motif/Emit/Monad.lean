import Motif.Annotation
import Motif.Emit.Constants
import Motif.Emit.Names
import Motif.Options
import Motif.Tree.Kind

/-!
# Generating code: state and scopes

The state of the generator: the constants of the module so far, the allocator of ids, the table of
names in the current scope, and the functions that are being generated, innermost first. A function
declares at its top every id that is written in it and is not a parameter.
-/

namespace Motif

open Script

namespace Emit

inductive Position where
  | expression
  | statement
  | entry
  | parameter
  | clause
  | range
  | accumulator
  | element
  deriving Repr, DecidableEq, Inhabited

def Position.name : Position → String
  | .expression => "expression"
  | .statement => "statement"
  | .entry => "object entry"
  | .parameter => "parameter"
  | .clause => "match clause"
  | .range => "range"
  | .accumulator => "accumulator"
  | .element => "pattern element"

inductive EmitError where
  | unboundContext (id : Nat)
  | missingPatternLocal (id : Nat)
  | unexpected (tag : Tag) (position : Position)
  | notAModule (tag : Tag)
  deriving Repr, DecidableEq, Inhabited

def EmitError.message : EmitError → String
  | .unboundContext id => "context reference NodeId(" ++ toString id ++ ") has no owning pattern local"
  | .missingPatternLocal id => "pattern node NodeId(" ++ toString id ++ ") has no local"
  | .unexpected tag position => "'" ++ tag.name ++ "' cannot appear in " ++ position.name ++ " position"
  | .notAModule tag => "module root must be a module, found '" ++ tag.name ++ "'"

structure Frame where
  hoisted : List String := []
  params : List String := []
  isGenerator : Bool := false
  /-- Whether the function returns what its branches leave in the result slot. -/
  hasResult : Bool := false
  deriving Repr, DecidableEq, Inhabited

def resultId : String := "$v"

def Frame.hoist (f : Frame) (id : String) : Frame :=
  if f.params.contains id || f.hoisted.contains id then f
  else { f with hoisted := f.hoisted ++ [id] }

def Frame.wrap (f : Frame) (code : List Stmt) : List Stmt :=
  let ids := f.hoisted ++ if f.hasResult then [resultId] else []
  (if ids.isEmpty then [] else [.declare ids]) ++ code
    ++ if f.hasResult then [.ret (.name resultId)] else []

structure Setting where
  options : Options
  annotations : Annotations

structure State where
  constants : Constants := {}
  ids : IdAllocator := {}
  names : NameTable := {}
  frames : List Frame := []
  deriving Repr, DecidableEq, Inhabited

end Emit

abbrev Emit := ReaderT Emit.Setting (StateT Emit.State (Except Emit.EmitError))

namespace Emit

def fail {α : Type} (e : EmitError) : Emit α := throw e

/-! ## Functions -/

def modifyFrame (f : Frame → Frame) : Emit Unit :=
  modify fun s =>
    match s.frames with
    | [] => { s with frames := [f {}] }
    | frame :: outer => { s with frames := f frame :: outer }

def hoist (id : String) : Emit Unit := modifyFrame (·.hoist id)

def inGenerator : Emit Bool := do return (← get).frames.head?.any Frame.isGenerator

/-- Runs a step in a nested naming scope: what it writes is not seen afterwards. -/
def nestedNames {α : Type} (step : Emit α) : Emit α := do
  let saved := (← get).names
  modify fun s => { s with names := saved.derive }
  let result ← step
  modify fun s => { s with names := saved }
  return result

/-- Runs a step inside a new function. Gives what the function came to be. -/
def inFrame {α : Type} (frame : Frame) (step : Emit α) : Emit (α × Frame) :=
  nestedNames do
    modify fun s => { s with frames := frame :: s.frames }
    let result ← step
    let made := (← get).frames.head?.getD {}
    modify fun s => { s with frames := s.frames.tail }
    return (result, made)

/-! ## Names -/

def newVersion (name : String) : Emit String :=
  modifyGet fun s =>
    let (id, ids) := s.ids.version name
    (id, { s with ids, names := s.names.push name id })

def writeName (name : String) : Emit String := do
  let id ← newVersion name
  hoist id
  return id

/-- The current id of a name. A name that has none is given one. -/
def readName (name : String) : Emit String := do
  match (← get).names.current? name with
  | some id => return id
  | none => writeName name

def writeParam (name : String) : Emit String := do
  let id ← newVersion name
  modifyFrame fun f => { f with params := f.params ++ [id] }
  return id

def temp : Emit String := do
  let id ← modifyGet fun s =>
    let (id, ids) := s.ids.temp
    (id, { s with ids })
  hoist id
  return id

/-! ## Constants -/

def useConstant (use : Constants → String × Constants) : Emit String :=
  modifyGet fun s =>
    let (id, constants) := use s.constants
    (id, { s with constants })

def library (name : String) : Emit String := useConstant (·.useImport name)

def callLibrary (name : String) (args : List Expr) : Emit Expr := do
  return .callName (← library name) args

def isHostGlobal (name : String) : Emit Bool := do
  return ((← get).names.current? name).isNone && (← read).options.globals.contains name

end Emit

end Motif
