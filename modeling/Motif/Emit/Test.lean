import Motif.Emit.Compiled
import Motif.TypeName

/-!
# Code for pattern tests

A test is an expression of the host over the expression of its subject. Collections and templates
that speak of the subject bind it to the local of the pattern first; all other tests use it where it
stands.
-/

namespace Motif.Emit

open Script

def bindLocal (id : String) (subject : Expr) : Emit (Option Expr) := do
  if subject.isName id then return none
  hoist id
  return some (.assign id subject)

def afterBinding (binding : Option Expr) (test : Expr) : Expr :=
  match binding with
  | some b => .comma b test
  | none => test

def libraryTest (expr : Emit Expr) (subject : Expr) : Emit Expr := do
  let matcher ← expr
  callLibrary "isMatch" [matcher, subject]

def conditionTest (condition : Emit Expr) (l : Nat) (subject : Expr) : Emit Expr := do
  let test ← condition
  match ← bindLocal (patternLocal l) subject with
  | some binding => return .paren (.comma binding test)
  | none => return test

/-- A bare name: a type, if it has no id and is the name of one. -/
def nameTest (name : String) (expr : Emit Expr) (subject : Expr) : Emit Expr := do
  if ((← get).names.current? name).isSome then libraryTest expr subject
  else match TypeName.ofName? name with
    | some t => callLibrary t.predicate [subject]
    | none => libraryTest expr subject

def simpleTest (n : Node) (expr : Emit Expr) (l : Nat) (subject : Expr) : Emit Expr := do
  let a := (← read).annotations
  if n.tag == .context || a.has n.id .patternContext then conditionTest (truth n expr) l subject
  else match n.kind with
    | .ident name => nameTest name expr subject
    | .literal value =>
      if value.isPrimitive && a.testsByEquality n.id then
        return .paren (.binary "===" subject (← literal value))
      else libraryTest expr subject
    | _ => libraryTest expr subject

def elementKey (key : Option Compiled) (position : Nat) : Emit Expr :=
  match key with
  | none => return .ofNat position
  | some k =>
    match k.node.kind with
    | .literal (.string s) => return .ofString s
    | .ident name => return .ofString name
    | _ => k.expr

def elementTest (n : Node) (key : Option Compiled) (template : Compiled) (collection : String)
    (position : Nat) : Emit Expr := do
  let part := Expr.index (.name collection) (← elementKey key position)
  match (← read).annotations.local? n.id with
  | none => fail (.missingPatternLocal n.id)
  | some l => template.test l part

def elementTests (elements : List Compiled) (collection : String) : Emit (List Expr) :=
  elements.zipIdx.mapM fun (e, i) => e.element collection i

/-- A collection pattern: the subject is bound, then its shape is tested, then its elements. -/
def collectionTest (n : Node) (elements : List Compiled) (isArray : Bool) (l : Nat)
    (subject : Expr) : Emit Expr := do
  let id := patternLocal (((← read).annotations.parent? n.id).getD l)
  let binding ← bindLocal id subject
  let shape ← callLibrary (if isArray then "isArray" else "isObject") [.name id]
  let length := Expr.binary "===" (.member (.name id) "length") (.ofNat elements.length)
  let tests ← elementTests elements id
  return .paren (afterBinding binding (.all (shape :: (if isArray then [length] else []) ++ tests)))

def patternTest (n : Node) (test : Nat → Expr → Emit Expr) (subject : Expr) : Emit Expr := do
  match (← read).annotations.local? n.id with
  | none => fail (.missingPatternLocal n.id)
  | some l => test l subject

def patternValue (n : Node) (test : Nat → Expr → Emit Expr) : Emit Expr := do
  match (← read).annotations.local? n.id with
  | none => fail (.missingPatternLocal n.id)
  | some l =>
    let id := patternLocal l
    let (e, frame) ← inFrame { params := [id] } (test l (.name id))
    callLibrary "definePattern" [.function false [id] (frame.wrap [.ret e])]

end Motif.Emit
