import Motif.Emit.Test

/-!
# Code for expressions
-/

namespace Motif.Emit

open Script

def identExpr (name : String) : Emit Expr := do
  if ← isHostGlobal name then return .name (← library name)
  else return .name (← readName name)

def contextExpr (id : Nat) : Emit Expr := do
  match (← read).annotations.context? id with
  | some l => return .name (patternLocal l)
  | none => fail (.unboundContext id)

def unaryExpr (op : UnaryOp) (operand : Compiled) : Emit Expr := do
  let e ← operand.expr
  match op with
  | .neg => return .paren (.minus e)
  | .not => if isBoolean operand.node then return .bang (.paren e) else callLibrary "isFalse" [e]

def binaryExpr (op : BinaryOp) (left right : Compiled) : Emit Expr := do
  let l ← left.expr
  let r ← right.expr
  match op with
  | .isIn => callLibrary "isIn" [l, r]
  | .notIn => return .bang (← callLibrary "isIn" [l, r])
  | .like => callLibrary "isMatch" [r, l]
  | _ => return .paren (.binary (op.script?.getD "") l r)

/-- A short-circuit operator. The left operand is the result if the library function `decides` holds
of it; it is evaluated once. Truth values can use the operator of the host. -/
def logicalExpr (n : Node) (left right : Compiled) (decides hostOp : String) : Emit Expr := do
  let l ← left.expr
  let r ← right.expr
  if isBoolean n then return .paren (.binary hostOp l r)
  else
    let t ← temp
    let test ← callLibrary decides [.assign t l]
    return .paren (.cond test (.name t) r)

def condExpr (condition consequent alternative : Compiled) : Emit Expr := do
  let test ← condition.condition
  let yes ← consequent.expr
  let no ← alternative.expr
  return .paren (.cond test yes no)

/-- The expression that is called or taken apart, in parentheses unless it is a simple one. -/
def callee (c : Compiled) : Emit Expr := do
  let e ← c.expr
  match c.node.kind with
  | .ident _ | .member .. | .call .. | .literal _ | .array _ => return e
  | _ => return if e.isClosed then e else .paren e

/-- The object of a member expression. A bare number would swallow the dot. -/
def memberTarget (object : Compiled) : Emit Expr := do
  let e ← callee object
  match object.node.kind with
  | .literal (.number x) => return if Value.signed x then e else .paren e
  | _ => return e

def memberExpr (object property : Compiled) : Emit Expr := do
  let target ← memberTarget object
  match property.node.kind with
  | .ident name => return .member target name
  | _ => return .index target (← property.expr)

def entryProperty (key value : Compiled) : Emit Property := do
  match key.node.kind with
  | .literal (.string s) => return .named s (← value.expr)
  | .ident name => return .named name (← value.expr)
  | _ => return .computed (← key.expr) (← value.expr)

def callExpr (function : Compiled) (args : List Compiled) : Emit Expr :=
  match function.node.kind, args with
  | .pattern _, [subject] => do function.patternTest (← subject.expr)
  | _, _ => do
    let target ← callee function
    return .call target (← args.mapM Compiled.expr)

/-- One parameter: its id, or the statement that collects the arguments from its position on. -/
def param (n : Node) (position : Nat) : Emit (List String × List Stmt) :=
  match n.kind with
  | .param name _ true => do
    let id ← writeName name
    let rest ← callLibrary "sliceArray" [.name "arguments", .ofNat position]
    return ([], [.assign (.name id) rest])
  | .param name _ false => do return ([← writeParam name], [])
  | _ => misplaced n .parameter

def params (ps : List Compiled) : Emit (List String × List Stmt) := do
  let parts ← ps.zipIdx.mapM fun (p, i) => param p.node i
  return (parts.flatMap Prod.fst, parts.flatMap Prod.snd)

def lambdaExpr (ps : List Compiled) (body : Compiled) : Emit Expr := do
  let ((ids, code), frame) ← inFrame {} do
    let (ids, opening) ← params ps
    let e ← body.expr
    return (ids, opening ++ [Stmt.ret e])
  return .function false ids (frame.wrap code)

def regexExpr (pattern flags : String) : Emit Expr := do
  let args := [Text.Quoted.quote pattern, Text.Quoted.quote flags]
  return .name (← useConstant (·.useBuilder "defineRegex" args))

/-- Statements in the place of an expression: a function that is called at once. Inside a generator
it is one too, and what it yields is passed on. -/
def immediate (code : Emit (List Stmt)) : Emit Expr := do
  let isGenerator ← inGenerator
  let (body, frame) ← inFrame { isGenerator } code
  let call := Expr.call (.paren (.function isGenerator [] (frame.wrap body))) []
  return if isGenerator then .paren (.yieldAll call) else call

def generatorBlock (builder : String) (body : List Compiled) : Emit Expr := do
  let (code, frame) ← inFrame { isGenerator := true } (statements body)
  callLibrary builder [.function true [] (frame.wrap code)]

def yieldExpr (wrapper : String) (value : Compiled) : Emit Expr := do
  let e ← value.expr
  return .paren (.yield (← callLibrary wrapper [e]))

def awaitName : Resolver → String
  | .value => "awaitValue"
  | .any => "awaitAny"
  | .all => "awaitAll"

end Motif.Emit
