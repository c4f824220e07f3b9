import Motif.Emit.Monad
import Motif.Tree.Node

/-!
# Compiled nodes

How a node is compiled depends on where it stands. A `Compiled` node offers the code for each
position; the code for a node is put together from the compiled children. In a position where the
node cannot stand the step fails.
-/

namespace Motif.Emit

open Script

structure LoopLevel where
  variableId : String
  iterator : Expr
  opening : List Stmt

structure Branch where
  code : Emit (List Stmt)
  terminates : Bool

structure Compiled where
  node : Node
  expr : Emit Expr
  stmt : Emit (List Stmt)
  /-- As an expression of which only the effect counts. -/
  effect : Emit (List Stmt)
  /-- As the value of a statement: what has to be done first, and the expression. -/
  value : Emit (List Stmt × Expr)
  /-- As the last statement of a branch whose value is kept in the result slot. -/
  resultStmt : Emit (List Stmt)
  /-- As a template: whether the subject, which belongs to the given local, fits. -/
  test : Nat → Expr → Emit Expr
  patternTest : Expr → Emit Expr
  entry : Emit Property
  /-- As an element of a collection pattern, given the id of the collection and the position. -/
  element : String → Nat → Emit Expr
  range : Emit LoopLevel
  accumulator : Emit (List Stmt × List (String × String))
  clauseTest : Expr → Emit Expr
  /-- As a clause: its body. The flag says whether its value is kept. -/
  clauseBranch : Bool → Branch

def misplaced {α : Type} (n : Node) (position : Position) : Emit α := fail (.unexpected n.tag position)

/-- Whether the code for an expression gives a truth value of the host, so that it can be a
condition as it is. -/
def isBoolean : Node → Bool
  | ⟨_, _, .literal (.bool _)⟩ => true
  | ⟨_, _, .binary op _ _⟩ => op.isRelational
  | ⟨_, _, .unary op _⟩ => op == .not
  | ⟨_, _, .conj left right⟩ => isBoolean left && isBoolean right
  | ⟨_, _, .disj left right⟩ => isBoolean left && isBoolean right
  | ⟨_, _, .call callee args⟩ => callee.tag == .pattern && args.length == 1
  | _ => false

def truth (n : Node) (expr : Emit Expr) : Emit Expr := do
  let e ← expr
  if isBoolean n then return e else callLibrary "isTrue" [e]

def Compiled.condition (c : Compiled) : Emit Expr := truth c.node c.expr

def statements (body : List Compiled) : Emit (List Stmt) := do
  return (← body.mapM Compiled.stmt).flatten

/-- A literal. Long texts and collections become constants. -/
def literal (value : Value) : Emit Expr := do
  let limit := (← read).options.inlineStringLimit
  let isLarge : Bool := match value with
    | .string s => decide (limit < s.length)
    | v => !v.isPrimitive
  if isLarge then return .name (← useConstant (·.useLiteral value.script))
  else return .literal value

end Motif.Emit
