import Motif.Emit.Statement
import Motif.Script.Printer

/-!
# Code for modules

A module becomes a function of the library, which declares the constants and returns the function of
the module's body.
-/

namespace Motif.Emit

open Script

def exprCode (n : Node) : Kind Compiled → Emit Expr
  | .literal value => literal value
  | .ident name => identExpr name
  | .context => contextExpr n.id
  | .unary op operand => unaryExpr op operand
  | .binary op left right => binaryExpr op left right
  | .conj left right => logicalExpr n left right "isFalse" "&&"
  | .disj left right => logicalExpr n left right "isTrue" "||"
  | .cond condition consequent alternative => condExpr condition consequent alternative
  | .array elements => do return .array (← elements.mapM Compiled.expr)
  | .object entries => do return .object (← entries.mapM Compiled.entry)
  | .member object property => memberExpr object property
  | .call function args => callExpr function args
  | .lambda ps body => lambdaExpr ps body
  | .pattern template => patternValue n template.test
  | .regex pattern flags => regexExpr pattern flags
  | .choose value clauses otherwise => immediate (chooseStmt true value clauses otherwise)
  | .reduce accumulators ranges body => immediate do
    let (code, v) ← reduceCode accumulators ranges body
    return code ++ [.ret v]
  | .doBlock body => generatorBlock "createDoBlock" body
  | .generator body => generatorBlock "createGenerator" body
  | .await resolver value => yieldExpr (awaitName resolver) value
  | .emit value => yieldExpr "emitValue" value
  | _ => misplaced n .expression

def effectCode (expr : Emit Expr) : Kind Compiled → Emit (List Stmt)
  | .choose value clauses otherwise => chooseStmt false value clauses otherwise
  | .reduce accumulators ranges body => do return (← reduceCode accumulators ranges body).1
  | _ => do return [.expr (← expr)]

def stmtCode (n : Node) : Kind Compiled → Emit (List Stmt)
  | .declare assignments => statements assignments
  | .assign target value => do
    let (pre, v) ← value.value
    return pre ++ (← assignTo target v)
  | .branch condition thenBody elseBody => branchStmt condition thenBody elseBody
  | .loop ranges body elseBody => loopStmt ranges body elseBody
  | .ret value => do
    let (pre, v) ← value.value
    return pre ++ [.ret v]
  | .exprStmt e => e.effect
  | .function name ps guard body => functionStmt n name ps guard body
  | .importAll source localName => importAllStmt source localName
  | .importFrom source items => importFromStmt source items
  | .exported decl items => exportedStmt decl items
  | _ => misplaced n .statement

def compileNode (n : Node) (k : Kind Compiled) : Compiled :=
  let expr := exprCode n k
  let stmt := stmtCode n k
  let test : Nat → Expr → Emit Expr := match k with
    | .objectPattern elements => collectionTest n elements false
    | .arrayPattern elements => collectionTest n elements true
    | _ => simpleTest n expr
  { node := n
    expr
    stmt
    effect := effectCode expr k
    value := match k with
      | .reduce accumulators ranges body => reduceCode accumulators ranges body
      | _ => do return ([], ← expr)
    resultStmt := match k with
      | .exprStmt e => keepValue e
      | _ => stmt
    test
    patternTest := match k with
      | .pattern template => patternTest n template.test
      | _ => patternTest n test
    entry := match k with
      | .entry key value => entryProperty key value
      | _ => misplaced n .entry
    element := match k with
      | .element key template => elementTest n key template
      | _ => fun _ _ => misplaced n .element
    range := match k with
      | .range target collection guard => loopLevel target collection guard
      | _ => misplaced n .range
    accumulator := match k with
      | .assign target value => accumulator target value
      | _ => misplaced n .accumulator
    clauseTest := match k with
      | .clause patterns _ => clauseTest patterns
      | _ => fun _ => misplaced n .clause
    clauseBranch := fun keepResult => match k with
      | .clause _ body => branch keepResult body
      | _ => { code := misplaced n .clause, terminates := false } }

def compile : Node → Compiled := Node.fold compileNode

theorem compile_eq (n : Node) : compile n = compileNode n (n.kind.map compile) := Node.fold_eq compileNode n

theorem compile_node (n : Node) : (compile n).node = n := by
  rw [compile_eq]
  rfl

/-- The code of a module and its imports, given how its statements are compiled. -/
def programBy (compile : Node → Compiled) (root : Node) : Emit (Expr × List String) := do
  match root.kind with
  | .module body =>
    let (code, frame) ← inFrame {} (statements (body.map compile))
    let constants := (← get).constants
    let strict := if (← read).options.strictMode then [Stmt.directive "use strict"] else []
    let main := Expr.function false ["$c", "$x"] (frame.wrap code)
    return (.paren (.function false ["$r"] (strict ++ constants.declarations ++ [.ret main])),
      constants.imports)
  | _ => fail (.notAModule root.tag)

def program (root : Node) : Emit (Expr × List String) := programBy compile root

structure GeneratedModule where
  text : String
  imports : List String
  deriving Repr, DecidableEq, Inhabited

def generate (options : Options) (annotations : Annotations) (root : Node) :
    Except EmitError GeneratedModule := do
  let ((e, imports), _) ← ((program root).run { options, annotations }).run {}
  return { text := e.text options.indent, imports }

end Motif.Emit
