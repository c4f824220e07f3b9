import Motif.Tree.Node

/-!
# The shape of patterns

The first half of pattern elaboration changes the tree and nothing else.

* A parameter with a pattern loses it, and the function's guard gets a term that applies the pattern
  to the parameter. The terms stand in the order of the parameters, before the guard that was there.
* A clause's alternatives are all patterns.
* A pattern whose template is a pattern gives way to it, and an element of a pattern holds the
  template of a pattern rather than the pattern.

New nodes take fresh ids. A function draws the ids of its guard before anything below it is visited.
-/

namespace Motif

/-- Computations that draw fresh ids. The state is the next free one. -/
abbrev Fresh := StateM Nat

def freshId : Fresh Nat := modifyGet fun next => (next, next + 1)

namespace Desugar

def isPattern (n : Node) : Bool := n.tag == .pattern

/-! ## Ids of the new nodes -/

def drawWrap (template : Node) : Fresh (Option Nat) :=
  if isPattern template then pure none
  else do
    let id ← freshId
    return some id

structure TermIds where
  wrap : Option Nat
  argument : Nat
  call : Nat

def drawTerm (param : Node) : Fresh (Option TermIds) :=
  match param.kind with
  | .param _ (some template) _ => do
    let wrap ← drawWrap template
    let argument ← freshId
    let call ← freshId
    return some { wrap, argument, call }
  | _ => pure none

def drawMany : Nat → Fresh (List Nat)
  | 0 => pure []
  | n + 1 => do
    let id ← freshId
    let ids ← drawMany n
    return id :: ids

/-! ## New nodes -/

def wrapWith (id : Option Nat) (span : Span) (template : Node) : Node :=
  match id with
  | some id => { id, span, kind := .pattern template }
  | none => template

def termFor (ids : TermIds) (span : Span) (name : String) (pattern : Node) : Node :=
  { id := ids.call, span,
    kind := .call pattern [{ id := ids.argument, span, kind := .ident name }] }

/-- Terms joined from the left. The spans are those that the terms had in the source. -/
def conjoin (left : Node) (span : Span) : List Nat → List (Span × Node) → Node
  | id :: ids, (other, right) :: rest =>
    let span := span.merge other
    conjoin { id, span, kind := .conj left right } span ids rest
  | _, _ => left

def guardOf (ids : List Nat) : List (Span × Node) → Option Node
  | [] => none
  | (span, first) :: rest => some (conjoin first span ids rest)

def plainParam (n : Node) : Option Node :=
  match n.kind with
  | .param name (some _) variadic => some { n with kind := .param name none variadic }
  | _ => none

/-! ## The walk -/

mutual

def shape : Node → Fresh Node
  | ⟨id, span, kind⟩ => shapeKind id span kind

def shapeKind (id : Nat) (span : Span) : Kind Node → Fresh Node
  | .module body => do return ⟨id, span, .module (← shapeList body)⟩
  | .declare assignments => do return ⟨id, span, .declare (← shapeList assignments)⟩
  | .assign target value => do return ⟨id, span, .assign target (← shape value)⟩
  | .branch condition thenBody elseBody => do
    return ⟨id, span, .branch (← shape condition) (← shapeList thenBody) (← shapeList elseBody)⟩
  | .loop ranges body elseBody => do
    return ⟨id, span, .loop (← shapeList ranges) (← shapeList body) (← shapeList elseBody)⟩
  | .range target collection guard => do
    return ⟨id, span, .range target (← shape collection) (← shapeOption guard)⟩
  | .ret value => do return ⟨id, span, .ret (← shape value)⟩
  | .exprStmt expr => do return ⟨id, span, .exprStmt (← shape expr)⟩
  | .function name params guard body => do
    let plan ← Kind.traverseList drawTerm params
    let terms := (plan.filter Option.isSome).length
    if terms = 0 then
      return ⟨id, span,
        .function name (← shapeList params) (← shapeOption guard) (← shapeList body)⟩
    else
      let joins ← drawMany (terms + guard.toList.length - 1)
      let params' ← shapeParams params
      let terms ← shapeTerms plan params
      let guard' ← shapeGuard guard
      let body' ← shapeList body
      return ⟨id, span, .function name params' (guardOf joins (terms ++ guard')) body'⟩
  | .param name template variadic => do
    return ⟨id, span, .param name (← shapeOption template) variadic⟩
  | .importAll source localName => return ⟨id, span, .importAll source localName⟩
  | .importFrom source items => return ⟨id, span, .importFrom source items⟩
  | .exported decl items => do return ⟨id, span, .exported (← shapeOption decl) items⟩
  | .literal value => return ⟨id, span, .literal value⟩
  | .ident name => return ⟨id, span, .ident name⟩
  | .context => return ⟨id, span, .context⟩
  | .unary op operand => do return ⟨id, span, .unary op (← shape operand)⟩
  | .binary op left right => do return ⟨id, span, .binary op (← shape left) (← shape right)⟩
  | .conj left right => do return ⟨id, span, .conj (← shape left) (← shape right)⟩
  | .disj left right => do return ⟨id, span, .disj (← shape left) (← shape right)⟩
  | .cond condition consequent alternative => do
    return ⟨id, span, .cond (← shape condition) (← shape consequent) (← shape alternative)⟩
  | .array elements => do return ⟨id, span, .array (← shapeList elements)⟩
  | .object entries => do return ⟨id, span, .object (← shapeList entries)⟩
  | .entry key value => do return ⟨id, span, .entry (← shape key) (← shape value)⟩
  | .member object property => do
    return ⟨id, span, .member (← shape object) (← shape property)⟩
  | .call callee args => do return ⟨id, span, .call (← shape callee) (← shapeList args)⟩
  | .lambda params body => do return ⟨id, span, .lambda (← shapeList params) (← shape body)⟩
  | .reduce accumulators ranges body => do
    return ⟨id, span,
      .reduce (← shapeList accumulators) (← shapeList ranges) (← shapeList body)⟩
  | .choose value clauses elseBody => do
    return ⟨id, span, .choose (← shape value) (← shapeList clauses) (← shapeList elseBody)⟩
  | .clause patterns body => do
    let wraps ← Kind.traverseList drawWrap patterns
    return ⟨id, span, .clause (← shapeAlternatives wraps patterns) (← shapeList body)⟩
  | .pattern expr =>
    if isPattern expr then shape expr
    else do return ⟨id, span, .pattern (← shape expr)⟩
  | .objectPattern elements => do return ⟨id, span, .objectPattern (← shapeList elements)⟩
  | .arrayPattern elements => do return ⟨id, span, .arrayPattern (← shapeList elements)⟩
  | .element key value => do
    return ⟨id, span, .element (← shapeOption key) (← shapeTemplate value)⟩
  | .regex pattern flags => return ⟨id, span, .regex pattern flags⟩
  | .doBlock body => do return ⟨id, span, .doBlock (← shapeList body)⟩
  | .generator body => do return ⟨id, span, .generator (← shapeList body)⟩
  | .await resolver value => do return ⟨id, span, .await resolver (← shape value)⟩
  | .emit value => do return ⟨id, span, .emit (← shape value)⟩

def shapeList : List Node → Fresh (List Node)
  | [] => pure []
  | n :: ns => do
    let n ← shape n
    let ns ← shapeList ns
    return n :: ns

def shapeOption : Option Node → Fresh (Option Node)
  | none => pure none
  | some n => do
    let n ← shape n
    return some n

def shapeTemplate : Node → Fresh Node
  | ⟨id, span, kind⟩ =>
    match kind with
    | .pattern expr => shapeTemplate expr
    | kind => shapeKind id span kind

/-- The alternatives of a clause, each in a pattern. -/
def shapeAlternatives : List (Option Nat) → List Node → Fresh (List Node)
  | wrap :: wraps, n :: ns => do
    let template ← shape n
    let rest ← shapeAlternatives wraps ns
    return wrapWith wrap n.span template :: rest
  | _, _ => pure []

/-- The parameters of a function, without the patterns that have become terms. -/
def shapeParams : List Node → Fresh (List Node)
  | [] => pure []
  | n :: ns => do
    let param ← match plainParam n with
      | some param => pure param
      | none => shape n
    let rest ← shapeParams ns
    return param :: rest

def shapeTerms : List (Option TermIds) → List Node → Fresh (List (Span × Node))
  | some ids :: plan, ⟨_, span, .param name (some template) _⟩ :: params => do
    let pattern ← shape template
    let rest ← shapeTerms plan params
    return (span, termFor ids span name (wrapWith ids.wrap template.span pattern)) :: rest
  | _ :: plan, _ :: params => shapeTerms plan params
  | _, _ => pure []

def shapeGuard : Option Node → Fresh (List (Span × Node))
  | none => pure []
  | some n => do
    let guard ← shape n
    return [(n.span, guard)]

end

end Desugar

end Motif
