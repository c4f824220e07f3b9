import Motif.Operator
import Motif.Value

/-!
# Kinds of nodes

`Kind α` is one layer of a syntax tree: what a node is, with `α` in place of its children. It is a
container of its children in source order: `map` replaces each, `traverse` does so with effects
from left to right, `children` lists them. Some lists are statement lists, called bodies; `traverse`
takes a second action for those, run once the members of a body are done.
-/

namespace Motif

inductive Target where
  | name (name : String)
  /-- Names for the items of an array. -/
  | array (names : List String)
  /-- Names for the entries of an object, as pairs of key and name. -/
  | object (names : List (String × String))
  deriving Repr, DecidableEq, Inhabited

def Target.names : Target → List String
  | .name n => [n]
  | .array ns => ns
  | .object ns => ns.map Prod.snd

structure ModuleItem where
  name : String
  /-- The name it is known by on the other side, where that differs. -/
  otherName : Option String
  deriving Repr, DecidableEq, Inhabited

def ModuleItem.visibleName (item : ModuleItem) : String := item.otherName.getD item.name

inductive Resolver where
  | value
  | any
  | all
  deriving Repr, DecidableEq, Inhabited

namespace Resolver

def name : Resolver → String
  | .value => "value"
  | .any => "any"
  | .all => "all"

def ofName? (name : String) : Option Resolver := [value, any, all].find? fun r => r.name == name

end Resolver

inductive Kind (α : Type) where
  | module (body : List α)
  -- Statements.
  | declare (assignments : List α)
  | assign (target : Target) (value : α)
  | branch (condition : α) (thenBody elseBody : List α)
  | loop (ranges body elseBody : List α)
  | range (target : Target) (collection : α) (guard : Option α)
  | ret (value : α)
  | exprStmt (expr : α)
  | function (name : String) (params : List α) (guard : Option α) (body : List α)
  | param (name : String) (pattern : Option α) (variadic : Bool)
  | importAll (source localName : String)
  | importFrom (source : String) (items : List ModuleItem)
  | exported (decl : Option α) (items : List ModuleItem)
  -- Expressions.
  | literal (value : Value)
  | ident (name : String)
  | context
  | unary (op : UnaryOp) (operand : α)
  | binary (op : BinaryOp) (left right : α)
  | conj (left right : α)
  | disj (left right : α)
  | cond (condition consequent alternative : α)
  | array (elements : List α)
  | object (entries : List α)
  | entry (key value : α)
  | member (object property : α)
  | call (callee : α) (args : List α)
  | lambda (params : List α) (body : α)
  | reduce (accumulators ranges body : List α)
  | choose (value : α) (clauses elseBody : List α)
  | clause (patterns body : List α)
  -- Patterns.
  | pattern (expr : α)
  | objectPattern (elements : List α)
  | arrayPattern (elements : List α)
  | element (key : Option α) (value : α)
  | regex (pattern flags : String)
  -- Concurrency.
  | doBlock (body : List α)
  | generator (body : List α)
  | await (resolver : Resolver) (value : α)
  | emit (value : α)
  deriving Repr, DecidableEq, Inhabited

inductive Tag where
  | module
  | declare
  | assign
  | branch
  | loop
  | range
  | ret
  | exprStmt
  | function
  | param
  | importAll
  | importFrom
  | exported
  | literal
  | ident
  | context
  | unary
  | binary
  | conj
  | disj
  | cond
  | array
  | object
  | entry
  | member
  | call
  | lambda
  | reduce
  | choose
  | clause
  | pattern
  | objectPattern
  | arrayPattern
  | element
  | regex
  | doBlock
  | generator
  | await
  | emit
  deriving Repr, DecidableEq, Inhabited

namespace Tag

def name : Tag → String
  | .module => "Module"
  | .declare => "Let"
  | .assign => "Assignment"
  | .branch => "If"
  | .loop => "For"
  | .range => "Range"
  | .ret => "Return"
  | .exprStmt => "ExprStatement"
  | .function => "Function"
  | .param => "Param"
  | .importAll => "Import"
  | .importFrom => "From"
  | .exported => "Export"
  | .literal => "Literal"
  | .ident => "Identifier"
  | .context => "Context"
  | .unary => "Unary"
  | .binary => "Binary"
  | .conj => "And"
  | .disj => "Or"
  | .cond => "Conditional"
  | .array => "Array"
  | .object => "Object"
  | .entry => "Entry"
  | .member => "Member"
  | .call => "Call"
  | .lambda => "Lambda"
  | .reduce => "Reduce"
  | .choose => "Match"
  | .clause => "MatchClause"
  | .pattern => "Pattern"
  | .objectPattern => "ObjectPattern"
  | .arrayPattern => "ArrayPattern"
  | .element => "PatternElement"
  | .regex => "Regex"
  | .doBlock => "Do"
  | .generator => "Generate"
  | .await => "Await"
  | .emit => "Emit"

def all : List Tag :=
  [.module, .declare, .assign, .branch, .loop, .range, .ret, .exprStmt, .function, .param,
    .importAll, .importFrom, .exported, .literal, .ident, .context, .unary, .binary, .conj, .disj,
    .cond, .array, .object, .entry, .member, .call, .lambda, .reduce, .choose, .clause, .pattern,
    .objectPattern, .arrayPattern, .element, .regex, .doBlock, .generator, .await, .emit]

def ofName? (name : String) : Option Tag := all.find? fun tag => tag.name == name

def isScopeContainer : Tag → Bool
  | .module | .function | .lambda | .reduce | .loop | .doBlock | .generator => true
  | _ => false

end Tag

namespace Kind

variable {α β : Type}

def tag : Kind α → Tag
  | .module .. => .module
  | .declare .. => .declare
  | .assign .. => .assign
  | .branch .. => .branch
  | .loop .. => .loop
  | .range .. => .range
  | .ret .. => .ret
  | .exprStmt .. => .exprStmt
  | .function .. => .function
  | .param .. => .param
  | .importAll .. => .importAll
  | .importFrom .. => .importFrom
  | .exported .. => .exported
  | .literal .. => .literal
  | .ident .. => .ident
  | .context => .context
  | .unary .. => .unary
  | .binary .. => .binary
  | .conj .. => .conj
  | .disj .. => .disj
  | .cond .. => .cond
  | .array .. => .array
  | .object .. => .object
  | .entry .. => .entry
  | .member .. => .member
  | .call .. => .call
  | .lambda .. => .lambda
  | .reduce .. => .reduce
  | .choose .. => .choose
  | .clause .. => .clause
  | .pattern .. => .pattern
  | .objectPattern .. => .objectPattern
  | .arrayPattern .. => .arrayPattern
  | .element .. => .element
  | .regex .. => .regex
  | .doBlock .. => .doBlock
  | .generator .. => .generator
  | .await .. => .await
  | .emit .. => .emit

@[simp]
def children : Kind α → List α
  | .module body => body
  | .declare assignments => assignments
  | .assign _ value => [value]
  | .branch condition thenBody elseBody => condition :: thenBody ++ elseBody
  | .loop ranges body elseBody => ranges ++ body ++ elseBody
  | .range _ collection guard => collection :: guard.toList
  | .ret value => [value]
  | .exprStmt expr => [expr]
  | .function _ params guard body => params ++ guard.toList ++ body
  | .param _ p _ => p.toList
  | .importAll .. => []
  | .importFrom .. => []
  | .exported decl _ => decl.toList
  | .literal _ => []
  | .ident _ => []
  | .context => []
  | .unary _ operand => [operand]
  | .binary _ left right => [left, right]
  | .conj left right => [left, right]
  | .disj left right => [left, right]
  | .cond condition consequent alternative => [condition, consequent, alternative]
  | .array elements => elements
  | .object entries => entries
  | .entry key value => [key, value]
  | .member target property => [target, property]
  | .call callee args => callee :: args
  | .lambda params body => params ++ [body]
  | .reduce accumulators ranges body => accumulators ++ ranges ++ body
  | .choose value clauses elseBody => value :: clauses ++ elseBody
  | .clause patterns body => patterns ++ body
  | .pattern expr => [expr]
  | .objectPattern elements => elements
  | .arrayPattern elements => elements
  | .element key value => key.toList ++ [value]
  | .regex .. => []
  | .doBlock body => body
  | .generator body => body
  | .await _ value => [value]
  | .emit value => [value]

def map (f : α → β) : Kind α → Kind β
  | .module body => .module (body.map f)
  | .declare assignments => .declare (assignments.map f)
  | .assign target value => .assign target (f value)
  | .branch condition thenBody elseBody => .branch (f condition) (thenBody.map f) (elseBody.map f)
  | .loop ranges body elseBody => .loop (ranges.map f) (body.map f) (elseBody.map f)
  | .range target collection guard => .range target (f collection) (guard.map f)
  | .ret value => .ret (f value)
  | .exprStmt expr => .exprStmt (f expr)
  | .function name params guard body => .function name (params.map f) (guard.map f) (body.map f)
  | .param name p variadic => .param name (p.map f) variadic
  | .importAll source localName => .importAll source localName
  | .importFrom source items => .importFrom source items
  | .exported decl items => .exported (decl.map f) items
  | .literal value => .literal value
  | .ident name => .ident name
  | .context => .context
  | .unary op operand => .unary op (f operand)
  | .binary op left right => .binary op (f left) (f right)
  | .conj left right => .conj (f left) (f right)
  | .disj left right => .disj (f left) (f right)
  | .cond condition consequent alternative => .cond (f condition) (f consequent) (f alternative)
  | .array elements => .array (elements.map f)
  | .object entries => .object (entries.map f)
  | .entry key value => .entry (f key) (f value)
  | .member target property => .member (f target) (f property)
  | .call callee args => .call (f callee) (args.map f)
  | .lambda params body => .lambda (params.map f) (f body)
  | .reduce accumulators ranges body => .reduce (accumulators.map f) (ranges.map f) (body.map f)
  | .choose value clauses elseBody => .choose (f value) (clauses.map f) (elseBody.map f)
  | .clause patterns body => .clause (patterns.map f) (body.map f)
  | .pattern expr => .pattern (f expr)
  | .objectPattern elements => .objectPattern (elements.map f)
  | .arrayPattern elements => .arrayPattern (elements.map f)
  | .element key value => .element (key.map f) (f value)
  | .regex p flags => .regex p flags
  | .doBlock body => .doBlock (body.map f)
  | .generator body => .generator (body.map f)
  | .await resolver value => .await resolver (f value)
  | .emit value => .emit (f value)

section Traverse

variable {m : Type → Type} [Monad m]

def traverseList (f : α → m β) : List α → m (List β)
  | [] => pure []
  | x :: xs => do
    let y ← f x
    let ys ← traverseList f xs
    pure (y :: ys)

def traverseOption (f : α → m β) : Option α → m (Option β)
  | none => pure none
  | some x => do
    let y ← f x
    pure (some y)

/-- Runs `f` on every child from left to right and puts the results in place. A body goes through
`g` after its members have been done. -/
def traverse (f : α → m β) (g : List β → m (List β)) (k : Kind α) : m (Kind β) :=
  let body := fun xs : List α => do g (← traverseList f xs)
  match k with
  | .module b => return .module (← body b)
  | .declare assignments => return .declare (← traverseList f assignments)
  | .assign target value => return .assign target (← f value)
  | .branch condition thenBody elseBody => return .branch (← f condition) (← body thenBody) (← body elseBody)
  | .loop ranges b elseBody => return .loop (← traverseList f ranges) (← body b) (← body elseBody)
  | .range target collection guard => return .range target (← f collection) (← traverseOption f guard)
  | .ret value => return .ret (← f value)
  | .exprStmt expr => return .exprStmt (← f expr)
  | .function name params guard b =>
    return .function name (← traverseList f params) (← traverseOption f guard) (← body b)
  | .param name p variadic => return .param name (← traverseOption f p) variadic
  | .importAll source localName => return .importAll source localName
  | .importFrom source items => return .importFrom source items
  | .exported decl items => return .exported (← traverseOption f decl) items
  | .literal value => return .literal value
  | .ident name => return .ident name
  | .context => return .context
  | .unary op operand => return .unary op (← f operand)
  | .binary op left right => return .binary op (← f left) (← f right)
  | .conj left right => return .conj (← f left) (← f right)
  | .disj left right => return .disj (← f left) (← f right)
  | .cond condition consequent alternative => return .cond (← f condition) (← f consequent) (← f alternative)
  | .array elements => return .array (← traverseList f elements)
  | .object entries => return .object (← traverseList f entries)
  | .entry key value => return .entry (← f key) (← f value)
  | .member target property => return .member (← f target) (← f property)
  | .call callee args => return .call (← f callee) (← traverseList f args)
  | .lambda params b => return .lambda (← traverseList f params) (← f b)
  | .reduce accumulators ranges b =>
    return .reduce (← traverseList f accumulators) (← traverseList f ranges) (← body b)
  | .choose value clauses elseBody => return .choose (← f value) (← traverseList f clauses) (← body elseBody)
  | .clause patterns b => return .clause (← traverseList f patterns) (← body b)
  | .pattern expr => return .pattern (← f expr)
  | .objectPattern elements => return .objectPattern (← traverseList f elements)
  | .arrayPattern elements => return .arrayPattern (← traverseList f elements)
  | .element key value => return .element (← traverseOption f key) (← f value)
  | .regex p flags => return .regex p flags
  | .doBlock b => return .doBlock (← body b)
  | .generator b => return .generator (← body b)
  | .await resolver value => return .await resolver (← f value)
  | .emit value => return .emit (← f value)

end Traverse

end Kind

end Motif
