import Motif.Eval.Basic
import Motif.Regex
import Motif.Value.Access

/-!
# Running programs: the rules

Four judgements say what a program does: an expression has a value, a statement changes the scope, a
value is called, a value is tested against a template. Each is given as one layer of rules over
`Rules`, the judgements for what is called for on the way; `Rules.upTo n` stacks `n` such layers.

Branches write into the scope around them. A loop body runs in a copy of that scope, made anew for
each iteration, and a reduction carries the values of its accumulators from one iteration to the
next. A function sees the scope as it was when the function was made.
-/

namespace Motif.Eval

inductive Flow where
  | next
  | returned (v : Val)

structure Rules where
  eval : Node → Env → Run Val
  exec : Node → Env → Run (Flow × Env)
  call : Val → List Val → Run Val
  fits : Node → Nat → Val → Env → Run Bool

/-! ## Names -/

/-- What a name stands for: what is in scope, else a host function, else a named type. -/
def lookup (host : Host) (name : String) (env : Env) : Run Val :=
  match Dict.get? name env with
  | some v => pure v
  | none =>
    if (host.natives name).isSome then pure (.native name)
    else match TypeName.ofName? name with
      | some t => pure (.type t)
      | none => fail (.undefined name)

/-- Binds the names of a target to a value or to its parts; parts that are missing are nothing. -/
def bind (target : Target) (v : Val) (env : Env) : Env :=
  match target with
  | .name name => Dict.set name v env
  | .array names =>
    let items := match v with
      | .data (.array items) => items
      | _ => []
    Dict.setAll (names.mapIdx fun i name => (name, .data (items[i]?.getD .nothing))) env
  | .object pairs =>
    let part (key : String) : Val := .data ((v.data?.bind fun d => d.get? key).getD .nothing)
    Dict.setAll (pairs.map fun (key, name) => (name, part key)) env

/-! ## Blocks and loops -/

def block (exec : Node → Env → Run (Flow × Env)) : List Node → Env → Run (Flow × Env)
  | [], env => pure (.next, env)
  | s :: rest, env => do
    match ← exec s env with
    | (.returned v, env) => pure (.returned v, env)
    | (.next, env) => block exec rest env

structure Progress where
  outer : Env
  ran : Bool := false

def iterate (collection : Val) : Run (List Value) :=
  match collection.data?.bind Value.items? with
  | some items => pure items
  | none => fail (.notIterable collection.typeName)

def overItems (step : Value → Progress → Run (Flow × Progress)) : List Value → Progress → Run (Flow × Progress)
  | [], p => pure (.next, p)
  | v :: rest, p => do
    match ← step v p with
    | (.returned r, p) => pure (.returned r, p)
    | (.next, p) => overItems step rest p

def carry (carried : List String) (inner outer : Env) : Env :=
  carried.foldl (fun outer name =>
    match Dict.get? name inner with
    | some v => Dict.set name v outer
    | none => outer) outer

def admits (rules : Rules) (guard : Option Node) (env : Env) : Run Bool :=
  match guard with
  | none => pure true
  | some g => do return (← rules.eval g env).isTruthy

/-- Runs the body once for each combination of items of the ranges. `bound` has what the ranges
further out have bound. -/
def overRanges (rules : Rules) (carried : List String) (body : List Node) :
    List Node → Env → Progress → Run (Flow × Progress)
  | [], bound, p => do
    let (flow, inner) ← block rules.exec body (Dict.setAll bound p.outer)
    return (flow, { outer := carry carried inner p.outer, ran := true })
  | range :: rest, bound, p =>
    match range.kind with
    | .range target collection guard => do
      let items ← iterate (← rules.eval collection (Dict.setAll bound p.outer))
      overItems (fun item p => do
        let bound := bind target (.data item) bound
        if ← admits rules guard (Dict.setAll bound p.outer) then
          overRanges rules carried body rest bound p
        else
          return (.next, p)) items p
    | _ => fail (.unsupported range.tag)

/-! ## Tests -/

def allElements (test : Nat → Node → Run Bool) : Nat → List Node → Run Bool
  | _, [] => pure true
  | i, element :: rest => do
    if ← test i element then allElements test (i + 1) rest else pure false

def matchesPattern (host : Host) (rules : Rules) (node : Node) (subject : Val) (env : Env) : Run Bool :=
  match host.annotations.local? node.id with
  | none => fail (.missingPatternLocal node.id)
  | some l =>
    match node.kind with
    | .pattern template => rules.fits template l subject env
    | _ => rules.fits node l subject env

def isMatch (host : Host) (rules : Rules) (matcher subject : Val) : Run Bool :=
  match matcher with
  | .pattern _ node scope => matchesPattern host rules node subject scope
  | .regex _ _ compiled =>
    match subject with
    | .data (.string s) => pure (compiled.isMatch s)
    | _ => pure false
  | .type t => pure (subject.hasType t)
  | .function .. => do return (← rules.call matcher [subject]).isTruthy
  | .native _ => do return (← rules.call matcher [subject]).isTruthy
  | .data template =>
    match subject with
    | .data v => pure (template.accepts v)
    | _ => pure false

def elementKey (rules : Rules) (key : Option Node) (position : Nat) (env : Env) : Run Value :=
  match key with
  | none => pure (.number (Float.ofNat position))
  | some k =>
    match k.ident? with
    | some name => pure (.string name)
    | none => do asData (← rules.eval k env)

def fitsElement (host : Host) (rules : Rules) (collection : Value) (env : Env)
    (position : Nat) (element : Node) : Run Bool :=
  match element.kind with
  | .element key template => do
    let part := collection.member (← elementKey rules key position env)
    match host.annotations.local? element.id with
    | none => fail (.missingPatternLocal element.id)
    | some l => rules.fits template l (.data part) env
  | _ => fail (.unsupported element.tag)

/-- A template that is not a collection pattern. One that speaks of the value under test is a
condition; the name of a type stands for that type; any other is evaluated and compared with. -/
def fitsSimple (host : Host) (rules : Rules) (template : Node) (l : Nat) (subject : Val)
    (env : Env) : Run Bool := do
  let compare : Run Bool := do isMatch host rules (← rules.eval template env) subject
  if template.tag == .context || host.annotations.has template.id .patternContext then
    setLocal l subject
    return (← rules.eval template env).isTruthy
  else
    match template.kind with
    | .ident name =>
      match if Dict.contains name env then none else TypeName.ofName? name with
      | some t => return subject.hasType t
      | none => compare
    | .literal value =>
      if value.isPrimitive && host.annotations.testsByEquality template.id then
        return subject.data?.any fun d => d.strictlyEqual value
      else compare
    | _ => compare

def fitsNode (host : Host) (rules : Rules) (template : Node) (l : Nat) (subject : Val) (env : Env) : Run Bool :=
  let own := (host.annotations.parent? template.id).getD l
  match template.kind with
  | .objectPattern elements => do
    setLocal own subject
    match subject with
    | .data (.object entries) => allElements (fitsElement host rules (.object entries) env) 0 elements
    | _ => return false
  | .arrayPattern elements => do
    setLocal own subject
    match subject with
    | .data (.array items) =>
      if items.length == elements.length then
        allElements (fitsElement host rules (.array items) env) 0 elements
      else return false
    | _ => return false
  | _ => fitsSimple host rules template l subject env

def chooseBody (host : Host) (rules : Rules) (subject : Val) (env : Env) (otherwise : List Node) :
    List Node → Run (List Node)
  | [] => pure otherwise
  | clause :: rest =>
    match clause.kind with
    | .clause patterns body => do
      if ← patterns.anyM fun p => matchesPattern host rules p subject env then return body
      else chooseBody host rules subject env otherwise rest
    | _ => fail (.unsupported clause.tag)

/-! ## Calls -/

/-- What a parameter gets: the first argument that is left or nothing, or all that are left in an
array. -/
def argument (variadic : Bool) (args : List Val) : Run Val :=
  if variadic then do return .data (.array (← args.mapM asData))
  else pure (args.head?.getD .nothing)

/-- Binds parameters to arguments. A variadic one gets all arguments from its position on. -/
def bindParams : List Node → List Val → Env → Run Env
  | [], _, env => pure env
  | param :: rest, args, env =>
    match param.kind with
    | .param name _ variadic => do
      bindParams rest args.tail (Dict.set name (← argument variadic args) env)
    | _ => fail (.unsupported param.tag)

def blockResult (exec : Node → Env → Run (Flow × Env)) (body : List Node) (env : Env) :
    Run Val := do
  match ← block exec body env with
  | (.returned v, _) => return v
  | (.next, _) => return .nothing

def enterBody (rules : Rules) (body : Body) (env : Env) : Run Val :=
  match body with
  | .expr e => rules.eval e env
  | .block body => blockResult rules.exec body env

/-- One layer of the rules for calls. A function whose guard does not hold hands over to the
definition before it. -/
def callVal (host : Host) (rules : Rules) (f : Val) (args : List Val) : Run Val :=
  match f with
  | .function _ code scope previous => do
    let env := match code.name with
      | some name => Dict.set name f scope
      | none => scope
    let env ← bindParams code.params args env
    if ← admits rules code.guard env then enterBody rules code.body env
    else match previous with
      | some earlier => rules.call earlier args
      | none => fail (.noMatchingDefinition (code.name.getD ""))
  | .native name => callNative host name args
  | .data v => fail (.notCallable v.typeName)
  | _ => do return .bool (← isMatch host rules f (args.head?.getD .nothing))

/-! ## Expressions -/

def unary (op : UnaryOp) (v : Val) : Run Val :=
  let result := match v, op with
    | .data d, _ => (op.eval? d).map Val.data
    | _, .not => some (.bool false)
    | _, .neg => none
  match result with
  | some r => pure r
  | none => fail (.operator op.name v.typeName "nothing")

/-- The result of an operator other than `like`. Collections are equal to nothing, not even to
themselves; whatever is not data is equal to itself. -/
def operate? (op : BinaryOp) (left right : Val) : Option Value :=
  match left, right, op with
  | .data v, .data w, .eq => (op.eval? v w).or (some (.bool false))
  | .data v, .data w, .neq => (op.eval? v w).or (some (.bool true))
  | .data v, .data w, _ => op.eval? v w
  | _, _, .eq => some (.bool (left.identical right))
  | _, _, .neq => some (.bool !(left.identical right))
  | _, _, _ => none

def binary (host : Host) (rules : Rules) (op : BinaryOp) (left right : Val) : Run Val :=
  match op with
  | .like => do return .bool (← isMatch host rules right left)
  | _ =>
    match operate? op left right with
    | some v => pure (.data v)
    | none => fail (.operator op.name left.typeName right.typeName)

/-- The key of an object entry. A bare name is a key as it stands. -/
def entryKey (rules : Rules) (env : Env) (key : Node) : Run String :=
  match key.ident? with
  | some name => pure name
  | none => do return (← asData (← rules.eval key env)).propertyKey

def objectEntry (rules : Rules) (env : Env) (entry : Node) : Run (String × Value) :=
  match entry.kind with
  | .entry key value => do
    let key ← entryKey rules env key
    return (key, ← asData (← rules.eval value env))
  | _ => fail (.unsupported entry.tag)

/-- The key of a member expression. A bare name is a key as it stands. -/
def memberKey (rules : Rules) (env : Env) (property : Node) : Run Value :=
  match property.ident? with
  | some name => pure (.string name)
  | none => do asData (← rules.eval property env)

/-- The value of a block in the place of an expression: that of its last statement if that is an
expression, else what it returns. -/
def blockValue (rules : Rules) (body : List Node) (env : Env) : Run Val :=
  match body.getLast? with
  | none => pure .nothing
  | some last => do
    match ← block rules.exec body.dropLast env with
    | (.returned v, _) => return v
    | (.next, env) =>
      match last.kind with
      | .exprStmt e => rules.eval e env
      | _ => blockResult rules.exec [last] env

def accumulate (rules : Rules) : List Node → Env → Run (Env × List String)
  | [], env => pure (env, [])
  | acc :: rest, env => do
    let (_, env) ← rules.exec acc env
    let names := match acc.kind with
      | .assign target _ => target.names
      | _ => []
    let (env, more) ← accumulate rules rest env
    return (env, names ++ more)

/-- A reduction is worth the last value of its first accumulator, or what its body returns. -/
def reduction (rules : Rules) (accumulators ranges body : List Node) (env : Env) : Run Val := do
  let (scope, carried) ← accumulate rules accumulators env
  match ← overRanges rules carried body ranges [] { outer := scope } with
  | (.returned v, _) => return v
  | (.next, p) => return (carried.head?.bind fun name => Dict.get? name p.outer).getD .nothing

def evalNode (host : Host) (rules : Rules) (node : Node) (env : Env) : Run Val :=
  match node.kind with
  | .literal value => pure (.data value)
  | .ident name => lookup host name env
  | .context =>
    match host.annotations.context? node.id with
    | some l => getLocal l
    | none => fail (.unboundContext node.id)
  | .unary op operand => do unary op (← rules.eval operand env)
  | .binary op left right => do
    let l ← rules.eval left env
    let r ← rules.eval right env
    binary host rules op l r
  | .conj left right => do
    let l ← rules.eval left env
    if l.isTruthy then rules.eval right env else return l
  | .disj left right => do
    let l ← rules.eval left env
    if l.isTruthy then return l else rules.eval right env
  | .cond condition consequent alternative => do
    if (← rules.eval condition env).isTruthy then rules.eval consequent env
    else rules.eval alternative env
  | .array elements => do
    return .data (.array (← elements.mapM fun e => do asData (← rules.eval e env)))
  | .object entries => do return .data (.object (← entries.mapM (objectEntry rules env)))
  | .member object property => do
    let target ← asData (← rules.eval object env)
    return .data (target.member (← memberKey rules env property))
  | .call callee args =>
    match callee.kind, args with
    | .pattern _, [arg] => do
      let subject ← rules.eval arg env
      return .bool (← matchesPattern host rules callee subject env)
    | _, _ => do
      let f ← rules.eval callee env
      let values ← args.mapM fun arg => rules.eval arg env
      rules.call f values
  | .lambda params body => do
    let closure := { name := none, params, guard := none, body := .expr body }
    return .function (← freshStamp) closure env none
  | .pattern _ => do return .pattern (← freshStamp) node env
  | .regex pattern flags =>
    match Regex.compile? pattern flags with
    | some compiled => pure (.regex pattern flags compiled)
    | none => fail .regex
  | .choose value clauses otherwise => do
    let subject ← rules.eval value env
    blockValue rules (← chooseBody host rules subject env otherwise clauses) env
  | .reduce accumulators ranges body => reduction rules accumulators ranges body env
  | _ => fail (.unsupported node.tag)

/-! ## Statements -/

def exportAll (host : Host) (env : Env) : List (String × String) → Run Unit
  | [] => pure ()
  | (name, visible) :: rest => do
    addExport visible (← lookup host name env)
    exportAll host env rest

def exportedDecl (rules : Rules) (decl : Option Node) (env : Env) : Run (Env × List String) :=
  match decl with
  | none => pure (env, [])
  | some d => do
    let (_, env) ← rules.exec d env
    return (env, d.declaredNames)

def execNode (host : Host) (rules : Rules) (node : Node) (env : Env) : Run (Flow × Env) :=
  match node.kind with
  | .declare assignments => block rules.exec assignments env
  | .assign target value => do return (.next, bind target (← rules.eval value env) env)
  | .branch condition thenBody elseBody => do
    if (← rules.eval condition env).isTruthy then block rules.exec thenBody env
    else block rules.exec elseBody env
  | .loop ranges body elseBody => do
    match ← overRanges rules [] body ranges [] { outer := env } with
    | (.returned v, _) => return (.returned v, env)
    | (.next, p) => if p.ran then return (.next, env) else block rules.exec elseBody env
  | .ret value => do return (.returned (← rules.eval value env), env)
  | .exprStmt expr =>
    match expr.kind with
    | .choose value clauses otherwise => do
      let subject ← rules.eval value env
      block rules.exec (← chooseBody host rules subject env otherwise clauses) env
    | _ => do
      let _ ← rules.eval expr env
      return (.next, env)
  | .function name params guard body => do
    let shadows := guard.isSome && host.annotations.isShadow node.id
    let previous := if shadows then Dict.get? name env else none
    let code := { name := some name, params, guard, body := .block body }
    return (.next, Dict.set name (.function (← freshStamp) code env previous) env)
  | .exported decl items => do
    let (env, declared) ← exportedDecl rules decl env
    exportAll host env
      ((items.map fun i => (i.name, i.visibleName)) ++ declared.map fun name => (name, name))
    return (.next, env)
  | _ => fail (.unsupported node.tag)

/-! ## The rules in full -/

namespace Rules

def step (host : Host) (rules : Rules) : Rules where
  eval := evalNode host rules
  exec := execNode host rules
  call := callVal host rules
  fits := fitsNode host rules

/-- `n` layers of rules. Whatever would need more runs out of fuel. -/
def upTo (host : Host) : Nat → Rules
  | 0 =>
    { eval := fun _ _ => throw .outOfFuel
      exec := fun _ _ => throw .outOfFuel
      call := fun _ _ => throw .outOfFuel
      fits := fun _ _ _ _ => throw .outOfFuel }
  | n + 1 => step host
    { eval := fun node env => (upTo host n).eval node env
      exec := fun node env => (upTo host n).exec node env
      call := fun f args => (upTo host n).call f args
      fits := fun template l subject env => (upTo host n).fits template l subject env }

theorem upTo_succ (host : Host) (n : Nat) : upTo host (n + 1) = step host (upTo host n) := rfl

end Rules

/-! ## Programs -/

/-- Runs a module; it is worth what it returns. Anything else is run as an expression. -/
def run (host : Host) (fuel : Nat) (root : Node) : Run Val :=
  let rules := Rules.upTo host fuel
  match root.kind with
  | .module body => blockResult rules.exec body []
  | _ => rules.eval root []

def callExport (host : Host) (fuel : Nat) (name : String) (args : List Val) : Run (Option Val) := do
  match (← get).exports.lookup name with
  | none => return none
  | some f => return some (← (Rules.upTo host fuel).call f args)

end Motif.Eval
