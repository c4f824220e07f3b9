import Motif.Emit.Expression

/-!
# Code for statements

Branches are generated each on its own copy of the name table. A name that some branch has written
then gets one more id, to which every branch assigns its own.
-/

namespace Motif.Emit

open Script

def assignId (id : String) (value : Expr) : Stmt := .assign (.name id) value

/-! ## Assignments -/

def destructure (target : Target) (source : String) : Emit (List Stmt) :=
  let part (name : String) (key : Option Expr) : Emit Stmt := do
    let id ← writeName name
    return assignId id (match key with
      | some k => .index (.name source) k
      | none => .name source)
  match target with
  | .name name => return [← part name none]
  | .array names => names.zipIdx.mapM fun (name, i) => part name (some (.ofNat i))
  | .object pairs => pairs.mapM fun (key, name) => part name (some (.ofString key))

def assignTo (target : Target) (value : Expr) : Emit (List Stmt) := do
  match target with
  | .name name => return [assignId (← writeName name) value]
  | _ =>
    let t ← temp
    return assignId t value :: (← destructure target t)

/-! ## Branches -/

/-- The code of each branch, and its name table. All branches begin with the same names, which are
in place again afterwards. -/
def runBranches (base : NameTable) : List Branch → Emit (List (List Stmt × NameTable × Bool))
  | [] => return []
  | b :: rest => do
    modify fun s => { s with names := base }
    let code ← b.code
    let table := (← get).names
    modify fun s => { s with names := base }
    return (code, table, b.terminates) :: (← runBranches base rest)

def insertName (name : String) : List String → List String
  | [] => [name]
  | other :: rest =>
    if other = name then other :: rest
    else if name < other then name :: other :: rest
    else other :: insertName name rest

/-- Gives one name a merged id, to which each branch that goes on assigns its own id of the name, or
the one from before the branches. -/
def mergeName (name : String) (arms : List (List Stmt × NameTable × Bool)) :
    Emit (List (List Stmt × NameTable × Bool)) := do
  let before ← readName name
  let merged ← writeName name
  return arms.map fun (code, table, terminates) =>
    let own := (table.current? name).getD before
    (if terminates then code else code ++ [assignId merged (.name own)], table, terminates)

def branchSet (branches : List Branch) : Emit (List (List Stmt)) := do
  let base := (← get).names
  let arms ← runBranches base branches
  let modified := (arms.flatMap fun (_, table, _) => table.modifiedSince base).foldl
    (fun names name => insertName name names) []
  let arms ← modified.foldlM (fun arms name => mergeName name arms) arms
  return arms.map Prod.fst

def terminates (body : List Compiled) : Bool :=
  match body.getLast? with
  | some last => last.node.tag == .ret
  | none => false

def branch (keepResult : Bool) (body : List Compiled) : Branch where
  terminates := terminates body
  code :=
    match keepResult, body.getLast? with
    | true, some last => do return (← statements body.dropLast) ++ (← last.resultStmt)
    | _, _ => statements body

def keepValue (e : Compiled) : Emit (List Stmt) := do
  let (pre, v) ← e.value
  modifyFrame fun f => { f with hasResult := true }
  return pre ++ [assignId resultId v]

def branchStmt (condition : Compiled) (thenBody elseBody : List Compiled) : Emit (List Stmt) := do
  let test ← condition.condition
  let arms ← branchSet [branch false thenBody, branch false elseBody]
  return [.branch [(test, arms[0]?.getD [])] (arms[1]?.getD [])]

def chooseStmt (keepResult : Bool) (value : Compiled) (clauses otherwise : List Compiled) :
    Emit (List Stmt) := do
  let (pre, subject) ← value.value
  let t ← temp
  let opening := pre ++ [assignId t subject]
  let tests ← clauses.mapM fun c => c.clauseTest (.name t)
  if clauses.isEmpty && otherwise.isEmpty then return opening
  let bodies ← branchSet (clauses.map (fun c => c.clauseBranch keepResult)
    ++ [branch keepResult otherwise])
  let last := (bodies.getLast?).getD []
  if clauses.isEmpty then return opening ++ last
  return opening ++ [.branch (tests.zip bodies.dropLast) last]

def clauseTest (patterns : List Compiled) (subject : Expr) : Emit Expr := do
  return .any (← patterns.mapM fun p => p.patternTest subject)

/-! ## Loops -/

def loopLevel (target : Target) (collection : Compiled) (guard : Option Compiled) :
    Emit LoopLevel := do
  let e ← collection.expr
  let iterator ← callLibrary "createIterator" [e]
  let (variableId, opening) ← match target with
    | .name name => do pure (← writeName name, [])
    | _ => do
      let t ← temp
      pure (t, ← destructure target t)
  let guarding ← match guard with
    | some g => do pure [Stmt.continueUnless (← g.condition)]
    | none => pure []
  return { variableId, iterator, opening := opening ++ guarding }

def nest (levels : List LoopLevel) (inner : List Stmt) : List Stmt :=
  levels.foldr
    (fun level inner => [.forOf level.variableId level.iterator (level.opening ++ inner)]) inner

def loopCode (flag : Option String) (ranges body : List Compiled) : Emit (List Stmt) :=
  nestedNames do
    let levels ← ranges.mapM Compiled.range
    let inner ← statements body
    let ran := match flag with
      | some t => [assignId t (.literal (.bool true))]
      | none => []
    return nest levels (inner ++ ran)

def loopStmt (ranges body elseBody : List Compiled) : Emit (List Stmt) := do
  if elseBody.isEmpty then loopCode none ranges body
  else
    let t ← temp
    let code ← loopCode (some t) ranges body
    let arms ← branchSet [branch false elseBody, branch false []]
    let check := Stmt.branch [(.bang (.name t), arms[0]?.getD [])] (arms[1]?.getD [])
    return assignId t (.literal (.bool false)) :: code ++ [check]

def accumulator (target : Target) (value : Compiled) :
    Emit (List Stmt × List (String × String)) := do
  let (pre, v) ← value.value
  let code ← assignTo target v
  let carried ← target.names.mapM fun name => do return (name, ← readName name)
  return (pre ++ code, carried)

/-- Assigns the carried names that an iteration has written back to their accumulators. -/
def carryBack (carried : List (String × String)) : Emit (List Stmt) := do
  let names := (← get).names
  return carried.filterMap fun (name, id) =>
    match names.current? name with
    | some own => if own = id then none else some (assignId id (.name own))
    | none => none

/-- A reduction as statements, with the id that holds its value: that of the first accumulator. -/
def reduceCode (accumulators ranges body : List Compiled) : Emit (List Stmt × Expr) :=
  nestedNames do
    let parts ← accumulators.mapM Compiled.accumulator
    let carried := parts.flatMap Prod.snd
    let levels ← ranges.mapM Compiled.range
    let inner ← nestedNames do
      let code ← statements body
      return code ++ (← carryBack carried)
    let value := match carried with
      | (_, id) :: _ => Expr.name id
      | [] => .literal .nothing
    return (parts.flatMap Prod.fst ++ nest levels inner, value)

/-! ## Functions and modules -/

/-- What a function does when its guard does not hold: hand over to the definition before it, or
fail. -/
def guardFailure (name : String) (previous : Option String) : Stmt :=
  match previous with
  | some id => .ret (.call (.member (.name id) "apply") [.name "this", .name "arguments"])
  | none => .throwError ("no matching definition for '" ++ name ++ "'")

def functionStmt (n : Node) (name : String) (ps : List Compiled) (guard : Option Compiled)
    (body : List Compiled) : Emit (List Stmt) := do
  let shadows := guard.isSome && (← read).annotations.isShadow n.id
  let previous ← if shadows then some <$> readName name else pure none
  let id ← writeName name
  let ((ids, code), frame) ← inFrame {} do
    let (ids, opening) ← params ps
    let guarding ← match guard with
      | some g => do
        let test ← g.condition
        pure [Stmt.branch [(.bang (.paren test), [guardFailure name previous])] []]
      | none => pure []
    return (ids, opening ++ guarding ++ (← statements body))
  return [assignId id (.function false ids (frame.wrap code))]

def importCall (source : String) : Emit Expr := callLibrary "importModule" [.name "$c", .ofString source]

def importAllStmt (source localName : String) : Emit (List Stmt) := do
  let call ← importCall source
  return [assignId (← writeName localName) call]

def importFromStmt (source : String) (items : List ModuleItem) : Emit (List Stmt) := do
  let call ← importCall source
  let t ← temp
  let parts ← items.mapM fun item => do
    return assignId (← writeName item.visibleName) (.index (.name t) (.ofString item.name))
  return assignId t call :: parts

def exportStmts (items : List ModuleItem) : Emit (List Stmt) :=
  items.mapM fun item => do
    return .assign (.index (.name "$x") (.ofString item.visibleName)) (.name (← readName item.name))

def exportedStmt (decl : Option Compiled) (items : List ModuleItem) : Emit (List Stmt) := do
  match decl with
  | none => exportStmts items
  | some d =>
    let code ← d.stmt
    let declared := d.node.declaredNames.map fun name => { name, otherName := none : ModuleItem }
    return code ++ (← exportStmts (items ++ declared))

end Motif.Emit
