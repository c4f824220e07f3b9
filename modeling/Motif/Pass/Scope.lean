import Motif.Options
import Motif.Path
import Motif.Session

/-!
# Scopes

Every name has to be declared before it is used. Declarations are kept with the nearest node around
them that owns a scope; a reference looks through all scopes around it. Parameters have to be
distinct, a variadic one comes last, and `await` and `emit` belong inside their blocks.
-/

namespace Motif.Scope

/-- The nodes through which `await` and `emit` do not see their block. -/
def barriers : List Tag := [.function, .lambda, .pattern]

structure State where
  session : Session
  /-- The first broken invariant; nothing is visited after it. -/
  aborted : Option String := none

abbrev Check := StateM State

def annotations : Check Annotations := do return (← get).session.annotations

def modifyAnnotations (f : Annotations → Annotations) : Check Unit :=
  modify fun s => { s with session := { s.session with annotations := f s.session.annotations } }

def report (d : Diagnostic) : Check Unit := modify fun s => { s with session := s.session.report d }

def abort (n : Node) (message : String) : Check Unit := do
  report (.about n .internalInvariant message)
  modify fun s => { s with aborted := s.aborted.or (some message) }

/-! ## References -/

def isVisible (a : Annotations) (path : Path) (name : String) : Bool :=
  path.containers.any fun frame => a.isDeclared frame.id name

def visibleNames (a : Annotations) (path : Path) : List String :=
  path.containers.flatMap fun frame => a.declarations frame.id

def checkName (n : Node) (path : Path) (name : String) : Check Unit := do
  let a ← annotations
  if isVisible a path name then pure ()
  else
    let found := Text.suggest name (visibleNames a path) 2
    let message := "'" ++ name ++ "' is used before it is declared"
    report { Diagnostic.about n .declaration message with
      suggestions := found.map fun s => "did you mean '" ++ s ++ "'?" }

/-! ## Declarations -/

def declareNames (n : Node) (path : Path) (names : List String) : Check Unit :=
  match path.container? with
  | some container => modifyAnnotations fun a => a.declareAll container.id names
  | none => abort n "no scope container found"

def checkParams (owner : Nat) (seen : List String) : List Node → Check Unit
  | [] => pure ()
  | p :: rest =>
    match p.kind with
    | .param name _ variadic => do
      if seen.contains name then
        report (.about p .argument ("duplicate parameter name '" ++ name ++ "'"))
      if variadic && !rest.isEmpty then
        report (.about p .argument
          ("variadic parameter '" ++ name ++ "' must be the last parameter"))
      modifyAnnotations fun a => a.declare owner name
      checkParams owner (name :: seen) rest
    | _ => checkParams owner seen rest

/-- Declares a function and its parameters. A name that was declared in the scope before is
redefined. -/
def enterFunction (n : Node) (path : Path) (name : String) (params : List Node) : Check Unit :=
  match path.container? with
  | none => abort n "no scope container found"
  | some container => do
    if (← annotations).isDeclared container.id name then
      modifyAnnotations fun a => a.annotate n.id .functionShadow
      report (.about n .shadowedFunction
        ("function '" ++ name ++ "' redefines an existing declaration"))
    else modifyAnnotations fun a => a.declare container.id name
    checkParams n.id [] params

/-! ## The walk -/

def checkAwait (n : Node) (path : Path) : Check Unit :=
  if (path.nearest? [.doBlock] barriers).isNone then
    report (.about n .usage "'await' can only be used inside a 'do' block")
  else pure ()

def checkEmit (n : Node) (path : Path) : Check Unit :=
  if (path.nearest? [.generator] barriers).isNone then
    report (.about n .usage "'emit' can only be used inside a 'generate' block")
  else pure ()

def visitOption (visit : Option (Path → Check Unit)) (path : Path) : Check Unit :=
  match visit with
  | some visit => visit path
  | none => pure ()

/-- Visits a node and what is below it. Names of members and of entries are not references. -/
def check : Node → Path → Check Unit :=
  Node.fold fun n below path => do
    if (← get).aborted.isSome then pure ()
    else
      let inner := n.frame :: path
      let visitChildren := below.children.forM fun visit => visit inner
      match n.kind, below with
      | .ident name, _ => checkName n path name
      | .member _ property, .member visitObject visitProperty =>
        visitObject inner
        if property.isIdent then pure () else visitProperty inner
      | .entry key _, .entry visitKey visitValue =>
        if key.isIdent then pure () else visitKey inner
        visitValue inner
      | .function name params _ _, _ =>
        enterFunction n path name params
        visitChildren
      | .lambda params _, _ =>
        checkParams n.id [] params
        visitChildren
      | .assign target _, _ =>
        visitChildren
        declareNames n path target.names
      | .range target _ _, .range _ visitCollection visitGuard =>
        visitCollection inner
        declareNames n path target.names
        visitOption visitGuard inner
      | .importAll _ localName, _ => declareNames n path [localName]
      | .importFrom _ items, _ => declareNames n path (items.map ModuleItem.visibleName)
      | .exported _ items, _ =>
        items.forM fun item => checkName n path item.name
        visitChildren
      | .await _ _, _ =>
        checkAwait n path
        visitChildren
      | .emit _, _ =>
        checkEmit n path
        visitChildren
      | _, _ => visitChildren

/-- The pass. The configured globals are declared at the root; the tree stays as it is. -/
def run (options : Options) (root : Node) (session : Session) : Except String Node × Session :=
  let annotations := session.annotations.declareAll root.id options.globals
  let (_, s) := (check root []).run { session := { session with annotations } }
  match s.aborted with
  | some message => (.error message, s.session)
  | none => (.ok root, s.session)

end Motif.Scope
