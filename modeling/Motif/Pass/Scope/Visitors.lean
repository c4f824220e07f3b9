import Motif.Pass.Scope
import Motif.Visit

/-!
# The visitors of scopes

The walk over scopes as a table of visitors. Most of them look at a node before its children are walked and
leave it as it is. Where a child is not to be looked at, or something is to be declared between two children,
the visitor walks the children itself: it takes each out of the node, which holds a placeholder meanwhile, and
puts it back.
-/

namespace Motif.Scope

open Visit (Walk Walker)

/-- Does what a check does. -/
def observe {α : Type} (check : Check α) : Walk Unit α :=
  modifyGet fun s =>
    let (a, t) := check.run { session := s.session, aborted := s.aborted }
    (a, { s with session := t.session, aborted := t.aborted })

/-! ## Children that are taken out -/

def exchange (k : Kind Node) (index : Nat) (new : Node) : Option Node × Kind Node :=
  let step (child : Node) : StateM (Nat × Option Node) Node :=
    modifyGet fun (i, found) => if i = index then (new, i + 1, some child) else (child, i + 1, found)
  let (k, _, found) := (k.traverse step pure).run (0, none)
  (found, k)

def placeholder : Node := .ofKind (.literal .nothing)

def walkAt (walker : Walker Unit) (index : Nat) (n : Node) (path : Path) : Walk Unit Node :=
  match exchange n.kind index placeholder with
  | (none, _) => pure n
  | (some child, held) => do
    let child ← walker.walk child (n.frame :: path)
    return { n with kind := (exchange held index child).2 }

def walkUnlessName (walker : Walker Unit) (index : Nat) (n : Node) (path : Path) : Walk Unit Node :=
  if n.children[index]?.any Node.isIdent then pure n else walkAt walker index n path

/-! ## The table -/

def observer (check : Node → Path → Check Unit) : Visit.Handler Unit Node := fun _ n path => do
  observe (check n path)
  return n

def visitMember : Visit.Handler Unit Node := fun walker n path => do
  let n ← walkAt walker 0 n path
  let n ← walkUnlessName walker 1 n path
  Visit.markWalked n.id
  return n

def visitEntry : Visit.Handler Unit Node := fun walker n path => do
  let n ← walkUnlessName walker 0 n path
  let n ← walkAt walker 1 n path
  Visit.markWalked n.id
  return n

def targetNames (n : Node) : List String :=
  match n.kind with
  | .assign target _ => target.names
  | .range target _ _ => target.names
  | _ => []

def visitAssignment : Visit.Handler Unit Node := fun walker n path => do
  let n ← Visit.recurseInto walker n path
  observe (declareNames n path (targetNames n))
  return n

/-- The targets of a range are declared before its guard and after its collection. -/
def visitRange : Visit.Handler Unit Node := fun walker n path => do
  let n ← walkAt walker 0 n path
  observe (declareNames n path (targetNames n))
  let n ← walkAt walker 1 n path
  Visit.markWalked n.id
  return n

def checkNode (n : Node) (path : Path) : Check Unit :=
  match n.kind with
  | .ident name => checkName n path name
  | .function name params _ _ => enterFunction n path name params
  | .lambda params _ => checkParams n.id [] params
  | .importAll _ localName => declareNames n path [localName]
  | .importFrom _ items => declareNames n path (items.map ModuleItem.visibleName)
  | .exported _ items => items.forM fun item => checkName n path item.name
  | .await _ _ => checkAwait n path
  | .emit _ => checkEmit n path
  | _ => pure ()

def handlers : List (Tag × Visit.Handler Unit Node) := [
  (.ident, observer checkNode), (.member, visitMember), (.function, observer checkNode),
  (.lambda, observer checkNode), (.assign, visitAssignment), (.range, visitRange),
  (.importAll, observer checkNode), (.importFrom, observer checkNode),
  (.exported, observer checkNode), (.await, observer checkNode), (.emit, observer checkNode),
  (.entry, visitEntry)]

def visitors : List (Visit.Visitor Unit) := [.byTag .breadth handlers]

/-- The pass, made by visitors: what they have made of the tree is what it returns. -/
def runVisitors (options : Options) (root : Node) (session : Session) : Except String Node × Session :=
  let annotations := session.annotations.declareAll root.id options.globals
  let (root, s) := (Visit.run visitors root).run { session := { session with annotations }, own := () }
  match s.aborted with
  | some message => (.error message, s.session)
  | none => (.ok root, s.session)

end Motif.Scope
