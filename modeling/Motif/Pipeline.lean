import Motif.Pass.Pattern
import Motif.Pass.Scope
import Motif.Pass.Simplify

/-!
# Running passes
-/

namespace Motif

structure PassAborted where
  pass : Pass
  message : String
  deriving Repr, DecidableEq

def Pass.run (pass : Pass) (options : Options) (root : Node) (session : Session) :
    Except String Node × Session :=
  match pass with
  | .pattern => Pattern.run root session
  | .simplify => Simplify.run root session
  | .scope => Scope.run options root session

def runFrom (options : Options) : List Pass → Node → Session → Except PassAborted (Node × Session)
  | [], root, session => .ok (root, session)
  | pass :: passes, root, session =>
    match pass.run options root session with
    | (.ok root, session) => runFrom options passes root session
    | (.error message, _) => .error { pass, message }

/-- Runs passes over a tree. Diagnostics do not stop them. -/
def runPasses (options : Options) (passes : List Pass) (tree : Tree) :
    Except PassAborted (Tree × Session) := do
  let (root, session) ← runFrom options passes tree.root (.startingAt tree.nextId)
  return ({ root, nextId := session.nextId }, session)

end Motif
