import Motif.Eval.Rules
import Motif.Proofs.Dict
import Motif.Proofs.Pattern.Owners

/-!
# What context references denote

A context reference stands for the value that is being tested against the template it belongs to.
`rulesUpTo` says so without locals: the tests that are being made are kept in a list, innermost first, and
a context reference denotes the subject of the innermost test to which it belongs. All else is as in
`Rules.upTo`, layer by layer.

A run has only one place for the subjects of all the tests of one pattern, its local. A careful run takes
note of that: it stops at a context reference if, since the test it belongs to has begun, another test of
the same pattern has begun too.
-/

namespace Motif

namespace Testing

open Eval Pattern

/-! ## Tests -/

/-- A test that is being made: of a value, for which there is a local, against a template. -/
structure Test where
  template : Node
  slot : Nat
  subject : Val

def Test.owns (t : Test) (id : Nat) : Bool := (openContexts t.template).contains id

/-- What a context reference denotes while some tests are being made, the innermost of them first. A
    careful run stops if the test has lost its local. -/
def denote (careful : Bool) (tests : List Test) (id : Nat) : Run Val :=
  match tests.find? fun t => t.owns id with
  | none => fail (.unsupported .context)
  | some t => do
    if careful && !Dict.contains t.slot (← get).locals then fail (.unboundContext id)
    else return t.subject

def release (l : Nat) : Run Unit := modify fun m => { m with locals := m.locals.filter fun b => b.1 != l }

/-- Makes a test with care. A test whose template speaks of the value takes the local, and once it has
    been made no test has the local, not even one that had it before. -/
def Test.hold (t : Test) (x : Run Bool) : Run Bool := do
  if opens t.template then setLocal t.slot t.subject
  let result ← x
  release t.slot
  return result

/-! ## Rules -/

/-- The rules, with the tests around. A reference denotes the value under test. -/
def rulesUpTo (host : Host) (careful : Bool) : Nat → List Test → Rules
  | 0, _ =>
    { eval := fun _ _ => throw .outOfFuel
      exec := fun _ _ => throw .outOfFuel
      call := fun _ _ => throw .outOfFuel
      fits := fun _ _ _ _ => throw .outOfFuel }
  | n + 1, tests =>
    let during (tests : List Test) : Rules :=
      { eval := fun node env => (rulesUpTo host careful n tests).eval node env
        exec := fun node env => (rulesUpTo host careful n tests).exec node env
        call := fun f args => (rulesUpTo host careful n tests).call f args
        fits := fun template l subject env => (rulesUpTo host careful n tests).fits template l subject env }
    { eval := fun node env =>
        if node.tag = .context then denote careful tests node.id
        else evalNode host (during tests) node env
      exec := execNode host (during tests)
      call := callVal host (during tests)
      fits := fun template l subject env =>
        let t : Test := { template, slot := l, subject }
        let test := fitsNode host (during (t :: tests)) template l subject env
        if careful then t.hold test else test }

def program (rules : Rules) (root : Node) : Run Val :=
  match root.kind with
  | .module body => blockResult rules.exec body []
  | _ => rules.eval root []

def request (rules : Rules) (name : String) (args : List Val) : Run (Option Val) := do
  match (← get).exports.lookup name with
  | none => return none
  | some f => return some (← rules.call f args)

def perform (rules : Rules) (root : Node) (requests : List (String × List Val)) :
    Run (Val × List (Option Val)) := do
  let v ← program rules root
  let results ← requests.mapM fun r => request rules r.1 r.2
  return (v, results)

def runAndCall (host : Host) (fuel : Nat) (root : Node) (requests : List (String × List Val)) :
    Run (Val × List (Option Val)) := do
  let v ← Eval.run host fuel root
  let results ← requests.mapM fun r => callExport host fuel r.1 r.2
  return (v, results)

/-- What a run shows of itself: how it ends, what it has exported, and what it has asked of the host. -/
def outcome {α : Type} (x : Run α) : Except Stop α × List (String × Val) × List HostCall :=
  let result := x.run.run {}
  (result.1, result.2.exports, result.2.calls)

end Testing

end Motif
