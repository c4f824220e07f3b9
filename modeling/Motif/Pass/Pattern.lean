import Motif.Pass.Desugar
import Motif.Path
import Motif.Session

/-!
# Pattern elaboration

After the tree has been brought into shape, every pattern and every element of one gets a local for
the value under test. A context reference is resolved to the local of the nearest pattern or element
around it; a function or lambda in between cuts it off. Patterns get a complexity, and templates
that do not depend on the value under test are marked as testable by plain equality.
-/

namespace Motif.Pattern

/-- The nodes that own a local. -/
def boundaries : List Tag := [.pattern, .element]

/-- The nodes through which no context reference is resolved. -/
def barriers : List Tag := [.function, .lambda]

def weight (n : Node) : Nat :=
  match n.kind with
  | .choose .. => 5
  | .objectPattern _ => 4
  | .arrayPattern _ => 4
  | .call .. => 3
  | .element .. => 2
  | .regex .. => 2
  | .binary .like _ _ => 2
  | _ => 1

def complexity (template : Node) : Nat := (template.preorder.map weight).foldr (· + ·) 0

structure State where
  session : Session
  nextLocal : Nat := 0
  aborted : Option String := none

abbrev Elaborate := StateM State

def annotate (id : Nat) (note : Annotation) : Elaborate Unit :=
  modify fun s => { s with session := s.session.annotate id note }

def annotations : Elaborate Annotations := do return (← get).session.annotations

def report (d : Diagnostic) : Elaborate Unit := modify fun s => { s with session := s.session.report d }

def abort (n : Node) (message : String) : Elaborate Unit := do
  report (.about n .internalInvariant message)
  modify fun s => { s with aborted := s.aborted.or (some message) }

def freshLocal : Elaborate Nat := modifyGet fun s => (s.nextLocal, { s with nextLocal := s.nextLocal + 1 })

def enterPattern (n template : Node) : Elaborate Unit := do
  let l ← freshLocal
  annotate n.id (.patternLocal l)
  annotate template.id (.patternLocal l)

/-- The local that a collection pattern takes apart: its own, that of the nearest boundary, or a new
one. -/
def collectionLocal (n : Node) (path : Path) : Elaborate Nat := do
  let a ← annotations
  let outer := (path.nearest? boundaries barriers).bind fun frame => a.local? frame.id
  match (a.local? n.id).or outer with
  | some l => return l
  | none =>
    let l ← freshLocal
    annotate n.id (.patternLocal l)
    return l

def enterCollection (n : Node) (path : Path) : Elaborate Unit := do
  let l ← collectionLocal n path
  annotate n.id (.patternParent l)

/-- A new local for an element and its template. The element also learns the local of the collection
around it. -/
def enterElement (n template : Node) (path : Path) : Elaborate Unit := do
  let a ← annotations
  let parent := path.parent?.bind fun frame => a.parent? frame.id
  let l ← freshLocal
  annotate template.id (.patternLocal l)
  annotate n.id (.patternLocal l)
  match parent with
  | some p => annotate n.id (.patternParent p)
  | none => pure ()

/-- Resolves a context reference and marks the nodes between it and its owner. -/
def resolveContext (n : Node) (path : Path) : Elaborate Unit := do
  match path.nearest? boundaries barriers with
  | none => report (.about n .patternContext "relative context reference used outside of a pattern")
  | some owner =>
    match (← annotations).local? owner.id with
    | none => abort n ("pattern boundary " ++ toString owner.id ++ " has no local")
    | some l =>
      annotate n.id (.patternContext l)
      (path.upTo fun frame => frame.id == owner.id).1.forM fun frame => annotate frame.id (.patternContext l)

def isRelation (template : Node) : Bool :=
  match template.kind with
  | .binary op _ _ => op.isRelational
  | _ => false

def markEquality (template : Node) : Elaborate Unit := do
  let a ← annotations
  if a.has template.id .patternContext || a.has template.id .patternParent
      || isRelation template then
    pure ()
  else annotate template.id .patternEquality

/-- The walk below one path: locals on the way down, complexity and equality on the way up. -/
def elaborate : Node → Path → Elaborate Unit :=
  Node.fold fun n below path => do
    let visitChildren := below.children.forM fun child => child (n.frame :: path)
    match n.kind with
    | .pattern template =>
      enterPattern n template
      visitChildren
      annotate n.id (.patternComplexity (complexity template))
      markEquality template
    | .objectPattern _ | .arrayPattern _ =>
      enterCollection n path
      visitChildren
    | .element _ template =>
      enterElement n template path
      visitChildren
      markEquality template
    | .context => resolveContext n path
    | _ => visitChildren

def run (root : Node) (session : Session) : Except String Node × Session :=
  let (root, nextId) := (Desugar.shape root).run session.nextId
  let (_, s) := (elaborate root []).run { session := { session with nextId } }
  match s.aborted with
  | some message => (.error message, s.session)
  | none => (.ok root, s.session)

end Motif.Pattern
