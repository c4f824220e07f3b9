import Motif.Path
import Motif.Session

/-!
# Walks over a tree

A walk visits every node of a tree with a table of visitors. Those of breadth order act on a node
before its children are walked, those of depth order afterwards; group visitors act on the runs of
matching statements in a body once its members have been walked. A visitor may replace what it
acts on, walk the children of a node itself, keep them from being walked, or abort the walk, after
which nothing is visited any more.
-/

namespace Motif.Visit

inductive Order where
  | breadth
  | depth
  deriving Repr, DecidableEq, Inhabited

inductive Predicate where
  | any
  | tags (tags : List Tag)
  /-- Nodes with an ancestor of one of the tags, and none of the barriers in between. -/
  | ancestor (tags barriers : List Tag)
  | custom (test : Node → Path → Bool)
  | all (parts : List Predicate)

namespace Predicate

mutual

def holds (n : Node) (path : Path) : Predicate → Bool
  | .any => true
  | .tags ts => ts.contains n.tag
  | .ancestor ts barriers => (path.nearest? ts barriers).isSome
  | .custom test => test n path
  | .all parts => allHold n path parts

def allHold (n : Node) (path : Path) : List Predicate → Bool
  | [] => true
  | p :: ps => holds n path p && allHold n path ps

end

end Predicate

variable {σ : Type}

structure State (σ : Type) where
  session : Session
  own : σ
  /-- Nodes whose children are not to be walked. -/
  walked : List Nat := []
  aborted : Option String := none

abbrev Walk (σ : Type) := StateM (State σ)

structure Walker (σ : Type) where
  walk : Node → Path → Walk σ Node
  descend : Node → Path → Walk σ Node

/-- What a visitor does with `α`. It is given the means to walk on from there. -/
abbrev Handler (σ α : Type) := Walker σ → α → Path → Walk σ α

inductive Visitor (σ : Type) where
  | matching (order : Order) (predicate : Predicate) (handler : Handler σ Node)
  /-- A handler for each tag; of several for one tag the last counts. -/
  | byTag (order : Order) (table : List (Tag × Handler σ Node))
  /-- A handler for the runs of at least `size` matching statements. -/
  | groups (predicate : Predicate) (size : Nat) (handler : Handler σ (List Node))

/-! ## What handlers can do -/

def report (d : Diagnostic) : Walk σ Unit := modify fun s => { s with session := s.session.report d }

def isAborted : Walk σ Bool := do return (← get).aborted.isSome

/-- Ends the walk after an invariant has been found broken. -/
def abort (n : Node) (message : String) : Walk σ Unit := do
  report (.about n .internalInvariant message)
  modify fun s => { s with aborted := s.aborted.or (some message) }

def markWalked (id : Nat) : Walk σ Unit :=
  modify fun s => { s with walked := if s.walked.contains id then s.walked else id :: s.walked }

/-- Whether the children of a node are not to be walked; the mark is gone afterwards. -/
def takeWalked (id : Nat) : Walk σ Bool :=
  modifyGet fun s => (s.walked.contains id, { s with walked := s.walked.filter (· != id) })

def freshId : Walk σ Nat :=
  modifyGet fun s =>
    (s.session.nextId, { s with session := { s.session with nextId := s.session.nextId + 1 } })

def recurseInto (walker : Walker σ) (n : Node) (path : Path) : Walk σ Node := do
  let n ← walker.descend n path
  markWalked n.id
  return n

/-! ## Applying visitors -/

def applyOne (walker : Walker σ) (order : Order) (path : Path) (n : Node) : Visitor σ → Walk σ Node
  | .matching o predicate handler =>
    if o == order && predicate.holds n path then handler walker n path else pure n
  | .byTag o table =>
    match if o == order then table.reverse.lookup n.tag else none with
    | some handler => handler walker n path
    | none => pure n
  | .groups .. => pure n

def applyAll (visitors : List (Visitor σ)) (walker : Walker σ) (order : Order) (n : Node)
    (path : Path) : Walk σ Node :=
  visitors.foldlM (fun n v => do
    if ← isAborted then return n else applyOne walker order path n v) n

/-- What becomes of a run of matching statements that has come to its end: a group is handed to the handler,
and a shorter run stays. A group is never empty, whatever the size asked for. -/
def flushRun (handler : List Node → Walk σ (List Node)) (size : Nat) (run : List Node) : Walk σ (List Node) :=
  if !run.isEmpty && size ≤ run.length then handler run else pure run

/-- Goes through statements with the run of matching ones that has not come to its end yet, and with what is
done so far. -/
def rewriteRuns (p : Node → Bool) (handler : List Node → Walk σ (List Node)) (size : Nat) :
    List Node → List Node → List Node → Walk σ (List Node)
  | done, run, [] => do return done ++ (← flushRun handler size run)
  | done, run, n :: rest =>
    if p n then rewriteRuns p handler size done (run ++ [n]) rest
    else do
      let flushed ← flushRun handler size run
      rewriteRuns p handler size (done ++ flushed ++ [n]) [] rest

def applyGroup (walker : Walker σ) (path : Path) (body : List Node) : Visitor σ → Walk σ (List Node)
  | .groups predicate size handler =>
    rewriteRuns (fun n => predicate.holds n path) (fun run => handler walker run path) size [] [] body
  | _ => pure body

def applyGroups (visitors : List (Visitor σ)) (walker : Walker σ) (body : List Node)
    (path : Path) : Walk σ (List Node) :=
  visitors.foldlM (fun body v => do
    if ← isAborted then return body else applyGroup walker path body v) body

/-! ## The walk -/

def visit (visitors : List (Visitor σ)) (walker : Walker σ) (n : Node) (path : Path) :
    Walk σ Node := do
  if ← isAborted then return n
  let n ← applyAll visitors walker .breadth n path
  let n ← if ← takeWalked n.id then pure n else walker.descend n path
  applyAll visitors walker .depth n path

def walker (visitors : List (Visitor σ)) : Nat → Walker σ
  | 0 => { walk := fun n _ => pure n, descend := fun n _ => pure n }
  | levels + 1 =>
    let below := walker visitors levels
    { walk := visit visitors below
      descend := fun n path => do
        let inner := n.frame :: path
        let kind ← n.kind.traverse (fun child => visit visitors below child inner)
          (fun body => applyGroups visitors below body inner)
        return { n with kind } }

/-- Walks a tree. The levels suffice for the tree itself and for statements that a group visitor
puts into the place of lower ones. To walk all that handlers make,
however deep, would take more: this walk stops two levels below the height of the tree. -/
def run (visitors : List (Visitor σ)) (root : Node) : Walk σ Node :=
  visit visitors (walker visitors (root.height + 2)) root []

end Motif.Visit
