import Motif.Pass.Desugar
import Motif.Session

/-!
# Simplification

Constant operators are computed, negations are moved to where they vanish, branches that cannot be
taken go, nested loops become one, and an inline exported declaration is split from its export.
Nodes are simplified from the leaves up, so every rule finds the parts of a node simplified. A node
that takes the place of another keeps its id and span.
-/

namespace Motif.Simplify

/-! ## Negations -/

def negated? (n : Node) : Option Node :=
  match n.kind with
  | .unary .not operand => some operand
  | _ => none

/-- What is under the negations of a node, and whether their number is odd. -/
def stripNots : Node → Node × Bool
  | ⟨_, _, .unary .not operand⟩ =>
    let (inner, odd) := stripNots operand
    (inner, !odd)
  | n => (n, false)

/-! ## Expressions -/

def literalAt (n : Node) (value : Value) : Node := { n with kind := .literal value }

/-- A unary operator on a literal is computed, and a negated comparison becomes its opposite. -/
def unary (n : Node) (op : UnaryOp) (operand : Node) : Node :=
  match operand.literal?.bind op.eval? with
  | some value => literalAt n value
  | none =>
    match op, operand.kind with
    | .not, .binary comparison left right =>
      match comparison.inverse? with
      | some inverse => { n with kind := .binary inverse left right }
      | none => n
    | _, _ => n

/-- A binary operator on literals is computed if it has a result. -/
def binary (n : Node) (op : BinaryOp) (left right : Node) : Node :=
  match left.literal?, right.literal? with
  | some l, some r =>
    match op.eval? l r with
    | some value => literalAt n value
    | none => n
  | _, _ => n

/-- The negation of a new node in the place of `n`. -/
def negationOf (n : Node) (inner : Kind Node) : Fresh Node := do
  let id ← freshId
  return { n with kind := .unary .not { id, span := n.span, kind := inner } }

/-- A conjunction with a literal on the left is one of its sides; of two negations it is the
negation of a disjunction. -/
def conj (n left right : Node) : Fresh Node :=
  match left.literal? with
  | some value => return if value.isTruthy then right else left
  | none =>
    match negated? left, negated? right with
    | some l, some r => negationOf n (.disj l r)
    | _, _ => return n

/-- A disjunction with a literal on the left is one of its sides; of two negations it is the
negation of a conjunction. -/
def disj (n left right : Node) : Fresh Node :=
  match left.literal? with
  | some value => return if value.isTruthy then left else right
  | none =>
    match negated? left, negated? right with
    | some l, some r => negationOf n (.conj l r)
    | _, _ => return n

/-- Negations of a condition swap the branches, and a literal condition chooses one. -/
def cond (n condition consequent alternative : Node) : Node :=
  let (condition, odd) := stripNots condition
  let (consequent, alternative) := if odd then (alternative, consequent) else (consequent, alternative)
  match condition.literal? with
  | some value => if value.isTruthy then consequent else alternative
  | none => { n with kind := .cond condition consequent alternative }

def array (n : Node) (elements : List Node) : Node :=
  match elements.mapM Node.literal? with
  | some values => literalAt n (.array values)
  | none => n

/-- The key and value of an entry that are literals, the key a text. -/
def literalEntry? (entry : Node) : Option (String × Value) :=
  match entry.kind with
  | .entry key value => do return (← (← key.literal?).string?, ← value.literal?)
  | _ => none

def object (n : Node) (entries : List Node) : Node :=
  match entries.mapM literalEntry? with
  | some values => literalAt n (.object values)
  | none => n

/-! ## Statements -/

def branch (n condition : Node) (thenBody elseBody : List Node) : Node :=
  match stripNots condition with
  | (condition, true) => { n with kind := .branch condition elseBody thenBody }
  | (condition, false) => { n with kind := .branch condition thenBody elseBody }

/-- A loop over nothing but a loop, neither with an alternative body, is a loop over all ranges. -/
def fuse (n : Node) (ranges body elseBody : List Node) : Node :=
  match body, elseBody with
  | [⟨_, _, .loop innerRanges innerBody []⟩], [] =>
    { n with kind := .loop (ranges ++ innerRanges) innerBody [] }
  | _, _ => n

/-- A function that only computes a reduction returns it. -/
def returnReduction (n : Node) (name : String) (params : List Node) (guard : Option Node)
    (body : List Node) : Node :=
  match body with
  | [⟨id, span, .exprStmt expr⟩] =>
    if expr.tag == .reduce then
      { n with kind := .function name params guard [⟨id, span, .ret expr⟩] }
    else n
  | _ => n

/-- A branch on a literal gives way to the body that is taken. -/
def takenBody (n : Node) : List Node :=
  match n.kind with
  | .branch condition thenBody elseBody =>
    match condition.literal? with
    | some value => if value.isTruthy then thenBody else elseBody
    | none => [n]
  | _ => [n]

/-- An exported declaration becomes the declaration and an export of its names. -/
def splitExport (n : Node) : List Node :=
  match n.kind with
  | .exported (some decl) items =>
    let names := decl.declaredNames.map fun name => { name, otherName := none }
    [decl, { n with kind := .exported none (items ++ names) }]
  | _ => [n]

def statements (body : List Node) : List Node := (body.flatMap takenBody).flatMap splitExport

/-! ## The pass -/

def step (n : Node) : Fresh Node :=
  match n.kind with
  | .unary op operand => return unary n op operand
  | .binary op left right => return binary n op left right
  | .conj left right => conj n left right
  | .disj left right => disj n left right
  | .cond condition consequent alternative => return cond n condition consequent alternative
  | .branch condition thenBody elseBody => return branch n condition thenBody elseBody
  | .array elements => return array n elements
  | .object entries => return object n entries
  | .loop ranges body elseBody => return fuse n ranges body elseBody
  | .function name params guard body => return returnReduction n name params guard body
  | _ => return n

def simplify : Node → Fresh Node :=
  Node.fold fun n below => do
    let kind ← below.traverse (fun child : Fresh Node => child) fun body => return statements body
    step { n with kind }

def run (root : Node) (session : Session) : Except String Node × Session :=
  let (root, nextId) := (simplify root).run session.nextId
  (.ok root, { session with nextId })

end Motif.Simplify
