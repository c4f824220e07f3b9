import Motif.Tree.Kind
import Motif.Tree.Span

/-!
# Syntax trees

A node has an identity, a span and a kind. Whole-tree computations are folds: `fold` gives an
algebra each node together with the answers for its children, and `fold_eq` is the equation that
all reasoning about them starts from.
-/

namespace Motif

/-- A node of a syntax tree. The id `0` is that of a node without an identity of its own. -/
structure Node where
  id : Nat
  span : Span
  kind : Kind Node
  deriving Inhabited

namespace Node

variable {β : Type}

def ofKind (kind : Kind Node) : Node := { id := 0, span := Span.none, kind }

def tag (n : Node) : Tag := n.kind.tag

def children (n : Node) : List Node := n.kind.children

@[simp]
theorem tag_mk (id : Nat) (span : Span) (kind : Kind Node) : Node.tag ⟨id, span, kind⟩ = kind.tag := rfl

@[simp]
theorem children_mk (id : Nat) (span : Span) (kind : Kind Node) :
    Node.children ⟨id, span, kind⟩ = kind.children := rfl

def literal? (n : Node) : Option Value :=
  match n.kind with
  | .literal value => some value
  | _ => none

def isLiteral (n : Node) : Bool := n.literal?.isSome

def ident? (n : Node) : Option String :=
  match n.kind with
  | .ident name => some name
  | _ => none

def isIdent (n : Node) : Bool := n.ident?.isSome

/-! ## Folds -/

mutual

/-- Applies an algebra from the leaves up. It is given each node and, in the place of its children,
their answers. -/
def fold (f : Node → Kind β → β) : Node → β
  | ⟨id, span, kind⟩ => f ⟨id, span, kind⟩ (foldKind f kind)

def foldKind (f : Node → Kind β → β) : Kind Node → Kind β
  | .module body => .module (foldList f body)
  | .declare assignments => .declare (foldList f assignments)
  | .assign target value => .assign target (fold f value)
  | .branch condition thenBody elseBody =>
    .branch (fold f condition) (foldList f thenBody) (foldList f elseBody)
  | .loop ranges body elseBody => .loop (foldList f ranges) (foldList f body) (foldList f elseBody)
  | .range target collection guard => .range target (fold f collection) (foldOption f guard)
  | .ret value => .ret (fold f value)
  | .exprStmt expr => .exprStmt (fold f expr)
  | .function name params guard body =>
    .function name (foldList f params) (foldOption f guard) (foldList f body)
  | .param name pattern variadic => .param name (foldOption f pattern) variadic
  | .importAll source localName => .importAll source localName
  | .importFrom source items => .importFrom source items
  | .exported decl items => .exported (foldOption f decl) items
  | .literal value => .literal value
  | .ident name => .ident name
  | .context => .context
  | .unary op operand => .unary op (fold f operand)
  | .binary op left right => .binary op (fold f left) (fold f right)
  | .conj left right => .conj (fold f left) (fold f right)
  | .disj left right => .disj (fold f left) (fold f right)
  | .cond condition consequent alternative =>
    .cond (fold f condition) (fold f consequent) (fold f alternative)
  | .array elements => .array (foldList f elements)
  | .object entries => .object (foldList f entries)
  | .entry key value => .entry (fold f key) (fold f value)
  | .member object property => .member (fold f object) (fold f property)
  | .call callee args => .call (fold f callee) (foldList f args)
  | .lambda params body => .lambda (foldList f params) (fold f body)
  | .reduce accumulators ranges body =>
    .reduce (foldList f accumulators) (foldList f ranges) (foldList f body)
  | .choose value clauses elseBody => .choose (fold f value) (foldList f clauses) (foldList f elseBody)
  | .clause patterns body => .clause (foldList f patterns) (foldList f body)
  | .pattern expr => .pattern (fold f expr)
  | .objectPattern elements => .objectPattern (foldList f elements)
  | .arrayPattern elements => .arrayPattern (foldList f elements)
  | .element key value => .element (foldOption f key) (fold f value)
  | .regex pattern flags => .regex pattern flags
  | .doBlock body => .doBlock (foldList f body)
  | .generator body => .generator (foldList f body)
  | .await resolver value => .await resolver (fold f value)
  | .emit value => .emit (fold f value)

def foldList (f : Node → Kind β → β) : List Node → List β
  | [] => []
  | n :: ns => fold f n :: foldList f ns

def foldOption (f : Node → Kind β → β) : Option Node → Option β
  | none => none
  | some n => some (fold f n)

end

theorem foldList_eq (f : Node → Kind β → β) (ns : List Node) : foldList f ns = ns.map (fold f) := by
  induction ns with
  | nil => simp [foldList]
  | cons n ns ih => simp [foldList, ih]

theorem foldOption_eq (f : Node → Kind β → β) (n : Option Node) : foldOption f n = n.map (fold f) := by
  cases n <;> simp [foldOption]

theorem foldKind_eq (f : Node → Kind β → β) (k : Kind Node) : foldKind f k = k.map (fold f) := by
  cases k <;> simp [foldKind, Kind.map, foldList_eq, foldOption_eq]

theorem fold_eq (f : Node → Kind β → β) (n : Node) : fold f n = f n (n.kind.map (fold f)) := by
  cases n with
  | mk id span kind => rw [fold, foldKind_eq]

/-! ## Common folds -/

def size : Node → Nat := fold fun _ k => k.children.foldr (· + ·) 1

def height : Node → Nat := fold fun _ k => k.children.foldl max 0 + 1

/-- The node and everything below it, every node before what is below it. -/
def preorder : Node → List Node := fold fun n k => n :: k.children.flatten

/-- What tells a node apart from others in the same place: its id, its span, and its kind with the
children left out but counted. -/
def shapes : Node → List (Nat × Span × Kind Unit) :=
  fold fun n k => (n.id, n.span, n.kind.map fun _ => ()) :: k.children.flatten

/-- Trees are compared by their nodes in order; the kinds say where each child belongs. -/
instance : BEq Node := ⟨fun m n => m.shapes == n.shapes⟩

def any (p : Node → Bool) (n : Node) : Bool := n.preorder.any p

def nextNumber : StateM Nat Nat := do
  modify (· + 1)
  get

/-- Gives every node a new id, counting up in source order, each node before its children. -/
def renumber : Node → StateM Nat Node :=
  fold fun n k => do
    let id ← nextNumber
    let kind ← k.traverse (fun child : StateM Nat Node => child) pure
    return { id, span := n.span, kind }

mutual

def declaredNames : Node → List String
  | ⟨_, _, .function name ..⟩ => [name]
  | ⟨_, _, .declare assignments⟩ => declaredNamesOf assignments
  | ⟨_, _, .assign target _⟩ => target.names
  | ⟨_, _, .importAll _ localName⟩ => [localName]
  | ⟨_, _, .importFrom _ items⟩ => items.map ModuleItem.visibleName
  | _ => []

def declaredNamesOf : List Node → List String
  | [] => []
  | n :: ns => declaredNames n ++ declaredNamesOf ns

end

end Node

/-! ## Trees -/

/-- A module with numbered nodes. No node has `nextId` or a greater id. -/
structure Tree where
  root : Node
  nextId : Nat

namespace Tree

/-- Numbers the nodes of a module from one; anything else becomes the only statement of one. -/
def ofRoot (root : Node) : Tree :=
  let root := match root.kind with
    | .module _ => root
    | _ => Node.ofKind (.module [root])
  let (root, last) := root.renumber.run 0
  { root, nextId := last + 1 }

def ofBody (body : List Node) : Tree := ofRoot (Node.ofKind (.module body))

def body (t : Tree) : List Node :=
  match t.root.kind with
  | .module body => body
  | _ => []

instance : BEq Tree := ⟨fun s t => s.root == t.root && s.nextId == t.nextId⟩

end Tree

end Motif
