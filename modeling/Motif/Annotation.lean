import Motif.Dict

/-!
# Annotations

What the passes find out about nodes, kept beside the tree and looked up by node id, so that it
stays with a node that moves.
-/

namespace Motif

inductive AnnotationKey where
  | patternLocal
  | patternParent
  | patternContext
  | patternComplexity
  | patternEquality
  | scopeDeclarations
  | functionShadow
  deriving Repr, DecidableEq, Inhabited

namespace AnnotationKey

def all : List AnnotationKey :=
  [.patternLocal, .patternParent, .patternContext, .patternComplexity, .patternEquality,
    .scopeDeclarations, .functionShadow]

def name : AnnotationKey → String
  | .patternLocal => "PatternLocal"
  | .patternParent => "PatternParent"
  | .patternContext => "PatternContext"
  | .patternComplexity => "PatternComplexity"
  | .patternEquality => "PatternEquality"
  | .scopeDeclarations => "ScopeDeclarations"
  | .functionShadow => "FunctionShadow"

def path : AnnotationKey → String
  | .patternLocal => "pattern/local"
  | .patternParent => "pattern/parent"
  | .patternContext => "pattern/context"
  | .patternComplexity => "pattern/complexity"
  | .patternEquality => "pattern/equality"
  | .scopeDeclarations => "scope/declarations"
  | .functionShadow => "function/shadow"

def ofPath? (path : String) : Option AnnotationKey := all.find? fun key => key.path == path

end AnnotationKey

inductive Annotation where
  /-- The local that holds the value under test of a pattern or of an element of one. -/
  | patternLocal (n : Nat)
  /-- The local of the collection that a collection pattern takes apart. -/
  | patternParent (n : Nat)
  /-- The local a context reference stands for; also on the nodes around the reference. -/
  | patternContext (n : Nat)
  /-- How costly the template of a pattern is to test. -/
  | patternComplexity (n : Nat)
  /-- The template can be tested by plain equality. -/
  | patternEquality
  | scopeDeclarations (names : List String)
  /-- A function whose name was declared in its scope before. -/
  | functionShadow
  deriving Repr, DecidableEq, Inhabited

def Annotation.key : Annotation → AnnotationKey
  | .patternLocal _ => .patternLocal
  | .patternParent _ => .patternParent
  | .patternContext _ => .patternContext
  | .patternComplexity _ => .patternComplexity
  | .patternEquality => .patternEquality
  | .scopeDeclarations _ => .scopeDeclarations
  | .functionShadow => .functionShadow

structure Notes where
  patternLocal : Option Nat := none
  patternParent : Option Nat := none
  patternContext : Option Nat := none
  patternComplexity : Option Nat := none
  patternEquality : Bool := false
  scopeDeclarations : Option (List String) := none
  functionShadow : Bool := false
  deriving Repr, DecidableEq, Inhabited

namespace Notes

def get? (notes : Notes) : AnnotationKey → Option Annotation
  | .patternLocal => notes.patternLocal.map .patternLocal
  | .patternParent => notes.patternParent.map .patternParent
  | .patternContext => notes.patternContext.map .patternContext
  | .patternComplexity => notes.patternComplexity.map .patternComplexity
  | .patternEquality => if notes.patternEquality then some .patternEquality else none
  | .scopeDeclarations => notes.scopeDeclarations.map .scopeDeclarations
  | .functionShadow => if notes.functionShadow then some .functionShadow else none

def set (notes : Notes) : Annotation → Notes
  | .patternLocal n => { notes with patternLocal := some n }
  | .patternParent n => { notes with patternParent := some n }
  | .patternContext n => { notes with patternContext := some n }
  | .patternComplexity n => { notes with patternComplexity := some n }
  | .patternEquality => { notes with patternEquality := true }
  | .scopeDeclarations names => { notes with scopeDeclarations := some names }
  | .functionShadow => { notes with functionShadow := true }

def count (notes : Notes) : Nat := (AnnotationKey.all.filter fun key => (notes.get? key).isSome).length

end Notes

structure Annotations where
  table : List (Nat × Notes) := []
  deriving Repr, DecidableEq, Inhabited

namespace Annotations

def notes (a : Annotations) (id : Nat) : Notes := (Dict.get? id a.table).getD {}

/-- Sets an annotation; an earlier one of its kind is replaced. -/
def annotate (a : Annotations) (id : Nat) (note : Annotation) : Annotations :=
  { table := Dict.set id ((a.notes id).set note) a.table }

def get? (a : Annotations) (id : Nat) (key : AnnotationKey) : Option Annotation := (a.notes id).get? key

def has (a : Annotations) (id : Nat) (key : AnnotationKey) : Bool := (a.get? id key).isSome

def local? (a : Annotations) (id : Nat) : Option Nat := (a.notes id).patternLocal

def parent? (a : Annotations) (id : Nat) : Option Nat := (a.notes id).patternParent

def context? (a : Annotations) (id : Nat) : Option Nat := (a.notes id).patternContext

def complexity? (a : Annotations) (id : Nat) : Option Nat := (a.notes id).patternComplexity

def testsByEquality (a : Annotations) (id : Nat) : Bool := (a.notes id).patternEquality

def isShadow (a : Annotations) (id : Nat) : Bool := (a.notes id).functionShadow

def declarations (a : Annotations) (id : Nat) : List String := (a.notes id).scopeDeclarations.getD []

def isDeclared (a : Annotations) (id : Nat) (name : String) : Bool := (a.declarations id).contains name

/-- Declares a name in a scope, unless it is declared there. -/
def declare (a : Annotations) (id : Nat) (name : String) : Annotations :=
  if a.isDeclared id name then a
  else a.annotate id (.scopeDeclarations (a.declarations id ++ [name]))

def declareAll (a : Annotations) (id : Nat) (names : List String) : Annotations :=
  names.foldl (fun a name => a.declare id name) a

def count (a : Annotations) : Nat := (a.table.map fun entry => entry.2.count).foldr (· + ·) 0

def listBelow (a : Annotations) (bound : Nat) : List (Nat × Annotation) :=
  (List.range bound).flatMap fun id =>
    AnnotationKey.all.filterMap fun key => (a.get? id key).map fun note => (id, note)

theorem notes_annotate (a : Annotations) (id other : Nat) (note : Annotation) :
    (a.annotate id note).notes other = if id = other then (a.notes id).set note else a.notes other := by
  unfold annotate notes
  rw [Dict.get?_set]
  by_cases h : id = other <;> simp [h]

theorem local?_annotate (a : Annotations) (id other l : Nat) : (a.annotate id (.patternLocal l)).local? other =
      if id = other then some l else a.local? other := by
  unfold local?
  rw [notes_annotate]
  split <;> rfl

theorem context?_annotate (a : Annotations) (id other l : Nat) :
    (a.annotate id (.patternContext l)).context? other = if id = other then some l else a.context? other := by
  unfold context?
  rw [notes_annotate]
  split <;> rfl

theorem parent?_annotate (a : Annotations) (id other l : Nat) :
    (a.annotate id (.patternParent l)).parent? other = if id = other then some l else a.parent? other := by
  unfold parent?
  rw [notes_annotate]
  split <;> rfl

end Annotations

end Motif
