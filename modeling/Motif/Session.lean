import Motif.Annotation
import Motif.Diagnostic

/-!
# Sessions

What the passes over one tree share: annotations, diagnostics, and the next free id.
-/

namespace Motif

structure Session where
  annotations : Annotations := {}
  diagnostics : List Diagnostic := []
  nextId : Nat := 1
  deriving Repr, Inhabited

namespace Session

/-- A session that hands out ids from `nextId` on, and never the id `0`. -/
def startingAt (nextId : Nat) : Session := { nextId := max nextId 1 }

def report (s : Session) (d : Diagnostic) : Session := { s with diagnostics := s.diagnostics ++ [d] }

def annotate (s : Session) (id : Nat) (note : Annotation) : Session :=
  { s with annotations := s.annotations.annotate id note }

def errors (s : Session) : List Diagnostic := s.diagnostics.filter Diagnostic.isError

def warnings (s : Session) : List Diagnostic := s.diagnostics.filter fun d => !d.isError

def hasErrors (s : Session) : Bool := s.diagnostics.any Diagnostic.isError

end Session

end Motif
