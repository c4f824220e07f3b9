import Mathlib.Data.List.Forall2
import Motif.Eval.Basic

/-!
# What host functions can see

A host function can look at data, at regular expressions and at named types. Of a function or a
pattern it sees only which one it is: it can keep it, hand it on and compare it, but neither read
its text nor make one. `Host.Opaque` says so by relating runs: whatever stands behind the functions
and patterns that a host function is given, it answers alike.
-/

namespace Motif.Eval

/-- What is to be seen of two values is the same: they are equal, or they are functions or patterns
    that carry the same stamp. -/
def Val.SameFace : Val → Val → Prop
  | .function s .., .function t .. => s = t
  | .pattern s .., .pattern t .. => s = t
  | v, w => v = w

/-- A relation between values that agrees with what is to be seen of them. -/
structure Discreet (R : Val → Val → Prop) : Prop where
  sameFace : ∀ {v w}, R v w → v.SameFace w
  data : ∀ d, R (.data d) (.data d)
  regex : ∀ p f c, R (.regex p f c) (.regex p f c)
  type : ∀ t, R (.type t) (.type t)

/-- Calls of one host function with related arguments. -/
structure HostCall.Alike (R : Val → Val → Prop) (c c' : HostCall) : Prop where
  name : c'.name = c.name
  args : List.Forall₂ R c.args c'.args

namespace Host

/-- Given related calls until then and related arguments, every host function has related
    answers. -/
def Respects (host : Host) (R : Val → Val → Prop) : Prop :=
  ∀ name f, host.natives name = some f →
    ∀ earlier earlier' args args', List.Forall₂ (HostCall.Alike R) earlier earlier' →
      List.Forall₂ R args args' → ∀ v, f earlier args = .ok v →
        ∃ v', f earlier' args' = .ok v' ∧ R v v'

/-- The functions of the host do not see into functions and patterns. -/
def Opaque (host : Host) : Prop := ∀ R, Discreet R → host.Respects R

end Host

def bareHost (annotations : Annotations) : Host := { annotations, natives := fun _ => none }

theorem opaque_bareHost (annotations : Annotations) : (bareHost annotations).Opaque :=
  fun _ _ _ _ h => nomatch h

end Motif.Eval
