import Motif.Dict
import Motif.Script.Syntax

/-!
# What generated statements do

The meaning of the plain part of generated programs: ids are declared before they are used and begin
as undefined, an assignment changes an id, a branch takes the first arm whose test holds, and a
return stops. Undefined is the value `nothing`. Whatever else there is in programs has no meaning
here, and neither has the use of an id that is not declared.
-/

namespace Motif.Script

abbrev Store := List (String × Value)

inductive Ending where
  | next (store : Store)
  | returned (v : Value)
  deriving Repr

def Expr.value? (store : Store) : Expr → Option Value
  | .name id => Dict.get? id store
  | .literal v => some v
  | _ => none

/-- The outcome of a test: a truth value as it stands, or the truth of a simple expression. -/
def Expr.test? (store : Store) : Expr → Option Bool
  | .literal (.bool b) => some b
  | .call callee [e] => if callee.isName "$isTrue" then (e.value? store).map Value.isTruthy else none
  | _ => none

mutual

/-- What a statement of generated code does, if it is one that has a meaning here. -/
def Stmt.exec (store : Store) : Stmt → Option Ending
  | .declare ids => some (.next (Dict.setAll (ids.map fun id => (id, .nothing)) store))
  | .assign (.name id) e =>
    match e.value? store with
    | some v => if Dict.contains id store then some (.next (Dict.set id v store)) else none
    | none => none
  | .ret e => (e.value? store).map .returned
  | .branch arms otherwise => execArms store (execBody store otherwise) arms
  | _ => none

def execBody (store : Store) : List Stmt → Option Ending
  | [] => some (.next store)
  | s :: body =>
    match s.exec store with
    | some (.next store) => execBody store body
    | ending => ending

def execArms (store : Store) (otherwise : Option Ending) : List (Expr × List Stmt) → Option Ending
  | [] => otherwise
  | (test, body) :: arms =>
    match test.test? store with
    | some true => execBody store body
    | some false => execArms store otherwise arms
    | none => none

end

/-- What a function with the given body returns: undefined, unless a statement returns. -/
def result? (body : List Stmt) : Option Value :=
  match execBody [] body with
  | some (.returned v) => some v
  | some (.next _) => some .nothing
  | none => none

/-! ## Statements in order -/

theorem execBody_singleton (store : Store) (s : Stmt) : execBody store [s] = s.exec store := by
  rw [execBody]
  cases s.exec store with
  | none => rfl
  | some ending =>
    cases ending with
    | next store => exact execBody.eq_1 store
    | returned v => rfl

theorem execBody_append (store : Store) (body body' : List Stmt) :
    execBody store (body ++ body') =
      match execBody store body with
      | some (.next store) => execBody store body'
      | ending => ending := by
  induction body generalizing store with
  | nil => rw [List.nil_append, execBody]
  | cons s body ih =>
    rw [List.cons_append, execBody, execBody]
    cases s.exec store with
    | none => rfl
    | some ending =>
      cases ending with
      | next store => exact ih store
      | returned v => rfl

theorem execBody_append_next {store store' : Store} {body : List Stmt}
    (h : execBody store body = some (.next store')) (body' : List Stmt) :
    execBody store (body ++ body') = execBody store' body' := by
  rw [execBody_append, h]

theorem execBody_append_returned {store : Store} {body : List Stmt} {v : Value}
    (h : execBody store body = some (.returned v)) (body' : List Stmt) :
    execBody store (body ++ body') = some (.returned v) := by
  rw [execBody_append, h]

end Motif.Script
