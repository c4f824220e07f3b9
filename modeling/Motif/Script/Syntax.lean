import Motif.Value

/-!
# Generated programs

The JavaScript programs that modules are compiled to. Operators bind as the tree says only where
`paren` puts the parentheses: printing adds none.
-/

namespace Motif.Script

mutual

inductive Expr where
  | name (id : String)
  | literal (value : Value)
  | paren (e : Expr)
  | bang (e : Expr)
  | minus (e : Expr)
  | binary (op : String) (left right : Expr)
  | cond (test yes no : Expr)
  | assign (id : String) (value : Expr)
  | comma (first second : Expr)
  | all (tests : List Expr)
  | any (tests : List Expr)
  | array (items : List Expr)
  | object (properties : List Property)
  | member (target : Expr) (name : String)
  | index (target key : Expr)
  | call (callee : Expr) (args : List Expr)
  | function (isGenerator : Bool) (params : List String) (body : List Stmt)
  | yield (e : Expr)
  | yieldAll (e : Expr)

inductive Property where
  | named (key : String) (value : Expr)
  | computed (key value : Expr)

inductive Stmt where
  | directive (text : String)
  /-- A constant with the text of the expression it is bound to. -/
  | constant (id text : String)
  | declare (ids : List String)
  | assign (target value : Expr)
  | expr (e : Expr)
  | ret (e : Expr)
  /-- Tests with their bodies, and what to do if none holds. -/
  | branch (arms : List (Expr × List Stmt)) (otherwise : List Stmt)
  | forOf (id : String) (iterator : Expr) (body : List Stmt)
  | continueUnless (test : Expr)
  | throwError (message : String)

end

instance : Inhabited Expr := ⟨.name ""⟩

namespace Expr

def isName (id : String) : Expr → Bool
  | .name other => other == id
  | _ => false

/-- Whether the text of an expression is closed off at both ends by parentheses. -/
def isClosed : Expr → Bool
  | .paren _ => true
  | .call (.paren _) _ => true
  | _ => false

def ofNat (n : Nat) : Expr := .literal (.number (Float.ofNat n))

def ofString (s : String) : Expr := .literal (.string s)

def callName (id : String) (args : List Expr) : Expr := .call (.name id) args

end Expr

end Motif.Script
