import Motif.TypeName

/-!
# Options of a compilation
-/

namespace Motif

inductive Pass where
  | pattern
  | simplify
  | scope
  deriving Repr, DecidableEq, Inhabited

namespace Pass

def all : List Pass := [.pattern, .simplify, .scope]

def name : Pass → String
  | .pattern => "pattern"
  | .simplify => "rewrite"
  | .scope => "validate"

def ofName? (name : String) : Option Pass := all.find? fun pass => pass.name == name

end Pass

structure Options where
  passes : List Pass := [.pattern, .simplify, .scope]
  /-- Names that every module can use without declaring them. -/
  globals : List String := TypeName.all.map TypeName.name
  /-- Texts with more characters than this become constants of the module. -/
  inlineStringLimit : Nat := 32
  strictMode : Bool := true
  /-- Blanks per level of generated code. -/
  indent : Nat := 2
  deriving Repr, DecidableEq, Inhabited

end Motif
