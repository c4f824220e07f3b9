import Motif.Script.Syntax

/-!
# Constants of a module

What generated code declares once for the whole module: the library functions it uses, its larger
literals, and the results of calls that need not be repeated. Each is known by its text.
-/

namespace Motif.Emit

open Script

structure Constants where
  imports : List String := []
  literals : List String := []
  builders : List String := []
  deriving Repr, DecidableEq, Inhabited

namespace Constants

/-- Adds a text unless it is there already; gives its position. -/
def intern (text : String) (texts : List String) : Nat × List String :=
  match texts.idxOf? text with
  | some i => (i, texts)
  | none => (texts.length, texts ++ [text])

def importId (name : String) : String := "$" ++ name

def literalId (i : Nat) : String := "$l" ++ toString i

def builderId (i : Nat) : String := "$b" ++ toString i

def useImport (c : Constants) (name : String) : String × Constants :=
  let (_, imports) := intern name c.imports
  (importId name, { c with imports })

def useLiteral (c : Constants) (text : String) : String × Constants :=
  let (i, literals) := intern text c.literals
  (literalId i, { c with literals })

def builderText (name : String) (args : List String) : String :=
  "$r." ++ name ++ "(" ++ ", ".intercalate args ++ ")"

def useBuilder (c : Constants) (name : String) (args : List String) : String × Constants :=
  let (i, builders) := intern (builderText name args) c.builders
  (builderId i, { c with builders })

def declarations (c : Constants) : List Stmt :=
  c.imports.map (fun name => .constant (importId name) ("$r." ++ name))
    ++ c.literals.mapIdx (fun i text => .constant (literalId i) text)
    ++ c.builders.mapIdx (fun i text => .constant (builderId i) text)

end Constants

end Motif.Emit
