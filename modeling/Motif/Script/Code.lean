import Motif.Text.Lines

/-!
# Lines of code

Lines at nesting depths. A line may itself hold line feeds, as a function inside a statement does;
all its parts are indented alike.
-/

namespace Motif.Script

structure Code where
  lines : List (Nat × String) := []
  deriving Repr, DecidableEq, Inhabited

namespace Code

instance : Append Code := ⟨fun a b => { lines := a.lines ++ b.lines }⟩

def line (text : String) : Code := { lines := [(0, text)] }

def nested (code : Code) : Code := { lines := code.lines.map fun (depth, text) => (depth + 1, text) }

def block (head : String) (body : Code) : Code := line (head ++ " \x7b") ++ body.nested ++ line "\x7d"

def chainRest : List (String × Code) → Code
  | [] => line "\x7d"
  | (head, body) :: arms => line ("\x7d " ++ head ++ " \x7b") ++ body.nested ++ chainRest arms

/-- Bodies with their heads, where each closing brace shares a line with the next head. -/
def chain : List (String × Code) → Code
  | [] => {}
  | (head, body) :: arms => line (head ++ " \x7b") ++ body.nested ++ chainRest arms

def isEmpty (code : Code) : Bool := code.lines.isEmpty

def length (code : Code) : Nat := code.lines.length

/-- A line with `pad` spaces in front of each part that is not empty. -/
def padLine (pad : Nat) (text : String) : String :=
  "\n".intercalate ((Text.cutLines text.toList).map fun part =>
    String.ofList (if part.isEmpty then [] else List.replicate pad ' ' ++ part))

/-- The text, with `indent` spaces for each level; the outermost lines are `base` levels deep. -/
def render (code : Code) (indent base : Nat) : String :=
  "\n".intercalate (code.lines.map fun (depth, text) => padLine (indent * (base + depth)) text)

def functionText (head : String) (body : Code) (indent : Nat) : String :=
  if body.isEmpty then head ++ " \x7b\x7d"
  else head ++ " \x7b\n" ++ body.render indent 1 ++ "\n\x7d"

end Code

end Motif.Script
