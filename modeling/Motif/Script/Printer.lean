import Motif.Script.Code
import Motif.Script.Syntax
import Motif.Value.Text

/-!
# Printing generated programs
-/

namespace Motif.Script

open Text.Quoted (quote)

/-- Whether an expression with this text would be taken for a block or a function declaration at the
beginning of a statement. -/
def startsLikeStatement (text : String) : Bool :=
  "\x7b".toList.isPrefixOf text.toList || "function".toList.isPrefixOf text.toList

def functionHead (isGenerator : Bool) (params : List String) : String :=
  (if isGenerator then "function* (" else "function (") ++ ", ".intercalate params ++ ")"

mutual

/-- The text of an expression. Bodies of functions are indented by `indent` spaces a level. -/
def Expr.text (indent : Nat) : Expr → String
  | .name id => id
  | .literal value => value.script
  | .paren e => "(" ++ e.text indent ++ ")"
  | .bang e => "!" ++ e.text indent
  | .minus e => "-" ++ e.text indent
  | .binary op left right => left.text indent ++ " " ++ op ++ " " ++ right.text indent
  | .cond test yes no => test.text indent ++ " ? " ++ yes.text indent ++ " : " ++ no.text indent
  | .assign id value => id ++ " = " ++ value.text indent
  | .comma first second => first.text indent ++ ", " ++ second.text indent
  | .all tests => " && ".intercalate (exprTexts indent tests)
  | .any tests => " || ".intercalate (exprTexts indent tests)
  | .array items => "[" ++ ", ".intercalate (exprTexts indent items) ++ "]"
  | .object [] => "\x7b\x7d"
  | .object properties => "\x7b " ++ ", ".intercalate (propertyTexts indent properties) ++ " \x7d"
  | .member target name => target.text indent ++ "." ++ name
  | .index target key => target.text indent ++ "[" ++ key.text indent ++ "]"
  | .call callee args => callee.text indent ++ "(" ++ ", ".intercalate (exprTexts indent args) ++ ")"
  | .function isGenerator params body =>
    Code.functionText (functionHead isGenerator params) (bodyCode indent body) indent
  | .yield e => "yield " ++ e.text indent
  | .yieldAll e => "yield* " ++ e.text indent

def exprTexts (indent : Nat) : List Expr → List String
  | [] => []
  | e :: es => e.text indent :: exprTexts indent es

def Property.text (indent : Nat) : Property → String
  | .named key value => quote key ++ ": " ++ value.text indent
  | .computed key value => "[" ++ key.text indent ++ "]: " ++ value.text indent

def propertyTexts (indent : Nat) : List Property → List String
  | [] => []
  | p :: ps => p.text indent :: propertyTexts indent ps

def Stmt.code (indent : Nat) : Stmt → Code
  | .directive text => .line (quote text ++ ";")
  | .constant id text => .line ("const " ++ id ++ " = " ++ text ++ ";")
  | .declare ids => .line ("let " ++ ", ".intercalate ids ++ ";")
  | .assign target value => .line (target.text indent ++ " = " ++ value.text indent ++ ";")
  | .expr e =>
    let text := e.text indent
    .line (if startsLikeStatement text then "(" ++ text ++ ");" else text ++ ";")
  | .ret e => .line ("return " ++ e.text indent ++ ";")
  | .branch arms otherwise =>
    let last := bodyCode indent otherwise
    .chain (armCodes indent "if (" arms ++ if last.isEmpty then [] else [("else", last)])
  | .forOf id iterator body =>
    .block ("for (" ++ id ++ " of " ++ iterator.text indent ++ ")") (bodyCode indent body)
  | .continueUnless test => .line ("if (!(" ++ test.text indent ++ ")) continue;")
  | .throwError message => .line ("throw new Error(" ++ quote message ++ ");")

def bodyCode (indent : Nat) : List Stmt → Code
  | [] => {}
  | s :: body => s.code indent ++ bodyCode indent body

def armCodes (indent : Nat) (keyword : String) : List (Expr × List Stmt) → List (String × Code)
  | [] => []
  | (test, body) :: arms =>
    (keyword ++ test.text indent ++ ")", bodyCode indent body) :: armCodes indent "else if (" arms

end

end Motif.Script
