import Motif.Text.Lines
import Motif.Text.Nearest
import Motif.Tree.Node

/-!
# Diagnostics

What the passes have to say about a tree, each remark about one node, and how a remark is shown with
the line of source that it points at.
-/

namespace Motif

inductive Severity where
  | error
  | warning
  deriving Repr, DecidableEq, Inhabited

def Severity.name : Severity → String
  | .error => "error"
  | .warning => "warning"

inductive DiagnosticKind where
  | declaration
  | patternContext
  | usage
  | argument
  | internalInvariant
  | shadowedFunction
  deriving Repr, DecidableEq, Inhabited

namespace DiagnosticKind

def all : List DiagnosticKind :=
  [.declaration, .patternContext, .usage, .argument, .internalInvariant, .shadowedFunction]

def name : DiagnosticKind → String
  | .declaration => "DeclarationError"
  | .patternContext => "PatternContextError"
  | .usage => "UsageError"
  | .argument => "ArgumentError"
  | .internalInvariant => "InternalInvariantError"
  | .shadowedFunction => "ShadowedFunction"

/-- A code that stays the same when the wording changes. -/
def code : DiagnosticKind → String
  | .declaration => "E0001"
  | .patternContext => "E0002"
  | .usage => "E0003"
  | .argument => "E0004"
  | .internalInvariant => "E0005"
  | .shadowedFunction => "W0001"

def severity : DiagnosticKind → Severity
  | .shadowedFunction => .warning
  | _ => .error

end DiagnosticKind

structure Diagnostic where
  kind : DiagnosticKind
  node : Nat
  span : Span
  message : String
  suggestions : List String := []
  deriving Repr, DecidableEq, Inhabited

namespace Diagnostic

def about (n : Node) (kind : DiagnosticKind) (message : String) : Diagnostic :=
  { kind, node := n.id, span := n.span, message }

def severity (d : Diagnostic) : Severity := d.kind.severity

def isError (d : Diagnostic) : Bool := d.severity == .error

def display (d : Diagnostic) : String :=
  d.kind.name ++ "[" ++ d.kind.code ++ "] " ++ toString d.node ++ ": " ++ d.message

/-! ## With the source -/

def lineNumber (n : Nat) : String :=
  let digits := toString n
  String.ofList (List.replicate (3 - digits.length) ' ') ++ digits

def underline (span : Span) : String :=
  String.ofList (List.replicate (span.column - 1) ' ') ++
    String.ofList (List.replicate (max 1 (span.stop - span.start)) '^')

def render (d : Diagnostic) (source filename : String) : String :=
  let head := d.severity.name ++ "[" ++ d.kind.code ++ "]: " ++ d.message ++ "\n"
  let place :=
    if d.span.isNone then ""
    else
      let position := "  --> " ++ filename ++ ":" ++ toString d.span.line ++ ":" ++
        toString d.span.column ++ "\n"
      match (Text.linesOf source)[d.span.line - 1]? with
      | some line =>
        position ++ "   |\n" ++ lineNumber d.span.line ++ " | " ++ line ++ "\n" ++
          "   | " ++ underline d.span ++ "\n"
      | none => position
  let help :=
    if d.suggestions.isEmpty then ""
    else "   |\n" ++ String.join (d.suggestions.map fun s => "   = help: " ++ s ++ "\n")
  head ++ place ++ help

end Diagnostic

end Motif
