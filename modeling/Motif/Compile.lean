import Motif.Digest.Sha256
import Motif.Emit.Module
import Motif.Pipeline

/-!
# Compiling a tree

The passes run first. If they report an error no code is generated; warnings are handed on.
-/

namespace Motif

inductive CompileError where
  | diagnostics (errors : List Diagnostic)
  | internal (pass : Pass) (message : String)
  | emit (e : Emit.EmitError)
  deriving Repr, DecidableEq

def CompileError.message : CompileError → String
  | .diagnostics errors => "compilation failed with " ++ toString errors.length ++ " error(s)"
  | .internal pass message => "internal error in " ++ pass.name ++ " pass: " ++ message
  | .emit e => "code generation failed: " ++ e.message

structure CompiledTree where
  module : Emit.GeneratedModule
  warnings : List Diagnostic
  tree : Tree
  annotations : Annotations

def compileWith (options : Options) (passes : List Pass) (tree : Tree) : Except CompileError CompiledTree :=
  match runPasses options passes tree with
  | .error e => .error (.internal e.pass e.message)
  | .ok (tree, session) =>
    if session.hasErrors then .error (.diagnostics session.errors)
    else match Emit.generate options session.annotations tree.root with
      | .error e => .error (.emit e)
      | .ok module => .ok { module, warnings := session.warnings, tree, annotations := session.annotations }

def compile (options : Options) (tree : Tree) : Except CompileError CompiledTree :=
  compileWith options options.passes tree

def Emit.GeneratedModule.hash (m : Emit.GeneratedModule) : String := Digest.Sha256.ofText m.text

end Motif
