import Motif.Proofs.Emit.Declared

/-!
# Why code generation fails

Code generation looks up the locals of patterns and of context references. Where every node has the
annotations that are looked up (`Ready`), it can fail for one reason only: a node stands where it
cannot stand.
-/

namespace Motif.Emit

def readyOnly (setting : Setting) : Premises :=
  { setting, plain := False, blocks := False, ready := True, inBlock := False }

/-- Where every node of a module has what code generation takes for granted, it can fail only because
    a node stands where it cannot stand. -/
theorem misplaced_of_generate {options : Options} {annotations : Annotations} {root : Node}
    (hroot : root.tag = .module) (h : root.Everywhere (Ready annotations)) {e : EmitError}
    (hgenerate : generate options annotations root = .error e) :
    ∃ tag position, e = .unexpected tag position := by
  have hmakes (n : Node) (hn : n ∈ root.children) :
      (readyOnly ⟨options, annotations⟩).Makes (compile n) (compile n) := by
    have hgrants : (readyOnly ⟨options, annotations⟩).Grants n [] :=
      ⟨False.elim, fun _ => h.child hn, False.elim, fun _ _ _ _ => trivial, False.elim, False.elim⟩
    exact makes_compile_self n hgrants nofun
  have hfails := (programBy_does (readyOnly _) hmakes).2
  dsimp only [readyOnly] at hfails
  unfold generate at hgenerate
  cases hrun : ((program root).run { options, annotations }).run {} with
  | error e' =>
    rw [hrun] at hgenerate hfails
    cases hgenerate
    exact hfails trivial hroot
  | ok result =>
    rw [hrun] at hgenerate
    cases hgenerate

end Motif.Emit
