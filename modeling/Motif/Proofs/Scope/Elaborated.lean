import Mathlib.Data.List.Nodup
import Motif.Pipeline
import Motif.Proofs.Pattern.Walk
import Motif.Proofs.Scope.Lexical
import Motif.Proofs.Scope.Walk
import Motif.Proofs.Tree.Numbering

/-!
# Scopes after pattern elaboration

Pattern elaboration writes annotations of its own and says nothing about declarations, and a tree in
shape is ordered if the tree was. So if the passes over an ordered program find no error, the program
is scoped.
-/

namespace Motif

open Scope List

theorem Pattern.run_ok {root root' : Node} {session session' : Session}
    (h : run root session = (.ok root', session')) :
    root' = ((Desugar.shape root).run session.nextId).1 ∧ (Records session [] → Records session' []) := by
  obtain ⟨shaped, nextId, s, hshape, -, hrun, hgrows⟩ := exists_elaborated root session
  cases hrun.symm.trans h
  rw [hshape]
  refine ⟨rfl, fun hrecords => ?_⟩
  obtain ⟨ds, hds, hkinds⟩ := hgrows.told
  have hremarks (kind : DiagnosticKind) (hkind : kind ≠ .patternContext) :
      remarks kind s.session.diagnostics = remarks kind session.diagnostics := by
    have hnone : ds.filter (fun d => d.kind == kind) = [] := by
      refine filter_eq_nil_iff.mpr fun d hd heq => hkind ?_
      rw [← hkinds d hd, eq_of_beq heq]
    rw [hds, remarks, filter_append, hnone, append_nil]
    rfl
  refine ⟨fun id name => ?_, ?_, ?_, fun id => ?_⟩
  · rw [Annotations.isDeclared, hgrows.notes.declarations (by decide)]
    exact hrecords.declared id name
  · exact (hremarks .declaration (by decide)).trans hrecords.told
  · exact (hremarks .shadowedFunction (by decide)).trans hrecords.warned
  · rw [hgrows.notes.isShadow (by decide)]
    exact hrecords.marked id

namespace Scope

/-! ## Programs without errors -/

theorem nodup_scopeIds {n : Node} (h : n.ids.Nodup) : (scopeIds n).Nodup :=
  (filter_sublist.map Node.id).nodup h

theorem undeclared_of_hasErrors {s : Session} {es : List Event} (h : Records s es)
    (herrors : s.hasErrors = false) : undeclared es = [] := by
  have htold : (undeclared es).map undeclaredRemark = [] := by
    rw [← h.told, remarks, map_eq_nil_iff, filter_eq_nil_iff]
    intro d hd hkind
    refine any_eq_false.mp herrors d hd ?_
    rw [Diagnostic.isError, Diagnostic.severity, eq_of_beq hkind]
    rfl
  exact map_eq_nil_iff.mp htold

theorem inBody_of_passes {options : Options} {root : Node} {tree : Tree} {session : Session}
    (hordered : Ordered (Tree.ofRoot root).root)
    (hrun : runPasses options [.pattern, .scope] (Tree.ofRoot root) = .ok (tree, session))
    (herrors : session.hasErrors = false) :
    ∃ body, tree.root.kind = .module body ∧ InBody Scoped (· ∈ options.globals) body := by
  obtain ⟨result, session₁, hpattern⟩ : ∃ result session₁,
      Pattern.run (Tree.ofRoot root).root (.startingAt (Tree.ofRoot root).nextId)
        = (result, session₁) := ⟨_, _, rfl⟩
  unfold runPasses runFrom Pass.run at hrun
  rw [hpattern] at hrun
  cases result with
  | error message => cases hrun
  | ok root₁ =>
    obtain ⟨hroot, hkeeps⟩ := Pattern.run_ok hpattern
    have hshaped : Desugar.Shaped (Tree.ofRoot root).root root₁ :=
      Desugar.shaped_of_shapes (hroot ▸ .of_run rfl)
    have hmodule : root₁.tag = .module := hshaped.tag.trans (Tree.tag_root root)
    obtain ⟨session₂, hscope, hrecords⟩ := records_run options hmodule (hkeeps (records_startingAt _))
    unfold runFrom Pass.run at hrun
    dsimp only at hrun
    rw [hscope] at hrun
    cases hrun
    have hids : (scopeIds root₁).Nodup := by
      rw [hroot]
      exact nodup_scopeIds
        ((Desugar.kept_shape _).here.1.distinct (Tree.distinct_ids root).startingAt).nodup
    have hundeclared := undeclared_of_hasErrors hrecords herrors
    have hordered := hshaped.ordered hordered
    obtain ⟨i, span, k⟩ := root₁
    cases k with
    | module body => exact ⟨body, rfl, inBody_of_undeclared hordered hids hundeclared⟩
    | _ => cases hmodule

end Scope

end Motif
