import Motif.Proofs.Emit.Failure
import Motif.Proofs.Pipeline.Passes

/-!
# Code generation after the passes

If pattern elaboration finds no error, every node has the annotations that code generation looks up.
Simplification moves and drops nodes and makes some that need none, and the walk over scopes leaves the
annotations of patterns alone. So after the passes code generation finds what it takes for granted.
-/

namespace Motif

theorem Pattern.Visits.everywhere_ready {root : Node} {s s' : Pattern.State}
    (h : Pattern.Visits [root] [] s s') (herrors : s'.session.hasErrors = false)
    (hwrapped : Desugar.WrappedIn root) : root.Everywhere (Emit.Ready s'.session.annotations) := by
  intro n hn
  have hclause := hwrapped n hn
  rw [← root.map_snd_located [], List.mem_map] at hn
  obtain ⟨⟨path, n⟩, hmem, rfl⟩ := hn
  have howner (htag : n.tag ∈ Pattern.boundaries) : (s'.session.annotations.local? n.id).isSome := by
    have hn : n ∈ Pattern.nodesOf [root] := by
      rw [Pattern.nodesOf, List.flatMap_singleton, ← root.map_snd_located []]
      exact List.mem_map_of_mem hmem
    obtain ⟨l, hl, -⟩ := h.given n hn htag
    rw [hl]
    rfl
  have hunder := h.exists_owner herrors hmem
  obtain ⟨i, span, k⟩ := n
  cases k with
  | context =>
    have hopens : Pattern.opens ⟨i, span, .context⟩ = true := by
      rw [Pattern.opens_eq]
      rfl
    obtain ⟨f, hf⟩ := hunder rfl
    obtain ⟨hcontext, hlocal⟩ := h.context_eq hmem hopens hf
    exact (congrArg Option.isSome hcontext).trans hlocal
  | pattern template => exact howner (of_decide_eq_true rfl)
  | element key template => exact howner (of_decide_eq_true rfl)
  | clause patterns body => exact hclause
  | _ => trivial

/-- What is ready stays ready when the tree is simplified: context references, patterns and elements
    keep their ids, and the alternatives of a clause stay patterns. -/
theorem Simplify.Becomes.everywhere_ready {a : Annotations} {n n' : Node} (h : Becomes n n')
    (hn : n.Everywhere (Emit.Ready a)) : n'.Everywhere (Emit.Ready a) := by
  refine h.everywhere (fun m hm => ?_) (fun _ _ _ => trivial) (fun {n _ _} hn _ hrel _ => ?_) hn
  · obtain ⟨i, span, k⟩ := m
    cases k with
    | context | pattern | element | clause => exact absurd hm (of_decide_eq_false rfl)
    | _ => trivial
  · have hhere := hn.here
    obtain ⟨i, span, k₀⟩ := n
    cases hrel with
    | clause hpatterns =>
      intro p' hp'
      obtain ⟨p, hp, hbecomes⟩ := Kind.exists_of_mem_right hpatterns hp'
      have htag : p.tag = .pattern := hhere p hp
      obtain ⟨k, hrel, rfl⟩ := hbecomes.keeps (htag ▸ by decide)
      exact hrel.tag_eq.trans htag
    | context | pattern | element => exact hhere
    | _ => trivial

theorem Scope.Spares.everywhere_ready {s s' : Session} {n : Node} (h : Spares s s')
    (hn : n.Everywhere (Emit.Ready s.annotations)) : n.Everywhere (Emit.Ready s'.annotations) := by
  refine hn.imp fun m hm => ?_
  obtain ⟨i, span, k⟩ := m
  cases k with
  | context => exact (congrArg Option.isSome (h.contexts i)).trans hm
  | pattern template => exact (congrArg Option.isSome (h.locals i)).trans hm
  | element key template => exact (congrArg Option.isSome (h.locals i)).trans hm
  | clause patterns body => exact hm
  | _ => trivial

theorem runPasses_usual {t tree : Tree} {session : Session} {options : Options} (ht : t.Built)
    (hrun : runPasses options [.pattern, .simplify, .scope] t = .ok (tree, session))
    (herrors : session.hasErrors = false) :
    ∃ root₁ s₀ s nextId, Desugar.Shapes t.root root₁ ∧ Pattern.Visits [root₁] [] s₀ s ∧
      s.session.hasErrors = false ∧ Simplify.Becomes root₁ tree.root ∧ tree.root.tag = .module ∧
      Scope.Spares { s.session with nextId } session := by
  obtain ⟨root, rfl⟩ := ht.exists_root
  have hstart := Tree.intact root
  obtain ⟨root₁, nextId, s, hshape, hpattern, hids, hvisits⟩ := Pattern.run_visits hstart.ids
  have hshaped := Desugar.inShape_of_shapes (.of_run hshape)
  obtain ⟨root₂, nextId₂, hsimplify⟩ : ∃ root₂ nextId₂,
      (Simplify.simplify root₁).run s.session.nextId = (root₂, nextId₂) := ⟨_, _, rfl⟩
  have hbecomes : Simplify.Becomes root₁ root₂ := .of_run hsimplify
  have hmodule := hbecomes.module (hshaped.tag.trans hstart.tag)
  obtain ⟨session₃, hscope, hspares⟩ := Scope.run_spares options hmodule { s.session with nextId := nextId₂ }
  have hall : runPasses options [.pattern, .simplify, .scope] (Tree.ofRoot root) =
      .ok ({ root := root₂, nextId := session₃.nextId }, session₃) := by
    simp only [runPasses, runFrom, Pass.run, hpattern, Simplify.run, hsimplify, hscope]
    rfl
  rw [hall] at hrun
  cases hrun
  exact ⟨root₁, _, s, nextId₂, .of_run hshape, hvisits, hspares.hasErrors herrors, hbecomes, hmodule, hspares⟩

/-- Whatever has been built, no invariant of the compiler is ever broken. No pass is given up, in
    whatever order and however often passes are run; and if the usual passes find no error, then all
    that code generation can find amiss is a node that stands where it cannot stand. -/
theorem no_broken_invariant {t : Tree} (ht : t.Built) (options : Options) :
    (∀ passes, ∃ tree session, runPasses options passes t = .ok (tree, session)) ∧
      ∀ tree session, runPasses options [.pattern, .simplify, .scope] t = .ok (tree, session) →
        session.hasErrors = false → ∀ emitOptions e,
          Emit.generate emitOptions session.annotations tree.root = .error e →
            ∃ tag position, e = .unexpected tag position := by
  constructor
  · intro passes
    obtain ⟨tree, session, hrun, -⟩ := runPasses_intact ht options passes
    exact ⟨tree, session, hrun⟩
  · intro tree session hrun herrors emitOptions e hgenerate
    obtain ⟨root₁, _, s, nextId, hshape, hvisits, hclean, hbecomes, hmodule, hspares⟩ :=
      runPasses_usual ht hrun herrors
    have hready := hvisits.everywhere_ready hclean (Desugar.inShape_of_shapes hshape).wrapped
    exact Emit.misplaced_of_generate hmodule
      (hspares.everywhere_ready (hbecomes.everywhere_ready hready)) hgenerate

def strayBody : List Node :=
  busyBody ++ [.ofKind (.exprStmt (.ofKind (.ret (.ofKind (.literal (.bool true))))))]

theorem strayBody_fails :
    (runPasses {} [.pattern, .simplify, .scope] (.ofBody strayBody)).toOption.any (fun result =>
      !result.2.hasErrors && (Emit.generate {} result.2.annotations result.1.root).toOption.isNone) =
        true := by
  decide +kernel

theorem no_broken_invariant_stray : ∃ tree session e,
      runPasses {} [.pattern, .simplify, .scope] (.ofBody strayBody) = .ok (tree, session) ∧
      session.hasErrors = false ∧ Emit.generate {} session.annotations tree.root = .error e ∧
      ∃ tag position, e = .unexpected tag position := by
  obtain ⟨hpasses, horderly⟩ := no_broken_invariant (.body strayBody) {}
  obtain ⟨tree, session, hrun⟩ := hpasses [.pattern, .simplify, .scope]
  have hfails := strayBody_fails
  rw [hrun] at hfails
  simp only [Except.toOption, Option.any_some, Bool.and_eq_true, Bool.not_eq_true'] at hfails
  obtain ⟨herrors, hfails⟩ := hfails
  cases hgenerate : Emit.generate {} session.annotations tree.root with
  | ok module =>
    rw [hgenerate] at hfails
    cases hfails
  | error e =>
    exact ⟨tree, session, e, hrun, herrors, hgenerate, horderly tree session hrun herrors {} e hgenerate⟩

end Motif
