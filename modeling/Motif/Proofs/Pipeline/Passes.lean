import Motif.Pipeline
import Motif.Proofs.Pattern.Clauses
import Motif.Proofs.Pattern.Walk
import Motif.Proofs.Scope.Walk
import Motif.Proofs.Simplify.Identity
import Motif.Tree.Format

/-!
# Runs of passes

Passes can be run in any order and any number of times. What every pass relies on is that the root is a
module and that ids tell its nodes apart (`Intact`). Every pass keeps it and so succeeds.
-/

namespace Motif

/-- The trees that can be had: from a root, from statements, and from text. -/
inductive Tree.Built : Tree → Prop where
  | root (root : Node) : Built (.ofRoot root)
  | body (body : List Node) : Built (.ofBody body)
  | text {text : String} {t : Tree} (h : Tree.parse? text = some t) : Built t

theorem Tree.Built.exists_root {t : Tree} (h : t.Built) : ∃ root, t = .ofRoot root := by
  cases h with
  | root root => exact ⟨root, rfl⟩
  | body body => exact ⟨_, rfl⟩
  | text h =>
    unfold parse? ofDocument? at h
    simp only [Option.bind_eq_bind, Option.bind_eq_some_iff] at h
    obtain ⟨j, -, entries, -, kind, -, h⟩ := h
    split at h
    · obtain ⟨root, -, h⟩ := Option.bind_eq_some_iff.mp h
      exact ⟨root, (Option.some.inj h).symm⟩
    · cases h

/-- The root is a module, and ids tell the nodes of the tree and those still to come apart. -/
structure Intact (root : Node) (session : Session) : Prop where
  tag : root.tag = .module
  ids : Distinct session.nextId root.ids

variable {root : Node} {session : Session}

theorem Simplify.Becomes.module {root' : Node} (h : Becomes root root') (hroot : root.tag = .module) :
    root'.tag = .module := by
  obtain ⟨k, hrel, rfl⟩ := h.keeps (hroot ▸ by decide)
  exact hrel.tag_eq.trans hroot

theorem Pass.run_intact (pass : Pass) (options : Options) (h : Intact root session) :
    ∃ root' session', pass.run options root session = (.ok root', session') ∧ Intact root' session' := by
  cases pass with
  | pattern =>
    obtain ⟨root', nextId, s, hshape, hrun, hids, -⟩ := Pattern.run_visits h.ids
    have hshaped := Desugar.inShape_of_shapes (.of_run hshape)
    exact ⟨root', s.session, hrun, hshaped.tag.trans h.tag, hids⟩
  | simplify =>
    refine ⟨_, _, rfl, Simplify.Becomes.module (.of_run rfl) h.tag, ?_⟩
    exact (Simplify.draws_simplify root).distinct h.ids
  | scope =>
    obtain ⟨session', hrun, hspares⟩ := Scope.run_spares options h.tag session
    exact ⟨root, session', hrun, h.tag, hspares.nextId ▸ h.ids⟩

theorem runFrom_intact (options : Options) (passes : List Pass) (h : Intact root session) :
    ∃ root' session', runFrom options passes root session = .ok (root', session') ∧ Intact root' session' := by
  induction passes generalizing root session with
  | nil => exact ⟨root, session, rfl, h⟩
  | cons pass passes ih =>
    obtain ⟨root₁, session₁, hrun, h₁⟩ := pass.run_intact options h
    obtain ⟨root₂, session₂, hrest, h₂⟩ := ih h₁
    refine ⟨root₂, session₂, ?_, h₂⟩
    rw [runFrom, hrun]
    exact hrest

theorem Tree.intact (root : Node) : Intact (Tree.ofRoot root).root (.startingAt (Tree.ofRoot root).nextId) :=
  ⟨Tree.tag_root root, (Tree.distinct_ids root).startingAt⟩

theorem runPasses_intact {t : Tree} (ht : t.Built) (options : Options) (passes : List Pass) :
    ∃ tree session, runPasses options passes t = .ok (tree, session) ∧
      Intact tree.root session ∧ tree.nextId = session.nextId := by
  obtain ⟨root, rfl⟩ := ht.exists_root
  obtain ⟨root', session, hrun, h⟩ := runFrom_intact options passes (Tree.intact root)
  refine ⟨{ root := root', nextId := session.nextId }, session, ?_, h, rfl⟩
  rw [runPasses, hrun]
  rfl

/-- Ids tell the nodes of a tree apart after any passes: no two are the same, none is zero, and all
    are below the next free one, on which the tree and the session agree. -/
theorem runPasses_keeps_identity {t : Tree} (ht : t.Built) (options : Options) (passes : List Pass) :
    ∃ tree session, runPasses options passes t = .ok (tree, session) ∧
      tree.root.ids.Nodup ∧ 0 ∉ tree.root.ids ∧ (∀ id ∈ tree.root.ids, id < tree.nextId) ∧
      tree.nextId = session.nextId := by
  obtain ⟨tree, session, hrun, h, hnext⟩ := runPasses_intact ht options passes
  refine ⟨tree, session, hrun, h.ids.nodup, fun hzero => ?_, fun id hid => ?_, hnext⟩
  · exact Nat.lt_irrefl 0 (h.ids.pos 0 hzero)
  · exact hnext ▸ h.ids.lt id hid

/-- A function with a pattern for a parameter, a match whose first alternative is no pattern, a
    conjunction of negations, and an exported declaration: every pass has nodes to make, to move and
    to drop. -/
def busyBody : List Node :=
  let name (s : String) : Node := .ofKind (.ident s)
  let text (s : String) : Node := .ofKind (.literal (.string s))
  let negation (n : Node) : Node := .ofKind (.unary .not n)
  let positive : Node := .ofKind (.pattern (.ofKind (.binary .gt (.ofKind .context) (text "0"))))
  [.ofKind (.function "f" [.ofKind (.param "x" (some positive) false)] none
      [.ofKind (.ret (.ofKind (.conj (negation (name "x")) (negation (name "x")))))]),
    .ofKind (.exprStmt (.ofKind (.choose (.ofKind (.call (name "f") [text "1"]))
      [.ofKind (.clause [text "2", positive] [])] []))),
    .ofKind (.exported (some (.ofKind (.assign (.name "y") (negation (negation (name "f")))))) [])]

theorem runPasses_keeps_identity_busy : (Tree.ofBody busyBody).Built ∧
      ∃ tree session, runPasses {} [.simplify, .pattern, .scope, .pattern, .simplify]
          (.ofBody busyBody) = .ok (tree, session) ∧
        tree.root.ids.Nodup ∧ 0 ∉ tree.root.ids ∧ (∀ id ∈ tree.root.ids, id < tree.nextId) ∧
        tree.nextId = session.nextId :=
  ⟨.body busyBody, runPasses_keeps_identity (.body busyBody) {} _⟩

end Motif
