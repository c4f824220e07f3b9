import Motif.Proofs.Simplify.Core
import Motif.Proofs.Tree.Identity

/-!
# Ids under simplification

A simplified tree uses every id of the tree at most once: what takes the place of a node keeps its id
or that of one of its parts, and only the node inside the negation of a conjunction or disjunction has
an id that was drawn for it.
-/

namespace Motif.Simplify

open scoped List
open Node (idsOf ids_mk)

/-! ## Rewrites -/

theorem count_ids_stripNots (n : Node) (id : Nat) : (stripNots n).1.ids.count id ≤ n.ids.count id := by
  fun_induction stripNots n with
  | case1 i s x inner odd heq ih =>
    rw [heq] at ih
    grind [Kind.children]
  | case2 => exact Nat.le_refl _

theorem count_ids_negated {n a : Node} (h : negated? n = some a) (id : Nat) :
    a.ids.count id ≤ n.ids.count id := by
  obtain ⟨i, s, k⟩ := n
  unfold negated? at h
  split at h
  · rename_i hk
    cases h
    dsimp only at hk
    subst hk
    grind [Kind.children]
  · cases h

theorem Rewrite.count_ids {n n' : Node} (h : Rewrite n n') (htag : n.tag ∉ [Tag.conj, .disj])
    (id : Nat) : n'.ids.count id ≤ n.ids.count id := by
  cases h with
  | keep => exact Nat.le_refl _
  | unaryLiteral | binaryLiteral | array | object => grind [Kind.children]
  | @invert i s x op op' l r hx =>
    obtain ⟨j, t, k⟩ := x
    dsimp only at hx
    subst hx
    grind [Kind.children]
  | conjLiteral | conjNegations | disjLiteral | disjNegations =>
    exact absurd htag (by simp [Kind.tag])
  | condLiteral => split <;> grind [Kind.children]
  | @cond i s c | @branch i s c =>
    have hc := count_ids_stripNots c id
    cases (stripNots c).2 <;> grind [Kind.children]
  | fuse | returnReduction => grind [Kind.children]

theorem draws_negationOf {i : Nat} {s : Span} {k inner : Kind Node} {given : List Nat}
    (h : ∀ id, (i :: idsOf inner.children).count id ≤ given.count id) :
    Draws given (negationOf ⟨i, s, k⟩ inner) Node.ids := by
  refine Draws.freshId.bind (i :: idsOf inner.children) h fun j => .pure ?_
  grind [Kind.children]

theorem draws_step (n : Node) : Draws n.ids (step n) Node.ids := by
  have hpure {n' : Node} (h : Rewrite n n') (htag : n.tag ∉ [Tag.conj, .disj]) :
      Draws n.ids (pure n') Node.ids := .pure (h.count_ids htag)
  obtain ⟨i, s, k⟩ := n
  cases k with
  | conj l r | disj l r =>
    simp only [step, conj, disj]
    split
    · refine .pure fun id => ?_
      split <;> grind [Kind.children]
    · split
      · rename_i a b hl hr
        refine draws_negationOf fun id => ?_
        have ha := count_ids_negated hl id
        have hb := count_ids_negated hr id
        grind [Kind.children]
      · exact .pure (by grind)
  | unary op x => exact hpure (rewrite_unary op x) (by simp [Kind.tag])
  | binary op l r => exact hpure (rewrite_binary op l r) (by simp [Kind.tag])
  | cond c x y => exact hpure (rewrite_cond c x y) (by simp [Kind.tag])
  | branch c t f => exact hpure (rewrite_branch c t f) (by simp [Kind.tag])
  | array es => exact hpure (rewrite_array es) (by simp [Kind.tag])
  | object es => exact hpure (rewrite_object es) (by simp [Kind.tag])
  | loop rs b f => exact hpure (rewrite_fuse rs b f) (by simp [Kind.tag])
  | function name ps g b => exact hpure (rewrite_returnReduction name ps g b) (by simp [Kind.tag])
  | _ => exact .pure (by grind)

/-! ## Statement lists -/

theorem count_ids_flatMap {f : Node → List Node} {id : Nat}
    (h : ∀ n, (idsOf (f n)).count id ≤ n.ids.count id) (ns : List Node) :
    (idsOf (ns.flatMap f)).count id ≤ (idsOf ns).count id := by
  induction ns with
  | nil => exact Nat.le_refl _
  | cons n ns ih =>
    have hn := h n
    grind

theorem count_ids_takenBody (n : Node) (id : Nat) : (idsOf (takenBody n)).count id ≤ n.ids.count id := by
  obtain ⟨i, s, k⟩ := n
  unfold takenBody
  split
  · rename_i hk
    dsimp only at hk
    subst hk
    split
    · split <;> grind [Kind.children]
    · grind
  · grind

theorem count_ids_splitExport (n : Node) (id : Nat) : (idsOf (splitExport n)).count id ≤ n.ids.count id := by
  obtain ⟨i, s, k⟩ := n
  unfold splitExport
  split
  · rename_i hk
    dsimp only at hk
    subst hk
    grind [Kind.children]
  · grind

theorem idsOf_statements (body : List Node) : idsOf (statements body) <+~ idsOf body := by
  refine subperm_of_count fun id => ?_
  exact Nat.le_trans (count_ids_flatMap (fun n => count_ids_splitExport n id) _)
    (count_ids_flatMap (fun n => count_ids_takenBody n id) body)

/-! ## Whole trees -/

theorem draws_simplify (n : Node) : Draws n.ids (simplify n) Node.ids := by
  induction n using Node.ind with
  | step n ih =>
    have hkind : Draws (idsOf n.kind.children)
        (Kind.mapBodies statements <$> n.kind.traverse simplify pure)
        fun k => idsOf k.children := by
      rw [map_eq_pure_bind]
      refine (draws_traverse ih).bind [] (by grind) fun k => .pure fun id => ?_
      rw [List.append_nil]
      exact (Kind.idsOf_mapBodies idsOf_statements k).count_le id
    rw [simplify_eq, Kind.traverse_bodies, Node.ids_eq, Node.children]
    refine hkind.bind [n.id] (by grind) fun k => (draws_step _).mono ?_
    grind

end Motif.Simplify
