import Motif.Proofs.Pattern.New

/-!
# Clauses in shape

In a tree in shape the alternatives of every clause are patterns, whatever the tree was like before.
-/

namespace Motif.Desugar

/-- The alternatives of a clause are patterns. -/
def Wrapped (n : Node) : Prop :=
  match n.kind with
  | .clause patterns _ => ∀ p ∈ patterns, p.tag = .pattern
  | _ => True

theorem wrapped_of_tag {n : Node} (htag : n.tag ≠ .clause) : Wrapped n := by
  obtain ⟨i, s, k⟩ := n
  cases k with
  | clause => exact absurd rfl htag
  | _ => trivial

abbrev WrappedIn (n : Node) : Prop := n.Everywhere Wrapped

structure InShape (n n' : Node) : Prop where
  tag : n'.tag = n.tag
  wrapped : WrappedIn n'

theorem wrapped_new (n : Node) (h : n.tag ∈ newTags) : Wrapped n := by
  refine wrapped_of_tag fun hclause => ?_
  rw [hclause] at h
  exact absurd h (by decide)

theorem Wraps.tag_eq {p p' : Node} (h : Wraps InShape p p') : p'.tag = .pattern := by
  cases h with
  | already htag h => exact h.tag.trans htag
  | around => rfl

theorem inShape_of_layer {n n' : Node} (h : Layer InShape (fun _ m => WrappedIn m) n n') : InShape n n' := by
  have htag : n'.tag = n.tag := h.tag_eq fun _ _ hc => hc.tag
  refine ⟨htag, everywhere_of_layer (fun _ _ hc => hc.wrapped) wrapped_new
    (fun _ _ _ _ _ _ => trivial) (fun _ _ hc => hc) h ?_⟩
  cases h with
  | clause hpatterns hbody => exact forall_right hpatterns fun _ _ => Wraps.tag_eq
  | @same _ _ k _ hsame _ =>
    refine wrapped_of_tag fun hclause => hsame ?_
    have hk : k.tag = .clause := htag.symm.trans hclause
    rw [hk]
    decide
  | inner => exact wrapped_of_tag (by rw [htag]; simp [Kind.tag])
  | function | pattern | element => trivial

theorem inShape_of_shapes {n n' : Node} (h : Shapes n n') : InShape n n' :=
  (layer_induct (fun _ _ _ => inShape_of_layer) (fun _ _ _ _ hexpr => hexpr)
    (fun _ _ _ hshape => hshape.wrapped) n).1 n' h

end Motif.Desugar
