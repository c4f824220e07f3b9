import Motif.Proofs.Pattern.Layers

/-!
# What new nodes do not disturb

The nodes that are made where a tree is brought into shape are of a few kinds. Whatever holds of all
nodes of these kinds is passed on by every layer from below.
-/

namespace Motif.Desugar

open List

variable {S T R : Node → Node → Prop} {n n' : Node} {P : Node → Prop}

theorem Layer.tag_eq (h : Layer S T n n') (hS : ∀ c c', S c c' → c'.tag = c.tag) : n'.tag = n.tag := by
  cases h with
  | same htag h => exact h.tag_eq
  | inner htag h => exact (hS _ _ h).trans htag
  | function | clause | pattern | element => rfl

theorem forall_right {ns ns' : List Node} (h : Forall₂ R ns ns') (hR : ∀ m m', R m m' → P m') :
    ∀ n' ∈ ns', P n' := by
  intro n' hn'
  obtain ⟨n, -, hn⟩ := Kind.exists_of_mem_right h hn'
  exact hR n n' hn

/-- The kinds of the nodes that are made where a tree is brought into shape, but for patterns. -/
def newTags : List Tag := [.call, .ident, .conj, .param]

section New

variable (hS : ∀ c c', S c c' → c'.Everywhere P) (hnew : ∀ m : Node, m.tag ∈ newTags → P m)
  (hwrap : ∀ i span c c', c.tag ≠ .pattern → S c c' → P ⟨i, span, .pattern c'⟩)

include hS

theorem everywhere_forall₂ {ns ns' : List Node} (h : Forall₂ S ns ns') : ∀ n' ∈ ns', n'.Everywhere P :=
  forall_right h hS

include hnew in
theorem everywhere_unpatterned {p q : Node} (h : Unpatterned S p q) : q.Everywhere P := by
  cases h with
  | plain h =>
    obtain ⟨i, span, name, template, variadic, rfl, rfl⟩ := plainParam_eq_some h
    exact .mk (hnew _ (of_decide_eq_true rfl)) (forall_mem_nil _)
  | other hnone h => exact hS _ _ h

include hwrap

theorem everywhere_wraps {t t' : Node} (h : Wraps S t t') : t'.Everywhere P := by
  cases h with
  | already htag h => exact hS _ _ h
  | around htag h => exact .mk (hwrap _ _ _ _ htag h) (forall_mem_singleton.mpr (hS _ _ h))

include hnew

theorem everywhere_test {p term : Node} (h : IsTest S p term) : term.Everywhere P := by
  cases h with
  | mk h =>
    refine .mk (hnew _ (of_decide_eq_true rfl)) (forall_mem_cons.mpr ⟨everywhere_wraps hS hwrap h, ?_⟩)
    exact forall_mem_singleton.mpr (.mk (hnew _ (of_decide_eq_true rfl)) (forall_mem_nil _))

theorem everywhere_of_layer (hT : ∀ c c', T c c' → c'.Everywhere P) (h : Layer S T n n')
    (hroot : P n') : n'.Everywhere P := by
  cases h with
  | same htag h => exact .mk hroot (everywhere_forall₂ hS h.forall₂_children)
  | @function _ _ _ _ _ _ _ _ _ tests explicit hparams htests hexplicit hjoins hbody =>
    have htests := forall_right htests fun _ _ => everywhere_test hS hnew hwrap
    have hterms := forall_mem_append.mpr
      ⟨forall_mem_map.mp htests, forall_mem_map.mp (everywhere_forall₂ hS hexplicit)⟩
    refine .mk hroot (forall_mem_append.mpr ⟨forall_mem_append.mpr ⟨?_, ?_⟩, ?_⟩)
    · exact forall_right hparams fun _ _ => everywhere_unpatterned hS hnew
    · exact everywhere_guardOf (fun m hm => hnew m (hm ▸ of_decide_eq_true rfl)) hterms
    · exact everywhere_forall₂ hS hbody
  | clause hpatterns hbody =>
    refine .mk hroot (forall_mem_append.mpr ⟨?_, everywhere_forall₂ hS hbody⟩)
    exact forall_right hpatterns fun _ _ => everywhere_wraps hS hwrap
  | pattern htag h => exact .mk hroot (forall_mem_singleton.mpr (hS _ _ h))
  | inner htag h => exact hS _ _ h
  | element hkey hvalue =>
    refine .mk hroot (forall_mem_append.mpr ⟨?_, forall_mem_singleton.mpr (hT _ _ hvalue)⟩)
    cases hkey with
    | none => exact forall_mem_nil _
    | some hkey => exact forall_mem_singleton.mpr (hS _ _ hkey)

end New

end Motif.Desugar
