import Motif.Eval.Basic
import Motif.Proofs.Scope.Trail

/-!
# Visible names

Names become visible to a node by the statements before it and by the functions and ranges around it.
-/

namespace Motif.Scope

open List

abbrev Names := String → Prop

def Names.add (names : Names) (more : List String) : Names := fun x => x ∈ more ∨ names x

theorem Names.of_add_nil {names : Names} {x : String} (h : names.add [] x) : names x :=
  h.resolve_left not_mem_nil

theorem Names.of_add_append {names : Names} {xs ys : List String} {x : String}
    (h : names.add (xs ++ ys) x) : (names.add xs).add ys x := by
  rcases h with h | h
  · rcases mem_append.mp h with h | h
    · exact .inr (.inl h)
    · exact .inl h
  · exact .inr (.inr h)

def introduces (n : Node) : List String :=
  match n.kind with
  | .exported (some d) _ => d.declaredNames
  | .range target _ _ => target.names
  | _ => n.declaredNames

theorem introduces_eq_declaredNames {n : Node} (h : n.tag ∉ [Tag.exported, .range]) :
    introduces n = n.declaredNames := by
  obtain ⟨i, span, k⟩ := n
  cases k with
  | exported | range => exact absurd (of_decide_eq_true rfl) h
  | _ => rfl

theorem introduces_declare {i : Nat} {span : Span} {assignments : List Node}
    (htags : ∀ a ∈ assignments, a.tag = .assign) :
    introduces ⟨i, span, .declare assignments⟩ = assignments.flatMap introduces := by
  show Node.declaredNames ⟨i, span, .declare assignments⟩ = _
  rw [Node.declaredNames]
  induction assignments with
  | nil => rw [Node.declaredNamesOf, flatMap_nil]
  | cons a assignments ih =>
    obtain ⟨ha, htags⟩ := forall_mem_cons.mp htags
    rw [Node.declaredNamesOf, flatMap_cons, ih htags, introduces_eq_declaredNames]
    rw [ha]
    decide

def Names.inside (names : Names) (code : Eval.Code) : Names :=
  names.add (code.name.toList ++ paramNames code.params)

def idleTags : List Tag :=
  [.module, .range, .param, .importAll, .importFrom, .clause, .doBlock, .generator, .await, .emit]

end Motif.Scope
