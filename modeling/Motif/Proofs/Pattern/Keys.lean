import Motif.Proofs.Pattern.New

/-!
# Keys of elements in shape

Where a tree is brought into shape the new nodes are patterns, tests of parameters and conjunctions of
them, so there are no new context references and no new elements. If there is no context reference in the
key of any element of a tree, there is none in the tree in shape either.
-/

namespace Motif.Desugar

open List

variable {n n' : Node}

/-! ## What is passed on -/

def Transfers (P : Node → Prop) (n n' : Node) : Prop := n.Everywhere P → n'.Everywhere P

theorem transfers_of_layer {P : Node → Prop} (hnew : ∀ m : Node, m.tag ∈ .pattern :: newTags → P m)
    (h : Layer (Transfers P) (Transfers P) n n') (hroot : P n → P n') : Transfers P n n' := by
  intro hn
  refine everywhere_of_layer (S := fun _ m => m.Everywhere P) (T := fun _ m => m.Everywhere P)
    (fun _ _ h => h) (fun m hm => hnew m (mem_cons_of_mem _ hm))
    (fun _ _ _ _ _ _ => hnew _ mem_cons_self) (fun _ _ h => h) (h.imp ?_ ?_ ?_) (hroot hn.here)
  · exact fun c hc c' htransfers => htransfers (hn.child hc)
  · exact fun c hc d hd d' htransfers => htransfers ((hn.child hc).child hd)
  · exact fun c hc c' htransfers => htransfers (hn.child hc)

/-! ## Keys -/

/-- No context reference stands in the key of an element. -/
def KeyClosed (n : Node) : Prop :=
  match n.kind with
  | .element key _ => ∀ k ∈ key.toList, k.Everywhere fun m => m.tag ≠ .context
  | _ => True

theorem keyClosed_of_tag (h : n.tag ≠ .element) : KeyClosed n := by
  obtain ⟨i, span, k⟩ := n
  cases k with
  | element => exact absurd rfl h
  | _ => trivial

theorem keyClosed_iff (n : Node) :
    (n.tag = .element → ∀ k ∈ n.kind.keys, k.Everywhere fun m => m.tag ≠ .context) ↔ KeyClosed n := by
  by_cases htag : n.tag = .element
  · obtain ⟨i, span, k⟩ := n
    cases k with
    | element key value => exact ⟨fun h => h rfl, fun h _ => h⟩
    | _ => cases htag
  · exact ⟨fun _ => keyClosed_of_tag htag, fun _ h => absurd h htag⟩

instance : DecidablePred KeyClosed := fun n => decidable_of_iff _ (keyClosed_iff n)

structure Rekeyed (n n' : Node) : Prop where
  contexts : Transfers (fun m => m.tag ≠ .context) n n'
  keys : Transfers KeyClosed n n'

theorem rekeyed_of_layer (h : Layer (fun m m' => m'.tag = m.tag ∧ Rekeyed m m') Rekeyed n n') :
    n'.tag = n.tag ∧ Rekeyed n n' := by
  have htag : n'.tag = n.tag := h.tag_eq fun _ _ hc => hc.1
  refine ⟨htag, ?_, ?_⟩
  · have hnew (m : Node) (hm : m.tag ∈ .pattern :: newTags) : m.tag ≠ .context := by
      rintro hcontext
      rw [hcontext] at hm
      exact absurd hm (by decide)
    have hbelow := h.imp (fun _ _ _ hc => hc.2.contexts) (fun _ _ _ _ _ hc => hc.2.contexts)
      (fun _ _ _ hc => hc.contexts)
    exact transfers_of_layer hnew hbelow fun hn => htag ▸ hn
  · have hnew (m : Node) (hm : m.tag ∈ .pattern :: newTags) : KeyClosed m := by
      refine keyClosed_of_tag fun helement => ?_
      rw [helement] at hm
      exact absurd hm (by decide)
    have hbelow := h.imp (fun _ _ _ hc => hc.2.keys) (fun _ _ _ _ _ hc => hc.2.keys)
      (fun _ _ _ hc => hc.keys)
    refine transfers_of_layer hnew hbelow fun hn => ?_
    cases h with
    | element hkey hvalue =>
      cases hkey with
      | none => exact forall_mem_nil _
      | some hkey => exact forall_mem_singleton.mpr (hkey.2.contexts (hn _ mem_cons_self))
    | @same _ _ k _ hsame _ =>
      refine keyClosed_of_tag fun helement => hsame ?_
      have hk : k.tag = .element := htag.symm.trans helement
      rw [hk]
      decide
    | inner => exact keyClosed_of_tag (by rw [htag]; simp [Kind.tag])
    | function | clause | pattern => trivial

theorem rekeyed_of_shapes (h : Shapes n n') : Rekeyed n n' := by
  have hpeel (i : Nat) (span : Span) (expr m : Node) (hexpr : Rekeyed expr m) :
      Rekeyed ⟨i, span, .pattern expr⟩ m :=
    ⟨fun hn => hexpr.contexts (hn.child mem_cons_self),
      fun hn => hexpr.keys (hn.child mem_cons_self)⟩
  exact ((layer_induct (fun _ _ _ => rekeyed_of_layer) hpeel (fun _ _ _ hshape => hshape.2) n).1 n' h).2

end Motif.Desugar
