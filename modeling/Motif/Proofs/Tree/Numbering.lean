import Motif.Proofs.Tree.Layer

/-!
# Numbered trees

The nodes of a numbered tree have the numbers from one on as ids, in source order. So no two nodes
have the same id, and numbering the tree again changes nothing.
-/

namespace Motif

open List

namespace Kind

section Children

variable {α β : Type} {m : Type → Type} [Monad m] [LawfulMonad m] (f : α → m β)

theorem traverseList_append (xs ys : List α) :
    traverseList f (xs ++ ys) = (do
      let xs' ← traverseList f xs
      let ys' ← traverseList f ys
      pure (xs' ++ ys')) := by
  induction xs with
  | nil => simp [traverseList]
  | cons x xs ih => simp [traverseList, ih]

theorem traverseList_toList (x : Option α) :
    traverseList f x.toList = Option.toList <$> traverseOption f x := by
  cases x <;> simp [traverseList, traverseOption]

theorem children_traverse (k : Kind α) : children <$> k.traverse f pure = traverseList f k.children := by
  cases k <;>
    simp [traverse, children, traverseList, traverseList_append, traverseList_toList]

end Children

theorem map_eq_of_traverse {σ α ι : Type} {step : α → StateM σ α} {f : α → ι} {k k' : Kind α}
    (h : Yields (k.traverse step pure) k')
    (hstep : ∀ c ∈ k.children, ∀ c', Yields (step c) c' → f c = f c') : k.map f = k'.map f := by
  have hbody (cs : List α) (hcs : ∀ c ∈ cs, c ∈ k.children) (cs' : List α)
      (h : BodyYields step pure cs cs') : cs.map f = cs'.map f := by
    obtain ⟨mid, hmid, h⟩ := h
    rw [h.pure_eq]
    have hall := forall₂_imp_mem hmid fun c hc => hstep c (hcs c hc)
    rwa [← forall₂_eq_eq_eq, forall₂_map_left_iff, forall₂_map_right_iff]
  exact ((traverse_rel h).imp hstep (fun c hc => hstep c (mem_children_of_mem_keys hc)) hbody).map_eq

end Kind

namespace Node

variable {ns : List Node}

structure Numbered (first last : Nat) (ns : List Node) : Prop where
  le : first ≤ last
  ids : (ns.flatMap preorder).map id = List.range' (first + 1) (last - first)

theorem Numbered.nodup {first last : Nat} (h : Numbered first last ns) :
    ((ns.flatMap preorder).map id).Nodup := by
  rw [h.ids]
  exact nodup_range'

theorem Numbered.cons {first mid last : Nat} {n : Node} (hn : Numbered first mid [n])
    (hns : Numbered mid last ns) : Numbered first last (n :: ns) where
  le := Nat.le_trans hn.le hns.le
  ids := by
    have hids := hn.ids
    rw [flatMap_singleton] at hids
    rw [flatMap_cons, map_append, hids, hns.ids]
    have hmid : mid + 1 = first + 1 + 1 * (mid - first) := by
      have := hn.le
      omega
    rw [hmid, range'_append]
    congr 1
    have := hn.le
    have := hns.le
    omega

theorem numbered_traverse {f : Node → StateM Nat Node}
    (h : ∀ n ∈ ns, ∀ s, Numbered s ((f n).run s).2 [((f n).run s).1]) (s : Nat) :
    Numbered s ((Kind.traverseList f ns).run s).2 ((Kind.traverseList f ns).run s).1 := by
  induction ns generalizing s with
  | nil =>
    refine ⟨Nat.le_refl s, ?_⟩
    show [] = List.range' (s + 1) (s - s)
    rw [Nat.sub_self]
    rfl
  | cons n ns ih => exact (h n mem_cons_self s).cons (ih (fun m hm => h m (mem_cons_of_mem _ hm)) _)

theorem numbered_renumber (n : Node) (s : Nat) : Numbered s (n.renumber.run s).2 [(n.renumber.run s).1] := by
  induction n using Node.ind generalizing s with
  | step n ih =>
    have hchildren := numbered_traverse ih (s + 1)
    rw [Node.children, ← Kind.children_traverse] at hchildren
    have hrun : n.renumber.run s =
        (⟨s + 1, n.span, ((n.kind.traverse renumber pure).run (s + 1)).1⟩,
          ((n.kind.traverse renumber pure).run (s + 1)).2) := by
      rw [renumber, fold_eq, Kind.traverse_map]
      rfl
    rw [hrun]
    have hle : s + 1 ≤ ((n.kind.traverse renumber pure).run (s + 1)).2 := hchildren.le
    refine ⟨Nat.le_of_succ_le hle, ?_⟩
    rw [flatMap_singleton, preorder_eq, map_cons]
    refine (congrArg ((s + 1) :: ·) hchildren.ids).trans ?_
    have hcount (last : Nat) (h : s + 1 ≤ last) : last - s = last - (s + 1) + 1 := by omega
    rw [hcount _ hle, range'_succ]
    rfl

theorem renumber_eq (n : Node) :
    n.renumber = do
      let id ← nextNumber
      let kind ← (n.kind.map renumber).traverse (fun child : StateM Nat Node => child) pure
      return { id, span := n.span, kind } :=
  fold_eq _ n

theorem fold_of_yields {β : Type} {f : Node → Kind β → β} (hf : ∀ m n k, m.span = n.span → f m k = f n k)
    {n n' : Node} (h : Yields n.renumber n') : fold f n' = fold f n := by
  induction n using Node.ind generalizing n' with
  | step n ih =>
    rw [renumber_eq] at h
    obtain ⟨id, -, h⟩ := h.bind
    obtain ⟨kind, hkind, rfl⟩ := h.bind_pure
    rw [Kind.traverse_map] at hkind
    rw [fold_eq, fold_eq f n, Kind.map_eq_of_traverse hkind fun c hc c' h => (ih c hc h).symm]
    exact hf _ n _ rfl

end Node

namespace Tree

theorem nodup_ids (root : Node) : ((Tree.ofRoot root).root.preorder.map Node.id).Nodup := by
  have h (n : Node) : ((n.renumber.run 0).1.preorder.map Node.id).Nodup := by
    have hnodup := (Node.numbered_renumber n 0).nodup
    rwa [flatMap_singleton] at hnodup
  exact h _

theorem tag_root (root : Node) : (Tree.ofRoot root).root.tag = .module := by
  have hrenumber (n : Node) : (n.renumber.run 0).1.tag = n.tag := by
    rw [Node.renumber, Node.fold_eq, Kind.traverse_map]
    exact (Kind.traverse_rel (.of_run rfl)).tag_eq
  refine (hrenumber _).trans ?_
  obtain ⟨i, span, k⟩ := root
  cases k <;> rfl

theorem ofRoot_root (root : Node) : ofRoot (ofRoot root).root = ofRoot root := by
  have hmodule (n : Node) (h : n.tag = .module) :
      ofRoot n = { root := (n.renumber.run 0).1, nextId := (n.renumber.run 0).2 + 1 } := by
    obtain ⟨i, span, k⟩ := n
    cases k <;> cases h
    rfl
  obtain ⟨m, hm⟩ : ∃ m : Node,
      ofRoot root = { root := (m.renumber.run 0).1, nextId := (m.renumber.run 0).2 + 1 } :=
    ⟨_, rfl⟩
  have hagain : (ofRoot root).root.renumber = m.renumber := by
    rw [hm]
    exact Node.fold_of_yields (fun _ _ _ hspan => by rw [hspan]) (.of_run rfl)
  rw [hmodule _ (tag_root root), hagain, hm]

end Tree

end Motif
