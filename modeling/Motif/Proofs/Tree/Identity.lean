import Mathlib.Data.List.Nodup
import Mathlib.Data.List.Perm.Subperm
import Motif.Pass.Desugar
import Motif.Proofs.Tree.Numbering
import Motif.Session

/-!
# Ids, accounted for

A computation that draws fresh ids is given trees and makes trees of them. `Draws` keeps the account:
every id in what is made is one of those given or one that was drawn, and is used no more often than
that. Accounts add up along a computation (`Draws.bind`), so what starts with distinct ids ends with
distinct ids.
-/

namespace Motif

open List

theorem subperm_of_count {xs ys : List Nat} (h : ∀ id, xs.count id ≤ ys.count id) : xs <+~ ys :=
  subperm_ext_iff.mpr fun id _ => h id

namespace Node

def ids (n : Node) : List Nat := n.preorder.map id

def idsOf (ns : List Node) : List Nat := ns.flatMap ids

theorem ids_eq (n : Node) : n.ids = n.id :: idsOf n.children := by
  unfold ids idsOf
  rw [preorder_eq, map_cons, map_flatMap]
  rfl

@[grind =]
theorem ids_mk (i : Nat) (span : Span) (k : Kind Node) : ids ⟨i, span, k⟩ = i :: idsOf k.children := ids_eq _

@[simp, grind =]
theorem idsOf_nil : idsOf [] = [] := rfl

@[simp, grind =]
theorem idsOf_cons (n : Node) (ns : List Node) : idsOf (n :: ns) = n.ids ++ idsOf ns := rfl

@[simp, grind =]
theorem idsOf_append (ms ns : List Node) : idsOf (ms ++ ns) = idsOf ms ++ idsOf ns := flatMap_append

theorem id_mem (n : Node) : n.id ∈ n.ids := by
  rw [ids_eq]
  exact mem_cons_self

theorem id_mem_of_child {n c : Node} (h : c ∈ n.children) : c.id ∈ n.ids := by
  rw [ids_eq]
  exact mem_cons_of_mem _ (mem_flatMap.mpr ⟨c, h, c.id_mem⟩)

end Node

namespace Kind

/-! ## Bodies -/

def mapBodies {α : Type} (f : List α → List α) : Kind α → Kind α
  | .module body => .module (f body)
  | .branch condition thenBody elseBody => .branch condition (f thenBody) (f elseBody)
  | .loop ranges body elseBody => .loop ranges (f body) (f elseBody)
  | .function name params guard body => .function name params guard (f body)
  | .reduce accumulators ranges body => .reduce accumulators ranges (f body)
  | .choose value clauses elseBody => .choose value clauses (f elseBody)
  | .clause patterns body => .clause patterns (f body)
  | .doBlock body => .doBlock (f body)
  | .generator body => .generator (f body)
  | k => k

theorem traverse_bodies {α β : Type} {m : Type → Type} [Monad m] [LawfulMonad m] (f : α → m β)
    (g : List β → List β) (k : Kind α) :
    k.traverse f (fun body => pure (g body)) = mapBodies g <$> k.traverse f pure := by
  cases k <;> simp [traverse, mapBodies]

theorem idsOf_mapBodies {f : List Node → List Node} (h : ∀ ns, Node.idsOf (f ns) <+~ Node.idsOf ns)
    (k : Kind Node) : Node.idsOf (k.mapBodies f).children <+~ Node.idsOf k.children := by
  refine subperm_of_count fun id => ?_
  have hcount (ns : List Node) := (h ns).count_le id
  cases k with
  | module | doBlock | generator => exact hcount _
  | branch condition thenBody elseBody =>
    have := hcount thenBody
    have := hcount elseBody
    simp only [mapBodies, children, cons_append, Node.idsOf_cons, Node.idsOf_append,
      count_append]
    omega
  | loop ranges body elseBody =>
    have := hcount body
    have := hcount elseBody
    simp only [mapBodies, children, Node.idsOf_append, count_append]
    omega
  | function _ _ _ body | reduce _ _ body | clause _ body =>
    have := hcount body
    simp only [mapBodies, children, Node.idsOf_append, count_append]
    omega
  | choose value clauses elseBody =>
    have := hcount elseBody
    simp only [mapBodies, children, cons_append, Node.idsOf_cons, Node.idsOf_append,
      count_append]
    omega
  | _ => exact Nat.le_refl _

end Kind

/-! ## Drawing ids -/

/-- The ids that are drawn while the next free one goes from `first` to `last`. -/
def drawn (first last : Nat) : List Nat := List.range' first (last - first)

theorem drawn_append {first mid last : Nat} (h : first ≤ mid) (h' : mid ≤ last) :
    drawn first mid ++ drawn mid last = drawn first last := by
  have hlength : last - first = mid - first + (last - mid) := by omega
  have hmid : first + 1 * (mid - first) = mid := by omega
  unfold drawn
  rw [hlength, ← range'_append, hmid]

theorem mem_drawn {first last id : Nat} : id ∈ drawn first last ↔ first ≤ id ∧ id < last := by
  unfold drawn
  rw [mem_range'_1]
  omega

/-- What a computation makes uses the ids that it is given and those that it draws, each once. -/
structure Draws {α : Type} (given : List Nat) (x : Fresh α) (used : α → List Nat) : Prop where
  le : ∀ s, s ≤ (x.run s).2
  used : ∀ s, used (x.run s).1 <+~ given ++ drawn s (x.run s).2

namespace Draws

variable {α β : Type} {given given' : List Nat} {used : β → List Nat}

theorem pure {a : α} {used : α → List Nat}
    (h : ∀ id, (used a).count id ≤ given.count id) : Draws given (Pure.pure a) used where
  le s := Nat.le_refl s
  used _ := (subperm_of_count h).trans (sublist_append_left given _).subperm

/-- The first step is given part of the ids; what it makes goes to the rest, with those that were
    left. -/
theorem bind {x : Fresh α} {f : α → Fresh β} {used₁ : α → List Nat} (hx : Draws given' x used₁)
    (left : List Nat) (hgiven : ∀ id, (given' ++ left).count id ≤ given.count id)
    (hf : ∀ a, Draws (used₁ a ++ left) (f a) used) : Draws given (x >>= f) used where
  le s := Nat.le_trans (hx.le s) ((hf _).le _)
  used s := by
    show used ((f (x.run s).1).run (x.run s).2).1 <+~ _ ++ drawn s ((f (x.run s).1).run (x.run s).2).2
    rw [← drawn_append (hx.le s) ((hf (x.run s).1).le (x.run s).2)]
    refine ((hf (x.run s).1).used (x.run s).2).trans (subperm_of_count fun id => ?_)
    have hgiven := hgiven id
    have hfirst := (hx.used s).count_le id
    simp only [count_append] at hgiven hfirst ⊢
    omega

theorem mono {x : Fresh α} {used : α → List Nat} (hx : Draws given x used)
    (hgiven : ∀ id, given.count id ≤ given'.count id) : Draws given' x used where
  le := hx.le
  used s := (hx.used s).trans ((subperm_of_count hgiven).append (.refl _))

theorem freshId : Draws [] freshId fun id => [id] where
  le s := Nat.le_succ s
  used s := by
    show [s] <+~ [] ++ List.range' s (s + 1 - s)
    rw [Nat.add_sub_cancel_left]
    exact .refl _

theorem of_map {x : Fresh α} {g : α → β} (h : Draws given (g <$> x) used) :
    Draws given x fun a => used (g a) := ⟨h.le, h.used⟩

theorem map {x : Fresh α} {g : α → β} {used' : α → List Nat} (h : Draws given x used')
    (hused : ∀ a id, (used (g a)).count id ≤ (used' a).count id) : Draws given (do return g (← x)) used := by
  refine h.bind [] (by grind) fun a => .pure fun id => ?_
  rw [append_nil]
  exact hused a id

theorem traverseList {f : α → Fresh β} {gives : α → List Nat} {xs : List α}
    (h : ∀ x ∈ xs, Draws (gives x) (f x) used) :
    Draws (xs.flatMap gives) (Kind.traverseList f xs) (·.flatMap used) := by
  induction xs with
  | nil => exact .pure (by grind)
  | cons x xs ih =>
    obtain ⟨hx, hxs⟩ := forall_mem_cons.mp h
    refine hx.bind (xs.flatMap gives) (by grind) fun y => ?_
    exact (ih hxs).bind (used y) (by grind) fun ys => .pure (by grind)

end Draws

theorem draws_traverse {f : Node → Fresh Node} {k : Kind Node}
    (h : ∀ c ∈ k.children, Draws c.ids (f c) Node.ids) :
    Draws (Node.idsOf k.children) (k.traverse f pure) fun k' => Node.idsOf k'.children := by
  have hchildren := Draws.traverseList h
  rw [← Kind.children_traverse] at hchildren
  exact hchildren.of_map

/-! ## Ids that tell nodes apart -/

/-- No two ids are the same, none is zero, and all are below the next free one. -/
structure Distinct (next : Nat) (ids : List Nat) : Prop where
  nodup : ids.Nodup
  pos : ∀ id ∈ ids, 0 < id
  lt : ∀ id ∈ ids, id < next
  next_pos : 0 < next

theorem Draws.distinct {α : Type} {given : List Nat} {x : Fresh α} {used : α → List Nat}
    (h : Draws given x used) {next : Nat} (hgiven : Distinct next given) :
    Distinct (x.run next).2 (used (x.run next).1) := by
  have hmem {id : Nat} (hid : id ∈ used (x.run next).1) :
      id ∈ given ∨ next ≤ id ∧ id < (x.run next).2 := by
    rw [← mem_drawn, ← mem_append]
    exact (h.used next).subset hid
  have hnodup : (given ++ drawn next (x.run next).2).Nodup := by
    refine nodup_append'.mpr ⟨hgiven.nodup, nodup_range', fun id hid hdrawn => ?_⟩
    exact absurd (hgiven.lt id hid) (Nat.not_lt.mpr (mem_drawn.mp hdrawn).1)
  refine ⟨?_, fun id hid => ?_, fun id hid => ?_, Nat.lt_of_lt_of_le hgiven.next_pos (h.le next)⟩
  · obtain ⟨l, hperm, hsub⟩ := h.used next
    exact hperm.nodup_iff.mp (hsub.nodup hnodup)
  · rcases hmem hid with hid | hid
    · exact hgiven.pos id hid
    · exact Nat.lt_of_lt_of_le hgiven.next_pos hid.1
  · rcases hmem hid with hid | hid
    · exact Nat.lt_of_lt_of_le (hgiven.lt id hid) (h.le next)
    · exact hid.2

theorem Tree.distinct_ids (root : Node) : Distinct (Tree.ofRoot root).nextId (Tree.ofRoot root).root.ids := by
  have h (n : Node) : Distinct ((n.renumber.run 0).2 + 1) (n.renumber.run 0).1.ids := by
    have hids := (Node.numbered_renumber n 0).ids
    rw [flatMap_singleton] at hids
    have hbounds (id : Nat) (hid : id ∈ (n.renumber.run 0).1.ids) :
        0 < id ∧ id < (n.renumber.run 0).2 + 1 := by
      rw [Node.ids, hids, mem_range'_1] at hid
      omega
    refine ⟨?_, fun id hid => (hbounds id hid).1, fun id hid => (hbounds id hid).2, Nat.succ_pos _⟩
    rw [Node.ids, hids]
    exact nodup_range'
  exact h _

theorem Distinct.startingAt {next : Nat} {ids : List Nat} (h : Distinct next ids) :
    Distinct (Session.startingAt next).nextId ids := by
  rwa [Session.startingAt, Nat.max_eq_left h.next_pos]

/-! ## Trees from nodes -/

def Node.withoutIds : Node → Node := fold fun n kind => { id := 0, span := n.span, kind }

theorem Node.length_ids (n : Node) : n.ids.length = (idsOf n.children).length + 1 := by
  rw [ids_eq, length_cons]

theorem Node.length_ids_withoutIds (n : Node) : n.withoutIds.ids.length = n.ids.length := by
  have hlist {ns : List Node} (h : ∀ n ∈ ns, n.withoutIds.ids.length = n.ids.length) :
      (idsOf (ns.map withoutIds)).length = (idsOf ns).length := by
    induction ns with
    | nil => rfl
    | cons n ns ih =>
      rw [forall_mem_cons] at h
      rw [map_cons, idsOf_cons, idsOf_cons, length_append, length_append, h.1, ih h.2]
  induction n using Node.ind with
  | step n ih =>
    have hchildren : n.withoutIds.children = n.children.map withoutIds := by
      rw [withoutIds, fold_eq]
      exact Kind.children_map _ _
    rw [length_ids, length_ids, hchildren, hlist ih]

def Node.asModule (n : Node) : Node :=
  match n.kind with
  | .module _ => n
  | _ => ofKind (.module [n])

/-- The tree of a node is the node as a module, with ids of its own: in source order these are the numbers from
    one up to the number of nodes, and the next one is free. -/
theorem Tree.ofRoot_numbered (n : Node) : (Tree.ofRoot n).root.withoutIds = n.asModule.withoutIds ∧
      (Tree.ofRoot n).root.preorder.map Node.id = List.range' 1 n.asModule.preorder.length ∧
      (Tree.ofRoot n).nextId = n.asModule.preorder.length + 1 := by
  obtain ⟨root, last, hrun⟩ : ∃ root last, n.asModule.renumber.run 0 = (root, last) := ⟨_, _, rfl⟩
  have htree : Tree.ofRoot n = { root, nextId := last + 1 } := by
    show { root := (n.asModule.renumber.run 0).1, nextId := (n.asModule.renumber.run 0).2 + 1 : Tree } = _
    rw [hrun]
  have hsame : root.withoutIds = n.asModule.withoutIds :=
    Node.fold_of_yields (fun _ _ _ hspan => by rw [hspan]) (.of_run hrun)
  have hids := (Node.numbered_renumber n.asModule 0).ids
  rw [hrun, flatMap_singleton] at hids
  have hlast : n.asModule.preorder.length = last := by
    have hlength := congrArg (fun m : Node => m.ids.length) hsame
    simp only [Node.length_ids_withoutIds] at hlength
    have hcount := congrArg List.length hids
    simp only [Node.ids, length_map, length_range'] at hlength hcount
    omega
  rw [htree, hlast]
  exact ⟨hsame, hids, rfl⟩

end Motif
