import Motif.Proofs.Simplify.Identity
import Motif.Proofs.Simplify.Residue

/-!
# Simplifying again

A simplified tree in which no two negations are joined stays as it is when it is simplified again. Where
two negations are joined, the one negation that is made of them leaves a smaller tree. No rule makes a
tree larger, so the two cases exclude each other: the size tells whether a second run has done anything.
-/

namespace Motif

open List

namespace Kind

variable {α : Type} {m : Type → Type} [Monad m] [LawfulMonad m] {f : α → m α}
  {g : List α → m (List α)}

theorem traverseList_eq_pure {xs : List α} (h : ∀ x ∈ xs, f x = pure x) : traverseList f xs = pure xs := by
  induction xs with
  | nil => rfl
  | cons x xs ih =>
    rw [forall_mem_cons] at h
    simp only [traverseList, h.1, ih h.2, pure_bind]

theorem traverseOption_eq_pure {x : Option α} (h : ∀ a ∈ x.toList, f a = pure a) :
    traverseOption f x = pure x := by
  cases x with
  | none => rfl
  | some a => simp only [traverseOption, h a (by simp), pure_bind]

theorem traverse_eq_pure {k : Kind α} (hf : ∀ a ∈ k.children, f a = pure a)
    (hg : ∀ b ∈ k.bodies, g b = pure b) : k.traverse f g = pure k := by
  cases k <;> simp_all only [children, bodies, forall_mem_cons, forall_mem_append, forall_mem_nil, traverse,
    traverseList_eq_pure, traverseOption_eq_pure, pure_bind, not_mem_nil, implies_true, and_true]

end Kind

namespace Simplify

variable {n n' : Node} {b : List Node}

/-- Two negations are joined, which the next run makes one of. -/
def JoinsNegations (n : Node) : Prop :=
  match n.kind with
  | .conj left right => (negated? left).isSome ∧ (negated? right).isSome
  | .disj left right => (negated? left).isSome ∧ (negated? right).isSome
  | _ => False

theorem joinsNegations_iff (n : Node) :
    JoinsNegations n ↔ n.tag ∈ [Tag.conj, .disj] ∧ ∀ c ∈ n.children, (negated? c).isSome := by
  obtain ⟨i, span, k⟩ := n
  cases k <;> simp [JoinsNegations, Kind.tag]

instance : DecidablePred JoinsNegations := fun n => decidable_of_iff' _ (joinsNegations_iff n)

/-! ## Where nothing is left to be done -/

theorem stripNots_eq (h : negated? n = none) : stripNots n = (n, false) := by
  obtain ⟨i, s, k⟩ := n
  unfold stripNots
  split
  · rename_i heq
    cases heq
    cases h
  · rfl

section Kept

variable {i : Nat} {s : Span}

theorem unary_eq {op : UnaryOp} {x : Node} (h : Folded ⟨i, s, .unary op x⟩) :
    unary ⟨i, s, .unary op x⟩ op x = ⟨i, s, .unary op x⟩ := by
  obtain ⟨hliteral, hcomparison⟩ := h
  unfold unary
  split
  · rename_i w hw
    obtain ⟨v, hv, hop⟩ := Option.bind_eq_some_iff.mp hw
    rw [hliteral v hv] at hop
    cases hop
  · split
    · rename_i op' l r hk _
      split
      · rename_i inverse hinverse
        have hop : op'.isComparison := by rw [BinaryOp.isComparison_iff, hinverse]; rfl
        exact absurd ⟨op', by simp [Node.operator?, hk], hop⟩ (hcomparison rfl)
      · rfl
    · rfl

theorem binary_eq {op : BinaryOp} {l r : Node} (h : Folded ⟨i, s, .binary op l r⟩) :
    binary ⟨i, s, .binary op l r⟩ op l r = ⟨i, s, .binary op l r⟩ := by
  unfold binary
  split
  · rename_i v w hv hw
    rw [h v w hv hw]
  · rfl

theorem step_joins_eq {k : Kind Node} {l r : Node} (hk : Joins k l r) (hliteral : l.literal? = none)
    (hjoin : ¬ ((negated? l).isSome ∧ (negated? r).isSome)) : step ⟨i, s, k⟩ = pure ⟨i, s, k⟩ := by
  cases hl : negated? l with
  | none => cases hk <;> simp only [step, conj, disj, hliteral, hl]
  | some a =>
    cases hr : negated? r with
    | none => cases hk <;> simp only [step, conj, disj, hliteral, hl, hr]
    | some b => exact absurd (by simp [hl, hr]) hjoin

theorem cond_eq {c x y : Node} (h : Folded ⟨i, s, .cond c x y⟩) :
    cond ⟨i, s, .cond c x y⟩ c x y = ⟨i, s, .cond c x y⟩ := by
  obtain ⟨hliteral, hnegated⟩ := h
  simp [cond, stripNots_eq hnegated, hliteral]

theorem array_eq {es : List Node} (h : Folded ⟨i, s, .array es⟩) :
    array ⟨i, s, .array es⟩ es = ⟨i, s, .array es⟩ := by
  have hnone : es.mapM Node.literal? = none := mapM_eq_none_iff.mpr h
  rw [array, hnone]

theorem object_eq {es : List Node} (h : Folded ⟨i, s, .object es⟩) :
    object ⟨i, s, .object es⟩ es = ⟨i, s, .object es⟩ := by
  have hnone : es.mapM literalEntry? = none := mapM_eq_none_iff.mpr h
  rw [object, hnone]

theorem branch_eq {c : Node} {t f : List Node} (h : Folded ⟨i, s, .branch c t f⟩) :
    branch ⟨i, s, .branch c t f⟩ c t f = ⟨i, s, .branch c t f⟩ := by
  have hnegated : negated? c = none := h
  rw [branch, stripNots_eq hnegated]

theorem fuse_eq {rs f : List Node} (h : Folded ⟨i, s, .loop rs b f⟩) :
    fuse ⟨i, s, .loop rs b f⟩ rs b f = ⟨i, s, .loop rs b f⟩ := by
  unfold fuse
  split
  · exact absurd ⟨_, _, _, _, rfl⟩ (h rfl)
  · rfl

theorem returnReduction_eq {name : String} {ps : List Node} {g : Option Node}
    (h : Folded ⟨i, s, .function name ps g b⟩) :
    returnReduction ⟨i, s, .function name ps g b⟩ name ps g b = ⟨i, s, .function name ps g b⟩ := by
  unfold returnReduction
  split
  · split
    · rename_i htag
      exact absurd ⟨_, _, _, rfl, by simpa using htag⟩ h
    · rfl
  · rfl

end Kept

theorem step_eq_pure (h : Folded n) (hjoin : ¬ JoinsNegations n) : step n = pure n := by
  obtain ⟨i, s, k⟩ := n
  cases k with
  | unary => exact congrArg pure (unary_eq h)
  | binary => exact congrArg pure (binary_eq h)
  | conj l r => exact step_joins_eq (.conj l r) h hjoin
  | disj l r => exact step_joins_eq (.disj l r) h hjoin
  | cond => exact congrArg pure (cond_eq h)
  | array => exact congrArg pure (array_eq h)
  | object => exact congrArg pure (object_eq h)
  | branch => exact congrArg pure (branch_eq h)
  | loop => exact congrArg pure (fuse_eq h)
  | function => exact congrArg pure (returnReduction_eq h)
  | _ => rfl

theorem statements_eq (h : ∀ s ∈ b, Tidy s) : statements b = b := by
  have htaken (s : Node) (hs : Tidy s) : takenBody s = [s] := by
    unfold takenBody
    split
    · rename_i hk
      simp only [Tidy, hk] at hs
      rw [hs]
    · rfl
  have hsplit (s : Node) (hs : Tidy s) : splitExport s = [s] := by
    unfold splitExport
    split
    · rename_i hk
      simp only [Tidy, hk] at hs
      cases hs
    · rfl
  have hflatMap {f : Node → List Node} (hf : ∀ s, Tidy s → f s = [s]) : b.flatMap f = b := by
    rw [flatMap_congr fun s hs => hf s (h s hs)]
    exact flatMap_singleton' b
  rw [statements, hflatMap htaken, hflatMap hsplit]

theorem simplify_eq_step (hn : Reduced n) (h : ∀ c ∈ n.children, simplify c = pure c) :
    simplify n = step n := by
  obtain ⟨i, s, k⟩ := n
  rw [simplify_eq, Kind.traverse_eq_pure h fun b hb => congrArg pure (statements_eq (hn.tidy b hb)),
    pure_bind]

theorem simplify_eq_pure (hn : n.Everywhere Reduced) (hjoin : n.Everywhere fun m => ¬ JoinsNegations m) :
    simplify n = pure n := by
  induction n using Node.ind with
  | step n ih =>
    rw [simplify_eq_step hn.here fun c hc => ih c hc (hn.child hc) (hjoin.child hc)]
    exact step_eq_pure hn.here.folded hjoin.here

/-! ## The size of simplified trees -/

theorem length_ids_negated {a : Node} (h : negated? n = some a) : n.ids.length = a.ids.length + 1 := by
  unfold negated? at h
  split at h
  · rename_i hk
    cases h
    simp [Node.length_ids n, Node.children, hk]
  · cases h

theorem Rewrite.length_ids_le (h : Rewrite n n') : n'.ids.length ≤ n.ids.length := by
  by_cases htag : n.tag ∈ [Tag.conj, .disj]
  · cases h with
    | keep => exact Nat.le_refl _
    | conjLiteral | disjLiteral =>
      split <;> simp only [Node.ids_mk, Kind.children, Node.idsOf_cons, length_cons,
        length_append] <;> omega
    | conjNegations hl hr | disjNegations hl hr =>
      simp only [Node.ids_mk, Kind.children, Node.idsOf_cons, Node.idsOf_nil, length_cons,
        length_append, length_nil, length_ids_negated hl, length_ids_negated hr]
      omega
    | _ => simp [Kind.tag] at htag
  · exact (subperm_of_count (h.count_ids htag)).length_le

theorem Becomes.children (h : Becomes n n') : ∃ k : Kind Node, Forall₂ Becomes n.children k.children ∧
      Yields (step ⟨n.id, n.span, k.mapBodies statements⟩) n' := by
  unfold Becomes at h
  rw [simplify_eq, Kind.traverse_bodies] at h
  obtain ⟨k', hk', hstep⟩ := h.bind
  rw [map_eq_pure_bind] at hk'
  obtain ⟨k, hk, rfl⟩ := hk'.bind_pure
  refine ⟨k, Kind.traverseList_rel ?_, hstep⟩
  obtain ⟨s, s', hrun⟩ := hk
  refine ⟨s, s', ?_⟩
  rw [Node.children, ← Kind.children_traverse, StateT.run_map, hrun]
  rfl

theorem Becomes.length_ids_le_children (h : Becomes n n') :
    ∃ cs, Forall₂ Becomes n.children cs ∧ n'.ids.length ≤ (Node.idsOf cs).length + 1 := by
  obtain ⟨k, hchildren, hstep⟩ := h.children
  refine ⟨k.children, hchildren, Nat.le_trans (rewrite_of_step hstep).length_ids_le ?_⟩
  rw [Node.length_ids]
  exact Nat.succ_le_succ (Kind.idsOf_mapBodies idsOf_statements k).length_le

theorem length_idsOf_le {ns ms : List Node} (h : Forall₂ (fun n m => m.ids.length ≤ n.ids.length) ns ms) :
    (Node.idsOf ms).length ≤ (Node.idsOf ns).length := by
  induction h with
  | nil => exact Nat.le_refl _
  | cons hc _ ih =>
    simp only [Node.idsOf_cons, length_append]
    exact Nat.add_le_add hc ih

theorem Becomes.length_ids_le (h : Becomes n n') : n'.ids.length ≤ n.ids.length := by
  induction n using Node.ind generalizing n' with | step n ih => ?_
  obtain ⟨cs, hchildren, hle⟩ := h.length_ids_le_children
  have hsum := length_idsOf_le (Kind.forall₂_imp_mem hchildren fun c hc c' h => ih c hc h)
  rw [Node.length_ids n]
  omega

theorem length_ids_lt_of_joinsNegations (hjoin : JoinsNegations n) (h : Yields (step n) n') :
    n'.ids.length < n.ids.length := by
  have hlt {i : Nat} {s : Span} {k : Kind Node} {l r : Node} (hk : Joins k l r)
      (hboth : (negated? l).isSome ∧ (negated? r).isSome)
      (h : Yields (step ⟨i, s, k⟩) n') : n'.ids.length < (Node.ids ⟨i, s, k⟩).length := by
    have hsize : (Node.ids ⟨i, s, k⟩).length = l.ids.length + r.ids.length + 1 := by
      cases hk <;> simp [Node.ids_mk]
    obtain (rfl | rfl) | ⟨-, ⟨a, b, k', ha, hb, hk', hnegation⟩ | ⟨hl | hr, -⟩⟩ := step_joins_cases hk h
    · omega
    · omega
    · obtain ⟨j, -, rfl⟩ := hnegation.bind_pure
      have hla := length_ids_negated ha
      have hrb := length_ids_negated hb
      have hsize' : (Node.ids ⟨i, s, .unary .not ⟨j, s, k'⟩⟩).length =
          a.ids.length + b.ids.length + 2 := by
        cases hk' <;> simp [Node.ids_mk]
      dsimp only
      omega
    · simp [hl] at hboth
    · simp [hr] at hboth
  obtain ⟨i, s, k⟩ := n
  cases k with
  | conj l r => exact hlt (.conj l r) hjoin h
  | disj l r => exact hlt (.disj l r) hjoin h
  | _ => exact hjoin.elim

theorem Becomes.length_ids_lt (h : Becomes n n') (hn : n.Everywhere Reduced)
    (hjoin : ¬ n.Everywhere fun m => ¬ JoinsNegations m) : n'.ids.length < n.ids.length := by
  induction n using Node.ind generalizing n' with | step n ih => ?_
  by_cases hbelow : ∀ c ∈ n.children, c.Everywhere fun m => ¬ JoinsNegations m
  · -- The children stay as they are, so it is the node itself that joins negations.
    have hhere : JoinsNegations n := by
      by_contra hfree
      exact hjoin (.mk hfree hbelow)
    have hstep := simplify_eq_step hn.here fun c hc => simplify_eq_pure (hn.child hc) (hbelow c hc)
    rw [Becomes, hstep] at h
    exact length_ids_lt_of_joinsNegations hhere h
  · obtain ⟨cs, hchildren, hle⟩ := h.length_ids_le_children
    have hsum {ns ms : List Node} (h : Forall₂ Becomes ns ms) (hns : ∀ c ∈ ns, c ∈ n.children)
        (hsome : ¬ ∀ c ∈ ns, c.Everywhere fun m => ¬ JoinsNegations m) :
        (Node.idsOf ms).length < (Node.idsOf ns).length := by
      induction h with
      | nil => exact absurd (by simp) hsome
      | @cons c c' ns ms hc hrest ih' =>
        obtain ⟨hmem, hns⟩ := forall_mem_cons.mp hns
        simp only [Node.idsOf_cons, length_append]
        by_cases hfree : c.Everywhere fun m => ¬ JoinsNegations m
        · have hlt := ih' hns fun hall => hsome (forall_mem_cons.mpr ⟨hfree, hall⟩)
          have hle := hc.length_ids_le
          omega
        · have hlt := ih c hmem hc (hn.child hmem) hfree
          have hle := length_idsOf_le (hrest.imp fun _ _ h => h.length_ids_le)
          omega
    have hlt := hsum hchildren (fun _ hc => hc) hbelow
    rw [Node.length_ids n]
    omega

/-- A second run of the pass changes nothing, ids aside, exactly if there are no two negations joined in
    what the first one has made; and then it leaves the ids as they are, too. -/
theorem run_run_eq_iff (root : Node) (session : Session) (h : root.Everywhere DeclaringExport) :
    ∃ root' session' root'' session'', run root session = (.ok root', session') ∧
      run root' session' = (.ok root'', session'') ∧
      (root''.withoutIds = root'.withoutIds ↔ root'.Everywhere fun n => ¬ JoinsNegations n) ∧
      (root''.withoutIds = root'.withoutIds → root'' = root' ∧ session'' = session') := by
  obtain ⟨root', next', hfirst⟩ : ∃ root' next', (simplify root).run session.nextId = (root', next') :=
    ⟨_, _, rfl⟩
  obtain ⟨root'', next'', hsecond⟩ : ∃ root'' next'', (simplify root').run next' = (root'', next'') :=
    ⟨_, _, rfl⟩
  have hreduced : root'.Everywhere Reduced := Becomes.reduced (.of_run hfirst) h
  have hsame (hfree : root'.Everywhere fun n => ¬ JoinsNegations n) : root'' = root' ∧ next'' = next' := by
    rw [simplify_eq_pure hreduced hfree] at hsecond
    cases hsecond
    exact ⟨rfl, rfl⟩
  have hfree (hids : root''.withoutIds = root'.withoutIds) :
      root'.Everywhere fun n => ¬ JoinsNegations n := by
    by_contra hjoin
    have hlt := Becomes.length_ids_lt (.of_run hsecond) hreduced hjoin
    rw [← Node.length_ids_withoutIds root', ← hids, Node.length_ids_withoutIds] at hlt
    exact Nat.lt_irrefl _ hlt
  refine ⟨root', { session with nextId := next' }, root'', { session with nextId := next'' }, ?_, ?_,
    ⟨hfree, fun h => congrArg _ (hsame h).1⟩, fun hids => ?_⟩
  · simp only [run, hfirst]
  · simp only [run, hsecond]
  · obtain ⟨hroot, hnext⟩ := hsame (hfree hids)
    exact ⟨hroot, by rw [hnext]⟩

/-- The export is split into an assignment and an export, and the conjunction of two negations becomes the
    negation of a disjunction. After that nothing is left to do. -/
theorem run_run_eq_iff_negation :
    let negation (i : Nat) (name : String) : Node := ⟨i, .none, .unary .not ⟨i + 1, .none, .ident name⟩⟩
    let root : Node := ⟨1, .none, .module
      [⟨2, .none, .exported (some ⟨3, .none, .assign (.name "x") ⟨4, .none, .literal (.bool true)⟩⟩) []⟩,
        ⟨5, .none, .ret ⟨6, .none, .conj (negation 7 "a") (negation 9 "b")⟩⟩]⟩
    ∃ root' session', run root (.startingAt 11) = (.ok root', session') ∧
      root'.withoutIds ≠ root.withoutIds ∧ run root' session' = (.ok root', session') := by
  intro negation root
  obtain ⟨root', session', root'', session'', hfirst, hsecond, hiff, hsame⟩ :=
    run_run_eq_iff root (.startingAt 11) (by decide)
  obtain rfl : ((simplify root).run 11).1 = root' := Except.ok.inj (congrArg Prod.fst hfirst)
  obtain ⟨rfl, rfl⟩ := hsame (hiff.mpr (by decide))
  exact ⟨_, _, hfirst, fun h => absurd (congrArg (fun n => n.ids.length) h) (by decide), hsecond⟩

def returningBoth (left right : Node) : Node :=
  ⟨1, .none, .module [⟨2, .none, .ret ⟨3, .none, .conj left right⟩⟩]⟩

/-- The conjunction of `not not a` and `not not b` becomes the negation of a disjunction of two negations,
    and that becomes the double negation of a conjunction when it is simplified again. -/
theorem run_run_ne :
    let double (i : Nat) (name : String) : Node :=
      ⟨i, .none, .unary .not ⟨i + 1, .none, .unary .not ⟨i + 2, .none, .ident name⟩⟩⟩
    ∃ root' session' root'' session'',
      run (returningBoth (double 4 "a") (double 7 "b")) (.startingAt 10) = (.ok root', session') ∧
        run root' session' = (.ok root'', session'') ∧ root''.withoutIds ≠ root'.withoutIds :=
  ⟨_, _, _, _, rfl, rfl, fun h => absurd (congrArg (fun n => n.ids.length) h) (by decide)⟩

end Simplify

end Motif
