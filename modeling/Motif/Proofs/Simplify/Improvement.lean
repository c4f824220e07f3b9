import Motif.Proofs.Simplify.Core
import Motif.Proofs.Simplify.Fusion
import Motif.Proofs.Simplify.Negation

/-!
# Every rewrite does at least as well

Whatever succeeds before a rewrite succeeds in the same way after it, with the same fuel: the same
value or scope, the same exports, calls of host functions and stamps. A rewrite takes away layers of
the tree and adds none, so the parts that stay are run with as much fuel as before or more.
-/

namespace Motif.Simplify

open Eval List

variable {host : Host} {j : Nat} {n n' : Node} {e : Env} {m m₁ : Machine} {v : Val} {d : Value}
  {b : List Node}

/-! ## Running parts -/

theorem eq_literal (h : n.literal? = some d) : n.kind = .literal d := by
  unfold Node.literal? at h
  split at h
  · rename_i hk
    cases h
    exact hk
  · cases h

theorem evalNode_literal (r : Rules) (h : n.literal? = some d) : evalNode host r n e = pure (.data d) := by
  unfold evalNode
  rw [eq_literal h]

theorem eval_literal_inv (hn : n.literal? = some d) (h : Gives ((Rules.upTo host j).eval n e) m v m₁) :
    v = .data d ∧ m₁ = m := by
  obtain ⟨j', rfl, heval⟩ := eval_upTo_inv h
  rw [evalNode_literal _ hn] at heval
  obtain ⟨rfl, rfl⟩ := gives_pure_inv heval
  exact ⟨rfl, rfl⟩

theorem eval_negation_inv {a : Node} (hn : negated? n = some a)
    (h : Gives ((Rules.upTo host (j + 1)).eval n e) m v m₁) :
    ∃ w, Gives ((Rules.upTo host j).eval a e) m w m₁ ∧ v = .bool !w.isTruthy := by
  have h : Gives (evalNode host (Rules.upTo host j) n e) m v m₁ := h
  rw [evalNode_negation _ hn] at h
  obtain ⟨w, m₂, hw, hv⟩ := h.bind_inv
  obtain ⟨rfl, rfl⟩ := gives_pure_inv hv
  exact ⟨w, hw, rfl⟩

theorem eval_stripNots (n : Node) (h : Gives ((Rules.upTo host j).eval n e) m v m₁) :
    ∃ w, Gives ((Rules.upTo host j).eval (stripNots n).1 e) m w m₁ ∧
      v.isTruthy = (w.isTruthy != (stripNots n).2) := by
  fun_induction stripNots n generalizing v j with
  | case1 i s x inner odd heq ih =>
    obtain ⟨j', rfl, -⟩ := eval_upTo_inv h
    obtain ⟨u, hu, rfl⟩ := eval_negation_inv (a := x) rfl h
    obtain ⟨w, hw, htruthy⟩ := ih hu
    rw [heq] at hw htruthy
    refine ⟨w, Rules.eval_upTo_succ host j' _ _ hw, ?_⟩
    show (!u.isTruthy) = _
    rw [htruthy]
    cases w.isTruthy <;> cases odd <;> rfl
  | case2 n _ => exact ⟨v, h, by simp⟩

/-! ## Expressions -/

section Expressions

variable {i k : Nat} {s : Span} {x y l r a b : Node}

abbrev evalAt (host : Host) (j : Nat) : Node → Env → Run Val := evalNode host (Rules.upTo host j)

theorem improves_unaryLiteral {op : UnaryOp} {w : Value} (hx : x.literal? = some d)
    (hop : op.eval? d = some w) :
    Improves (evalAt host j ⟨i, s, .unary op x⟩ e) (evalAt host j ⟨i, s, .literal w⟩ e) := by
  intro m v m₁ h
  obtain ⟨u, m₂, hu, hv⟩ := h.bind_inv
  obtain ⟨rfl, rfl⟩ := eval_literal_inv hx hu
  unfold Eval.unary at hv
  simp only [hop, Option.map_some] at hv
  exact hv

theorem improves_invert {op op' : BinaryOp} (hx : x.kind = .binary op l r)
    (hop : op.inverse? = some op') (horder : ¬ x.IsOrder) :
    Improves (evalAt host j ⟨i, s, .unary .not x⟩ e) (evalAt host j ⟨i, s, .binary op' l r⟩ e) := by
  have horder : op ∉ BinaryOp.orders := fun h => horder ⟨op, by simp [Node.operator?, hx], h⟩
  obtain ⟨hlike, hlike'⟩ := ne_like_of_inverse hop
  intro m v m₁ h
  obtain ⟨u, m₂, hu, hv⟩ := h.bind_inv
  rw [unary_not] at hv
  obtain ⟨j', rfl, hinner⟩ := eval_upTo_inv hu
  unfold evalNode at hinner
  simp only [hx] at hinner
  obtain ⟨a, m₃, ha, hrest⟩ := hinner.bind_inv
  obtain ⟨b, m₄, hb, hresult⟩ := hrest.bind_inv
  obtain ⟨d, hd, rfl, rfl⟩ := binary_gives_inv hlike hresult
  have hd' : operate? op' a b = some (.bool !d.isTruthy) := by
    rw [operate?_equality hop horder, hd]
    rfl
  refine (Rules.eval_upTo_succ host j' l e ha).bind
    ((Rules.eval_upTo_succ host j' r e hb).bind ?_)
  rw [binary_eq_pure _ hlike' hd']
  exact hv

theorem improves_binaryLiteral {op : BinaryOp} {d' w : Value} (hl : l.literal? = some d)
    (hr : r.literal? = some d') (hop : op.eval? d d' = some w) :
    Improves (evalAt host j ⟨i, s, .binary op l r⟩ e) (evalAt host j ⟨i, s, .literal w⟩ e) := by
  intro m v m₁ h
  obtain ⟨a, m₂, ha, hrest⟩ := h.bind_inv
  obtain ⟨b, m₃, hb, hresult⟩ := hrest.bind_inv
  obtain ⟨rfl, rfl⟩ := eval_literal_inv hl ha
  obtain ⟨rfl, rfl⟩ := eval_literal_inv hr hb
  have hlike : op ≠ .like := by
    rintro rfl
    cases hop
  have hoperate : operate? op (.data d) (.data d') = some w := by
    cases op <;> simp [operate?, hop]
  rw [binary_eq_pure _ hlike hoperate] at hresult
  exact hresult

/-- A disjunction, which stops at what is true, or a conjunction, which stops at what is not. -/
def joined (stop : Bool) (l r : Node) : Kind Node := if stop then .disj l r else .conj l r

theorem evalAt_joined (stop : Bool) :
    evalAt host j ⟨i, s, joined stop l r⟩ e = (do
      let v ← (Rules.upTo host j).eval l e
      if v.isTruthy = stop then pure v else (Rules.upTo host j).eval r e) := by
  cases stop with
  | true => rfl
  | false =>
    refine bind_congr fun v => ?_
    cases v.isTruthy <;> rfl

theorem improves_joinedLiteral (stop : Bool) (hl : l.literal? = some d) :
    Improves (evalAt host j ⟨i, s, joined stop l r⟩ e)
      (evalAt host j (if d.isTruthy = stop then l else r) e) := by
  intro m v m₁ h
  rw [evalAt_joined] at h
  obtain ⟨a, m₂, ha, hrest⟩ := h.bind_inv
  obtain ⟨rfl, rfl⟩ := eval_literal_inv hl ha
  by_cases hstop : d.isTruthy = stop
  · rw [if_pos hstop, evalAt, evalNode_literal _ hl]
    rwa [if_pos (show (Val.data d).isTruthy = stop from hstop)] at hrest
  · rw [if_neg hstop]
    rw [if_neg (show ¬ (Val.data d).isTruthy = stop from hstop)] at hrest
    exact Rules.eval_upTo_succ host j r e hrest

theorem improves_joinedNegations (stop : Bool) (hl : negated? l = some a) (hr : negated? r = some b) :
    Improves (evalAt host j ⟨i, s, joined stop l r⟩ e)
      (evalAt host j ⟨i, s, .unary .not ⟨k, s, joined (!stop) a b⟩⟩ e) := by
  intro m v m₁ h
  rw [evalAt_joined] at h
  obtain ⟨u, m₂, hu, hrest⟩ := h.bind_inv
  obtain ⟨j', rfl, -⟩ := eval_upTo_inv hu
  obtain ⟨w, hw, rfl⟩ := eval_negation_inv hl hu
  -- The two are joined with the fuel that the first negation was run with.
  have hjoined {w' : Val} {m₃ : Machine}
      (h : Gives (if w.isTruthy = !stop then pure w else (Rules.upTo host j').eval b e) m₂ w' m₃) :
      Gives (evalAt host (j' + 1) ⟨i, s, .unary .not ⟨k, s, joined (!stop) a b⟩⟩ e) m
        (.bool !w'.isTruthy) m₃ := by
    have hinner : Gives (evalAt host j' ⟨k, s, joined (!stop) a b⟩ e) m w' m₃ := by
      rw [evalAt_joined]
      exact Gives.bind hw h
    rw [evalAt, evalNode_negation _ rfl]
    exact Gives.bind hinner (gives_pure _ _)
  have htruthy : (Val.bool !w.isTruthy).isTruthy = stop ↔ w.isTruthy = !stop := by
    show (!w.isTruthy) = stop ↔ _
    cases w.isTruthy <;> cases stop <;> decide
  by_cases hstop : w.isTruthy = !stop
  · rw [if_pos (htruthy.mpr hstop)] at hrest
    obtain ⟨rfl, rfl⟩ := gives_pure_inv hrest
    exact hjoined (by rw [if_pos hstop]; exact gives_pure _ _)
  · rw [if_neg (mt htruthy.mp hstop)] at hrest
    obtain ⟨w', hw', rfl⟩ := eval_negation_inv hr hrest
    exact hjoined (by rw [if_neg hstop]; exact hw')

/-- A condition without its negations chooses the other way round if they are odd in number. -/
theorem improves_stripNots {α β : Type} (c : Node) (run : β → Run α) (x y : β) :
    Improves (do if (← (Rules.upTo host j).eval c e).isTruthy then run x else run y)
      (do if (← (Rules.upTo host j).eval (stripNots c).1 e).isTruthy
        then run (if (stripNots c).2 then y else x) else run (if (stripNots c).2 then x else y)) := by
  intro m v m₁ h
  obtain ⟨u, m₂, hu, hrest⟩ := h.bind_inv
  obtain ⟨w, hw, htruthy⟩ := eval_stripNots c hu
  refine hw.bind ?_
  rw [htruthy] at hrest
  generalize (stripNots c).2 = odd at hrest ⊢
  generalize w.isTruthy = truthy at hrest ⊢
  cases odd <;> cases truthy <;> exact hrest

theorem improves_cond {c : Node} : Improves (evalAt host j ⟨i, s, .cond c x y⟩ e)
      (evalAt host j ⟨i, s, .cond (stripNots c).1 (if (stripNots c).2 then y else x)
        (if (stripNots c).2 then x else y)⟩ e) :=
  improves_stripNots c (fun x => (Rules.upTo host j).eval x e) x y

theorem improves_condLiteral {c : Node} (hc : (stripNots c).1.literal? = some d) :
    Improves (evalAt host j ⟨i, s, .cond c x y⟩ e)
      (evalAt host j (if d.isTruthy != (stripNots c).2 then x else y) e) := by
  intro m v m₁ h
  obtain ⟨u, m₂, hu, hrest⟩ := h.bind_inv
  obtain ⟨w, hw, htruthy⟩ := eval_stripNots c hu
  obtain ⟨rfl, rfl⟩ := eval_literal_inv hc hw
  rw [htruthy] at hrest
  have htaken : Gives ((Rules.upTo host j).eval
      (if (Val.data d).isTruthy != (stripNots c).2 then x else y) e) m₂ v m₁ := by
    split at hrest
    · rename_i ht
      rwa [if_pos ht]
    · rename_i ht
      rwa [if_neg ht]
  exact Rules.eval_upTo_succ host j _ e htaken

theorem mapM_literal_inv {α β : Type} {f : α → Run β} {g : α → Option β} {xs : List α} {ys : List β}
    (hfg : ∀ x y, g x = some y → ∀ {m z m₁}, Gives (f x) m z m₁ → z = y ∧ m₁ = m) (hg : xs.mapM g = some ys)
    {zs : List β} (h : Gives (xs.mapM f) m zs m₁) : zs = ys ∧ m₁ = m := by
  induction xs generalizing ys zs m m₁ with
  | nil =>
    obtain ⟨rfl, rfl⟩ := gives_pure_inv h
    exact ⟨by simpa using hg, rfl⟩
  | cons x xs ih =>
    rw [mapM_cons] at hg h
    obtain ⟨y, hy, hg⟩ := Option.bind_eq_some_iff.mp hg
    obtain ⟨ys', hys, hg⟩ := Option.bind_eq_some_iff.mp hg
    cases hg
    obtain ⟨z, m₂, hz, hrest⟩ := h.bind_inv
    obtain ⟨zs', m₃, hzs, hresult⟩ := hrest.bind_inv
    obtain ⟨rfl, rfl⟩ := hfg x y hy hz
    obtain ⟨rfl, rfl⟩ := ih hys hzs
    obtain ⟨rfl, rfl⟩ := gives_pure_inv hresult
    exact ⟨rfl, rfl⟩

theorem eval_data_inv {w : Value} (hx : x.literal? = some d)
    (h : Gives (do asData (← (Rules.upTo host j).eval x e)) m w m₁) : w = d ∧ m₁ = m := by
  obtain ⟨u, m₂, hu, hw⟩ := h.bind_inv
  obtain ⟨rfl, rfl⟩ := eval_literal_inv hx hu
  obtain ⟨rfl, rfl⟩ := gives_pure_inv hw
  exact ⟨rfl, rfl⟩

theorem improves_array {es : List Node} {ds : List Value} (hes : es.mapM Node.literal? = some ds) :
    Improves (evalAt host j ⟨i, s, .array es⟩ e) (evalAt host j ⟨i, s, .literal (.array ds)⟩ e) := by
  intro m v m₁ h
  obtain ⟨ws, m₂, hws, hv⟩ := h.bind_inv
  obtain ⟨rfl, rfl⟩ := mapM_literal_inv (fun x d hx _ _ _ h => eval_data_inv hx h) hes hws
  exact hv

theorem objectEntry_literal_inv {p q : String × Value} (hx : literalEntry? x = some p)
    (h : Gives (objectEntry (Rules.upTo host j) e x) m q m₁) : q = p ∧ m₁ = m := by
  unfold literalEntry? at hx
  split at hx
  · rename_i key value hk
    obtain ⟨d, hd, hx⟩ := Option.bind_eq_some_iff.mp hx
    obtain ⟨t, ht, hx⟩ := Option.bind_eq_some_iff.mp hx
    obtain ⟨w, hw, hx⟩ := Option.bind_eq_some_iff.mp hx
    cases hx
    obtain rfl : d = .string t := by
      cases d <;> simp_all [Value.string?]
    have hident : key.ident? = none := by
      unfold Node.ident?
      rw [eq_literal hd]
    unfold objectEntry entryKey at h
    simp only [hk, hident] at h
    obtain ⟨t', m₂, ht', hrest⟩ := h.bind_inv
    obtain ⟨u, m₃, hu, hkey⟩ := ht'.bind_inv
    obtain ⟨rfl, rfl⟩ := eval_literal_inv hd hu
    obtain ⟨rfl, rfl⟩ := gives_pure_inv hkey
    obtain ⟨u', m₄, hu', hvalue⟩ := hrest.bind_inv
    obtain ⟨rfl, rfl⟩ := eval_literal_inv hw hu'
    obtain ⟨rfl, rfl⟩ := gives_pure_inv hvalue
    exact ⟨rfl, rfl⟩
  · cases hx

theorem improves_object {es : List Node} {ds : List (String × Value)} (hes : es.mapM literalEntry? = some ds) :
    Improves (evalAt host j ⟨i, s, .object es⟩ e) (evalAt host j ⟨i, s, .literal (.object ds)⟩ e) := by
  intro m v m₁ h
  obtain ⟨ws, m₂, hws, hv⟩ := h.bind_inv
  obtain ⟨rfl, rfl⟩ := mapM_literal_inv (fun x d hx _ _ _ h => objectEntry_literal_inv hx h) hes hws
  exact hv

end Expressions

/-! ## Blocks -/

section Blocks

abbrev execAt (host : Host) (j : Nat) : Node → Env → Run (Flow × Env) := execNode host (Rules.upTo host j)

variable {exec exec' : Node → Env → Run (Flow × Env)}

theorem improves_block (h : ∀ n e, Improves (exec n e) (exec' n e)) (b : List Node) (e : Env) :
    Improves (block exec b e) (block exec' b e) := by
  induction b generalizing e with
  | nil => exact .refl _
  | cons n b ih =>
    refine (h n e).bind fun x => ?_
    obtain ⟨f, e₁⟩ := x
    cases f with
    | next => exact ih e₁
    | returned v => exact .refl _

theorem improves_flatMap {f : Node → List Node} (h : ∀ n ∈ b, ∀ e, Improves (exec n e) (block exec (f n) e))
    (e : Env) : Improves (block exec b e) (block exec (b.flatMap f) e) := by
  induction b generalizing e with
  | nil => exact .refl _
  | cons n b ih =>
    rw [flatMap_cons, block_append]
    refine (h n mem_cons_self e).bind fun x => ?_
    obtain ⟨f, e₁⟩ := x
    cases f with
    | next => exact ih (fun m hm => h m (mem_cons_of_mem _ hm)) e₁
    | returned v => exact .refl _

theorem improves_takenBody (n : Node) (e : Env) :
    Improves (execAt host j n e) (block (execAt host j) (takenBody n) e) := by
  unfold takenBody
  split
  · rename_i c t f hk
    split
    · rename_i d hc
      obtain ⟨i, s, k⟩ := n
      cases hk
      intro m x m₁ h
      obtain ⟨v, m₂, hv, hrest⟩ := h.bind_inv
      obtain ⟨rfl, rfl⟩ := eval_literal_inv hc hv
      have htaken : Gives (block (Rules.upTo host j).exec
          (if (Val.data d).isTruthy then t else f) e) m₂ x m₁ := by
        split at hrest
        · rename_i ht
          rwa [if_pos ht]
        · rename_i ht
          rwa [if_neg ht]
      exact improves_block (Rules.exec_upTo_succ host j) _ e htaken
    · rw [block_singleton]
      exact .refl _
  · rw [block_singleton]
    exact .refl _

theorem assignments_next {as : List Node} (has : ∀ a ∈ as, a.tag = .assign) {x : Flow × Env}
    (h : Gives (block (Rules.upTo host j).exec as e) m x m₁) : x.1 = .next := by
  induction as generalizing e m with
  | nil =>
    obtain ⟨rfl, rfl⟩ := gives_pure_inv h
    rfl
  | cons a as ih =>
    rw [forall_mem_cons] at has
    obtain ⟨y, m₂, hy, hrest⟩ := h.bind_inv
    obtain ⟨j', rfl, hassign⟩ := exec_upTo_inv hy
    obtain ⟨i, s, k⟩ := a
    cases k with
    | assign t v =>
      obtain ⟨w, m₃, hw, hresult⟩ := hassign.bind_inv
      obtain ⟨rfl, rfl⟩ := gives_pure_inv hresult
      exact ih has.2 hrest
    | _ => cases has.1

theorem plainDecl_next {d : Node} (hd : PlainDecl d) {x : Flow × Env}
    (h : Gives ((Rules.upTo host j).exec d e) m x m₁) : x.1 = .next := by
  obtain ⟨j', rfl, hexec⟩ := exec_upTo_inv h
  obtain ⟨i, s, k⟩ := d
  cases k with
  | assign t v =>
    obtain ⟨w, m₂, hw, hresult⟩ := hexec.bind_inv
    obtain ⟨rfl, rfl⟩ := gives_pure_inv hresult
    rfl
  | function name ps g b =>
    obtain ⟨stamp, m₂, hstamp, hresult⟩ := hexec.bind_inv
    obtain ⟨rfl, rfl⟩ := gives_pure_inv hresult
    rfl
  | declare as => exact assignments_next hd hexec
  | _ => exact hd.elim

theorem improves_splitExport (hn : PlainExport n) (e : Env) :
    Improves (execAt host j n e) (block (execAt host j) (splitExport n) e) := by
  unfold splitExport
  split
  · rename_i d items hk
    obtain ⟨i, s, k⟩ := n
    cases hk
    intro m x m₁ h
    obtain ⟨⟨e₁, names⟩, m₂, hdecl, hrest⟩ := h.bind_inv
    obtain ⟨⟨f, e₂⟩, m₃, hd, hresult⟩ := hdecl.bind_inv
    cases hresult
    obtain rfl : f = .next := plainDecl_next hn hd
    refine (Rules.exec_upTo_succ host j d e hd).bind ?_
    show Gives (block (execAt host j) [_] e₁) m₂ x m₁
    rw [block_singleton]
    refine Gives.bind (gives_pure (e₁, []) m₂) ?_
    simpa [ModuleItem.visibleName, Function.comp_def] using hrest
  · rw [block_singleton]
    exact .refl _

theorem improves_statements (hb : ∀ n ∈ b, n.Everywhere PlainExport) (e : Env) :
    Improves (block (execAt host j) b e) (block (execAt host j) (statements b) e) := by
  refine (improves_flatMap (fun n _ => improves_takenBody n) e).trans ?_
  refine improves_flatMap (fun n hn e => improves_splitExport ?_ e) e
  exact ((hereditary_everywhere fun _ _ _ => trivial).taken hb n hn).here

end Blocks

/-! ## All rewrites -/

theorem improves_branch {i : Nat} {s : Span} {c : Node} {t f : List Node} :
    Improves (execAt host j ⟨i, s, .branch c t f⟩ e)
      (execAt host j ⟨i, s, .branch (stripNots c).1 (if (stripNots c).2 then f else t)
        (if (stripNots c).2 then t else f)⟩ e) :=
  improves_stripNots c (fun b => block (Rules.upTo host j).exec b e) t f

theorem improves_fuse {i k : Nat} {s s' : Span} {rs irs : List Node} :
    Improves (execAt host j ⟨i, s, .loop rs [⟨k, s', .loop irs b []⟩] []⟩ e)
      (execAt host j ⟨i, s, .loop (rs ++ irs) b []⟩ e) :=
  (prolongs_fused (i := i) (s := s) (j + 1) e).improves

theorem Rewrite.improves_eval (h : Rewrite n n') (horder : ∀ x, n.kind = .unary .not x → ¬ x.IsOrder)
    (e : Env) : Improves (evalAt host j n e) (evalAt host j n' e) := by
  cases h with
  | keep => exact .refl _
  | unaryLiteral hx hop => exact improves_unaryLiteral hx hop
  | invert hx hop => exact improves_invert hx hop (horder _ rfl)
  | binaryLiteral hl hr hop => exact improves_binaryLiteral hl hr hop
  | @conjLiteral _ _ _ _ v hl =>
    rw [show (if v.isTruthy then _ else _) = if v.isTruthy = false then _ else _ by cases v.isTruthy <;> rfl]
    exact improves_joinedLiteral false hl
  | conjNegations hl hr => exact improves_joinedNegations false hl hr
  | disjLiteral hl => exact improves_joinedLiteral true hl
  | disjNegations hl hr => exact improves_joinedNegations true hl hr
  | condLiteral hc => exact improves_condLiteral hc
  | cond => exact improves_cond
  | array hes => exact improves_array hes
  | object hes => exact improves_object hes
  | branch | fuse | returnReduction => exact .ofFail

theorem Rewrite.improves_exec (h : Rewrite n n')
    (hlone : ∀ name ps g b, n.kind = .function name ps g b → ¬ LoneReduction b) (e : Env) :
    Improves (execAt host j n e) (execAt host j n' e) := by
  cases h with
  | keep => exact .refl _
  | branch => exact improves_branch
  | fuse => exact improves_fuse
  | returnReduction hx => exact absurd ⟨_, _, _, rfl, hx⟩ (hlone _ _ _ _ rfl)
  | _ => exact .ofFail

end Motif.Simplify
