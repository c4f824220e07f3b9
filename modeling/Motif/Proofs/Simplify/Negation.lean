import Motif.Pass.Simplify
import Motif.Proofs.Eval.Fuel
import Motif.Proofs.Eval.Host
import Motif.Proofs.Value.Order

/-!
# Negated comparisons

A negated comparison is replaced by the opposite comparison. Where the operands have an order, or where
equality is asked for, the two have the same value. Of two numbers one of which is `NaN` both comparisons
say `false`, so there the negation was true and what replaces it is not.
-/

namespace Motif

namespace Eval

variable {op op' : BinaryOp}

def Val.Unordered : Val → Val → Prop
  | .data v, .data w => v.Unordered w
  | _, _ => False

/-! ## What operators compute -/

theorem unary_not (v : Val) : unary .not v = pure (.bool !v.isTruthy) := by
  cases v <;> rfl

theorem binary_eq_pure {host : Host} (r : Rules) (hop : op ≠ .like) {a b : Val} {d : Value}
    (h : operate? op a b = some d) : binary host r op a b = pure (.data d) := by
  unfold binary
  split
  · exact absurd rfl hop
  · rw [h]

theorem binary_gives_inv {host : Host} {r : Rules} (hop : op ≠ .like) {a b v : Val} {m m' : Machine}
    (h : Gives (binary host r op a b) m v m') : ∃ d, operate? op a b = some d ∧ v = .data d ∧ m' = m := by
  cases hd : operate? op a b with
  | some d =>
    rw [binary_eq_pure r hop hd] at h
    obtain ⟨rfl, rfl⟩ := gives_pure_inv h
    exact ⟨d, rfl, rfl, rfl⟩
  | none =>
    unfold binary at h
    split at h
    · exact absurd rfl hop
    · rw [hd] at h
      exact absurd h not_gives_fail

theorem ne_like_of_inverse (h : op.inverse? = some op') : op ≠ .like ∧ op' ≠ .like := by
  cases op <;> cases h <;> exact ⟨by decide, by decide⟩

theorem operate?_equality (h : op.inverse? = some op') (horder : op ∉ BinaryOp.orders) (a b : Val) :
    operate? op' a b = (operate? op a b).bind UnaryOp.not.eval? := by
  have hdata (v w : Value) : ∃ c, operate? .eq (.data v) (.data w) = some (.bool c) ∧
      operate? .neq (.data v) (.data w) = some (.bool !c) := by
    unfold operate? BinaryOp.eval?
    dsimp only
    cases Value.strictEquals? v w with
    | none => exact ⟨false, rfl, rfl⟩
    | some c => exact ⟨c, rfl, rfl⟩
  have hboth : ∃ c, operate? .eq a b = some (.bool c) ∧ operate? .neq a b = some (.bool !c) := by
    cases a <;> cases b <;> first | exact hdata _ _ | exact ⟨_, rfl, rfl⟩
  obtain ⟨c, heq, hneq⟩ := hboth
  cases op <;> cases h
  case eq =>
    rw [heq, hneq]
    rfl
  case neq =>
    rw [heq, hneq]
    cases c <;> rfl
  all_goals exact absurd (by decide) horder

theorem operate?_inverse (h : op.inverse? = some op') (a b : Val) :
    ((op ∈ BinaryOp.orders ∧ a.Unordered b) ∧ operate? op a b = some (.bool false) ∧
        operate? op' a b = some (.bool false)) ∨ ¬ (op ∈ BinaryOp.orders ∧ a.Unordered b) ∧
        operate? op' a b = (operate? op a b).bind UnaryOp.not.eval? := by
  by_cases horder : op ∈ BinaryOp.orders
  · simp only [BinaryOp.orders, List.mem_cons, List.not_mem_nil, or_false] at horder
    -- Only data has an order.
    rcases horder with rfl | rfl | rfl | rfl
    all_goals
      have hdata := BinaryOp.eval?_inverse h
      cases h
      cases a with
      | data v =>
        cases b with
        | data w => exact hdata v w
        | _ => exact .inr ⟨And.right, rfl⟩
      | _ => exact .inr ⟨And.right, rfl⟩
  · exact .inr ⟨fun both => horder both.1, operate?_equality h horder a b⟩

end Eval

namespace Simplify

open Eval

variable {host : Host} {n x l r : Node} {e : Env} {m m' : Machine} {v : Val} {op op' : BinaryOp}

theorem evalNode_negation (rules : Rules) (hn : negated? n = some x) :
    evalNode host rules n e = rules.eval x e >>= fun v => pure (.bool !v.isTruthy) := by
  unfold negated? at hn
  split at hn
  · rename_i hk
    cases hn
    unfold evalNode
    rw [hk]
    simp only [unary_not]
  · cases hn

/-! ## What negations and comparisons are worth -/

theorem evaluates_negation_iff (hn : negated? n = some x) :
    Evaluates host n e m v m' ↔ ∃ w, Evaluates host x e m w m' ∧ v = .bool !w.isTruthy := by
  constructor
  · rintro ⟨fuel, h⟩
    obtain ⟨j, rfl, heval⟩ := eval_upTo_inv h
    rw [evalNode_negation _ hn] at heval
    obtain ⟨w, m₁, hw, hv⟩ := heval.bind_inv
    obtain ⟨rfl, rfl⟩ := gives_pure_inv hv
    exact ⟨w, ⟨j, hw⟩, rfl⟩
  · rintro ⟨w, ⟨j, hw⟩, rfl⟩
    refine ⟨j + 1, ?_⟩
    show Gives (evalNode host (Rules.upTo host j) n e) m _ m'
    rw [evalNode_negation _ hn]
    exact hw.bind (gives_pure _ _)

theorem evaluates_binary_iff (hn : n.kind = .binary op l r) (hop : op ≠ .like) :
    Evaluates host n e m v m' ↔ ∃ a m₁ b d, Evaluates host l e m a m₁ ∧
      Evaluates host r e m₁ b m' ∧ operate? op a b = some d ∧ v = .data d := by
  have hlayer (rules : Rules) : evalNode host rules n e = (do
      let a ← rules.eval l e
      let b ← rules.eval r e
      Eval.binary host rules op a b) := by
    unfold evalNode
    rw [hn]
  constructor
  · rintro ⟨fuel, h⟩
    obtain ⟨j, rfl, heval⟩ := eval_upTo_inv h
    rw [hlayer] at heval
    obtain ⟨a, m₁, ha, hrest⟩ := heval.bind_inv
    obtain ⟨b, m₂, hb, hv⟩ := hrest.bind_inv
    obtain ⟨d, hd, rfl, rfl⟩ := binary_gives_inv hop hv
    exact ⟨a, m₁, b, d, ⟨j, ha⟩, ⟨j, hb⟩, hd, rfl⟩
  · rintro ⟨a, m₁, b, d, ⟨j, ha⟩, ⟨j', hb⟩, hd, rfl⟩
    -- The operands are run with the fuel of the one that needs more.
    refine ⟨max j j' + 1, ?_⟩
    show Gives (evalNode host (Rules.upTo host (max j j')) n e) m _ m'
    rw [hlayer]
    refine (Rules.eval_upTo_le host (Nat.le_max_left j j') l e ha).bind
      ((Rules.eval_upTo_le host (Nat.le_max_right j j') r e hb).bind ?_)
    rw [binary_eq_pure _ hop hd]
    exact gives_pure _ _

theorem unary_not_of_inverse (hx : x.kind = .binary op l r) (hop : op.inverse? = some op') (n : Node) :
    unary n .not x = ⟨n.id, n.span, .binary op' l r⟩ := by
  have hliteral : x.literal? = none := by simp [Node.literal?, hx]
  simp only [unary, hliteral, hx, hop, Option.bind_none]

theorem evaluates_negated_iff (hn : n.kind = .unary .not x) (hx : x.kind = .binary op l r) (hop : op ≠ .like) :
    Evaluates host n e m v m' ↔ ∃ a m₁ b d, Evaluates host l e m a m₁ ∧
      Evaluates host r e m₁ b m' ∧ operate? op a b = some d ∧ v = .bool !d.isTruthy := by
  have hx' : negated? n = some x := by simp only [negated?, hn]
  rw [evaluates_negation_iff hx']
  constructor
  · rintro ⟨w, hw, rfl⟩
    obtain ⟨a, m₁, b, d, ha, hb, hd, rfl⟩ := (evaluates_binary_iff hx hop).mp hw
    exact ⟨a, m₁, b, d, ha, hb, hd, rfl⟩
  · rintro ⟨a, m₁, b, d, ha, hb, hd, rfl⟩
    exact ⟨.data d, (evaluates_binary_iff hx hop).mpr ⟨a, m₁, b, d, ha, hb, hd, rfl⟩, rfl⟩

/-- A comparison and its opposite are defined on the same values. The opposite has the negated result,
    and a program gets the same value out of it as out of the negated comparison, exactly if it is not an
    order that is asked for between numbers of which one is `NaN`. -/
theorem inverse_negates_iff_ordered {op op' : BinaryOp} (h : op.inverse? = some op') :
    (∀ v w, (op'.eval? v w = none ↔ op.eval? v w = none) ∧
      (op'.eval? v w = (op.eval? v w).bind UnaryOp.not.eval? ↔ ¬ (op ∈ BinaryOp.orders ∧ v.Unordered w))) ∧
    ∀ (host : Host) (n x l r : Node) (env : Env) (m : Machine),
      n.kind = .unary .not x → x.kind = .binary op l r →
      ((∀ v m', Evaluates host n env m v m' ↔ Evaluates host (unary n .not x) env m v m') ↔
        ¬ (op ∈ BinaryOp.orders ∧ ∃ a m₁ b m₂, Evaluates host l env m a m₁ ∧
          Evaluates host r env m₁ b m₂ ∧ a.Unordered b)) := by
  refine ⟨fun v w => ⟨BinaryOp.eval?_inverse_eq_none h v w, BinaryOp.eval?_inverse_iff h v w⟩, ?_⟩
  intro host n x l r env m hn hx
  obtain ⟨hlike, hlike'⟩ := ne_like_of_inverse h
  rw [unary_not_of_inverse hx h n]
  constructor
  · -- Where no order holds, the negation is true and the opposite comparison false.
    rintro hsame ⟨horder, a, m₁, b, m₂, ha, hb, hnone⟩
    obtain ⟨-, hfalse, hfalse'⟩ | ⟨hordered, -⟩ := operate?_inverse h a b
    · have hn := (evaluates_negated_iff hn hx hlike).mpr ⟨a, m₁, b, _, ha, hb, hfalse, rfl⟩
      have hn' := (evaluates_binary_iff (n := ⟨n.id, n.span, _⟩) rfl hlike').mpr
        ⟨a, m₁, b, _, ha, hb, hfalse', rfl⟩
      obtain ⟨heq, -⟩ := ((hsame _ _).mp hn).unique hn'
      cases heq
    · exact hordered ⟨horder, hnone⟩
  · intro hordered v m'
    rw [evaluates_negated_iff hn hx hlike, evaluates_binary_iff rfl hlike']
    have hopposite {a m₁ b m₂} (ha : Evaluates host l env m a m₁)
        (hb : Evaluates host r env m₁ b m₂) :
        operate? op' a b = (operate? op a b).bind UnaryOp.not.eval? := by
      obtain ⟨⟨horder, hnone⟩, -⟩ | ⟨-, heq⟩ := operate?_inverse h a b
      · exact absurd ⟨horder, a, m₁, b, m₂, ha, hb, hnone⟩ hordered
      · exact heq
    constructor
    · rintro ⟨a, m₁, b, d, ha, hb, hd, rfl⟩
      refine ⟨a, m₁, b, .bool !d.isTruthy, ha, hb, ?_, rfl⟩
      rw [hopposite ha hb, hd]
      rfl
    · rintro ⟨a, m₁, b, d', ha, hb, hd', rfl⟩
      rw [hopposite ha hb] at hd'
      obtain ⟨d, hd, hnot⟩ := Option.bind_eq_some_iff.mp hd'
      cases hnot
      exact ⟨a, m₁, b, d, ha, hb, hd, rfl⟩

def less (x y : Float) : Node :=
  ⟨1, .none, .binary .lt ⟨2, .none, .literal (.number x)⟩ ⟨3, .none, .literal (.number y)⟩⟩

theorem evaluates_number (i : Nat) (s : Span) (x : Float) :
    Evaluates (bareHost {}) ⟨i, s, .literal (.number x)⟩ [] {} (.data (.number x)) {} := ⟨1, rfl⟩

theorem inverse_negates_iff_ordered_lt : BinaryOp.gte.eval? (.number 2) (.number 1) =
        (BinaryOp.lt.eval? (.number 2) (.number 1)).bind UnaryOp.not.eval? ∧
      ¬ ∀ v m', Evaluates (bareHost {}) ⟨0, .none, .unary .not (less (0 / 0) 1)⟩ [] {} v m' ↔
        Evaluates (bareHost {}) (unary ⟨0, .none, .unary .not (less (0 / 0) 1)⟩ .not (less (0 / 0) 1))
          [] {} v m' := by
  obtain ⟨hvalues, hruns⟩ := inverse_negates_iff_ordered (rfl : BinaryOp.lt.inverse? = some .gte)
  constructor
  · refine (hvalues _ _).2.mpr fun hnone => ?_
    exact absurd hnone.2 (by decide : ¬ ((2 : Float).isNaN ∨ (1 : Float).isNaN))
  · rw [hruns (bareHost {}) _ _ _ _ [] {} rfl rfl, not_not]
    exact ⟨by decide, _, _, _, _, evaluates_number 2 .none (0 / 0), evaluates_number 3 .none 1,
      .inl rfl⟩

/-- Neither `NaN < 1` nor its opposite holds: the negated comparison is true, and what simplification
    makes of it is false. -/
theorem inverse_negates_not_nan : BinaryOp.lt.eval? (.number (0 / 0)) (.number 1) = some (.bool false) ∧
      BinaryOp.gte.eval? (.number (0 / 0)) (.number 1) = some (.bool false) ∧
      Evaluates (bareHost {}) ⟨0, .none, .unary .not (less (0 / 0) 1)⟩ [] {} (.bool true) {} ∧
      Evaluates (bareHost {}) (unary ⟨0, .none, .unary .not (less (0 / 0) 1)⟩ .not (less (0 / 0) 1))
        [] {} (.bool false) {} :=
  ⟨rfl, rfl, ⟨3, rfl⟩, ⟨2, rfl⟩⟩

end Simplify

end Motif
