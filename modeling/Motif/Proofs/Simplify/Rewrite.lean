import Motif.Pass.Simplify
import Motif.Proofs.Tree.Layer

/-!
# What simplification does to a node

`Rewrite` lists the rules of simplification as a relation between a node whose parts are simplified
and what takes its place. A tree is simplified by relating its layers child by child and rewriting
each layer; everything that is proved about the pass goes through `Becomes.layer`.
-/

namespace Motif.Simplify

variable {n' : Node}

/-- A node whose parts are simplified, and what takes its place. -/
inductive Rewrite : Node → Node → Prop where
  | keep (n) : Rewrite n n
  | unaryLiteral {i s op x v w} (hx : x.literal? = some v) (hop : UnaryOp.eval? op v = some w) :
      Rewrite ⟨i, s, .unary op x⟩ ⟨i, s, .literal w⟩
  | invert {i s x op op' l r} (hx : x.kind = .binary op l r) (hop : op.inverse? = some op') :
      Rewrite ⟨i, s, .unary .not x⟩ ⟨i, s, .binary op' l r⟩
  | binaryLiteral {i s op l r v w u} (hl : l.literal? = some v) (hr : r.literal? = some w)
      (hop : BinaryOp.eval? op v w = some u) : Rewrite ⟨i, s, .binary op l r⟩ ⟨i, s, .literal u⟩
  | conjLiteral {i s l r v} (hl : l.literal? = some v) :
      Rewrite ⟨i, s, .conj l r⟩ (if v.isTruthy then r else l)
  | conjNegations {i s l r a b j} (hl : negated? l = some a) (hr : negated? r = some b) :
      Rewrite ⟨i, s, .conj l r⟩ ⟨i, s, .unary .not ⟨j, s, .disj a b⟩⟩
  | disjLiteral {i s l r v} (hl : l.literal? = some v) :
      Rewrite ⟨i, s, .disj l r⟩ (if v.isTruthy then l else r)
  | disjNegations {i s l r a b j} (hl : negated? l = some a) (hr : negated? r = some b) :
      Rewrite ⟨i, s, .disj l r⟩ ⟨i, s, .unary .not ⟨j, s, .conj a b⟩⟩
  | condLiteral {i s c x y v} (hc : (stripNots c).1.literal? = some v) :
      Rewrite ⟨i, s, .cond c x y⟩ (if v.isTruthy != (stripNots c).2 then x else y)
  | cond {i s c x y} :
      Rewrite ⟨i, s, .cond c x y⟩ ⟨i, s, .cond (stripNots c).1 (if (stripNots c).2 then y else x)
        (if (stripNots c).2 then x else y)⟩
  | array {i s es vs} (hes : es.mapM Node.literal? = some vs) :
      Rewrite ⟨i, s, .array es⟩ ⟨i, s, .literal (.array vs)⟩
  | object {i s es vs} (hes : es.mapM literalEntry? = some vs) :
      Rewrite ⟨i, s, .object es⟩ ⟨i, s, .literal (.object vs)⟩
  | branch {i s c t f} :
      Rewrite ⟨i, s, .branch c t f⟩ ⟨i, s, .branch (stripNots c).1
        (if (stripNots c).2 then f else t) (if (stripNots c).2 then t else f)⟩
  | fuse {i s rs j s' irs b} :
      Rewrite ⟨i, s, .loop rs [⟨j, s', .loop irs b []⟩] []⟩ ⟨i, s, .loop (rs ++ irs) b []⟩
  | returnReduction {i s name ps g j s' e} (he : e.tag = .reduce) :
      Rewrite ⟨i, s, .function name ps g [⟨j, s', .exprStmt e⟩]⟩
        ⟨i, s, .function name ps g [⟨j, s', .ret e⟩]⟩

/-! ## The rules, one by one -/

section Rules

variable {i : Nat} {s : Span}

theorem rewrite_unary (op : UnaryOp) (x : Node) :
    Rewrite ⟨i, s, .unary op x⟩ (unary ⟨i, s, .unary op x⟩ op x) := by
  unfold unary
  split
  · rename_i w hw
    obtain ⟨v, hv, hop⟩ := Option.bind_eq_some_iff.mp hw
    exact .unaryLiteral hv hop
  · split
    · rename_i op l r hk _
      split
      · rename_i op' hop
        exact .invert hk hop
      · exact .keep _
    · exact .keep _

theorem rewrite_binary (op : BinaryOp) (l r : Node) :
    Rewrite ⟨i, s, .binary op l r⟩ (binary ⟨i, s, .binary op l r⟩ op l r) := by
  unfold binary
  split
  · rename_i hl hr
    split
    · rename_i hop
      exact .binaryLiteral hl hr hop
    · exact .keep _
  · exact .keep _

theorem rewrite_conj {l r : Node} (h : Yields (conj ⟨i, s, .conj l r⟩ l r) n') :
    Rewrite ⟨i, s, .conj l r⟩ n' := by
  unfold conj at h
  split at h
  · rename_i hl
    rw [h.pure_eq]
    exact .conjLiteral hl
  · split at h
    · rename_i hl hr
      obtain ⟨j, -, rfl⟩ := h.bind_pure
      exact .conjNegations hl hr
    · rw [h.pure_eq]
      exact .keep _

theorem rewrite_disj {l r : Node} (h : Yields (disj ⟨i, s, .disj l r⟩ l r) n') :
    Rewrite ⟨i, s, .disj l r⟩ n' := by
  unfold disj at h
  split at h
  · rename_i hl
    rw [h.pure_eq]
    exact .disjLiteral hl
  · split at h
    · rename_i hl hr
      obtain ⟨j, -, rfl⟩ := h.bind_pure
      exact .disjNegations hl hr
    · rw [h.pure_eq]
      exact .keep _

theorem rewrite_cond (c x y : Node) : Rewrite ⟨i, s, .cond c x y⟩ (cond ⟨i, s, .cond c x y⟩ c x y) := by
  have hlit {v : Value} (hv : (stripNots c).1.literal? = some v) :=
    Rewrite.condLiteral (i := i) (s := s) (x := x) (y := y) hv
  have hcond := Rewrite.cond (i := i) (s := s) (c := c) (x := x) (y := y)
  unfold cond
  generalize stripNots c = c' at *
  obtain ⟨c', odd⟩ := c'
  cases odd with
  | false =>
    dsimp only
    split
    · rename_i v hv
      simpa using hlit hv
    · exact hcond
  | true =>
    dsimp only
    split
    · rename_i v hv
      have := hlit hv
      cases htruthy : v.isTruthy <;> simpa [htruthy] using this
    · exact hcond

theorem rewrite_branch (c : Node) (t f : List Node) :
    Rewrite ⟨i, s, .branch c t f⟩ (branch ⟨i, s, .branch c t f⟩ c t f) := by
  have hbranch := Rewrite.branch (i := i) (s := s) (c := c) (t := t) (f := f)
  unfold branch
  generalize stripNots c = c' at *
  obtain ⟨c', odd⟩ := c'
  cases odd <;> exact hbranch

theorem rewrite_array (es : List Node) : Rewrite ⟨i, s, .array es⟩ (array ⟨i, s, .array es⟩ es) := by
  unfold array
  split
  · rename_i hes
    exact .array hes
  · exact .keep _

theorem rewrite_object (es : List Node) : Rewrite ⟨i, s, .object es⟩ (object ⟨i, s, .object es⟩ es) := by
  unfold object
  split
  · rename_i hes
    exact .object hes
  · exact .keep _

theorem rewrite_fuse (rs b f : List Node) :
    Rewrite ⟨i, s, .loop rs b f⟩ (fuse ⟨i, s, .loop rs b f⟩ rs b f) := by
  unfold fuse
  split
  · exact .fuse
  · exact .keep _

theorem rewrite_returnReduction (name : String) (ps : List Node) (g : Option Node) (b : List Node) :
    Rewrite ⟨i, s, .function name ps g b⟩ (returnReduction ⟨i, s, .function name ps g b⟩ name ps g b) := by
  unfold returnReduction
  split
  · split
    · rename_i he
      exact .returnReduction (by simpa using he)
    · exact .keep _
  · exact .keep _

end Rules

theorem rewrite_of_step {n : Node} (h : Yields (step n) n') : Rewrite n n' := by
  obtain ⟨i, s, k⟩ := n
  cases k with
  | unary op x => rw [h.pure_eq]; exact rewrite_unary op x
  | binary op l r => rw [h.pure_eq]; exact rewrite_binary op l r
  | conj l r => exact rewrite_conj h
  | disj l r => exact rewrite_disj h
  | cond c x y => rw [h.pure_eq]; exact rewrite_cond c x y
  | branch c t f => rw [h.pure_eq]; exact rewrite_branch c t f
  | array es => rw [h.pure_eq]; exact rewrite_array es
  | object es => rw [h.pure_eq]; exact rewrite_object es
  | loop rs b f => rw [h.pure_eq]; exact rewrite_fuse rs b f
  | function name ps g b => rw [h.pure_eq]; exact rewrite_returnReduction name ps g b
  | _ => rw [h.pure_eq]; exact .keep _

end Motif.Simplify
