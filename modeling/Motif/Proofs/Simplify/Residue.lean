import Motif.Proofs.Simplify.Core
import Motif.Proofs.Value.Order

/-!
# What simplification leaves

The rules of simplification are applied once to each node, from the leaves up, and what they make is not
looked at again. Still no rule is left that could be applied, with one exception: of two joined negations
a negation is made, and that can be one of two joined negations in its turn. `Reduced` says that none of
the other rules applies at a node. It holds of every node of a simplified tree, since the rules hand on
what holds of the parts: an inverted comparison has a result exactly where the comparison has one, what is
under a negation is no literal, and the body that is put in the place of a branch is tidy already.
-/

namespace Motif

open List

def Kind.bodies {α : Type} : Kind α → List (List α)
  | .module body => [body]
  | .branch _ thenBody elseBody => [thenBody, elseBody]
  | .loop _ body elseBody => [body, elseBody]
  | .function _ _ _ body => [body]
  | .reduce _ _ body => [body]
  | .choose _ _ elseBody => [elseBody]
  | .clause _ body => [body]
  | .doBlock body => [body]
  | .generator body => [body]
  | _ => []

theorem Kind.Rel.exists_body {α β : Type} {R K : α → β → Prop} {B : List α → List β → Prop}
    {k : Kind α} {k' : Kind β} (h : Rel R K B k k') {b' : List β} (hb' : b' ∈ k'.bodies) :
    ∃ b, (∀ a ∈ b, a ∈ k.children) ∧ B b b' := by
  cases h with
  | branch hc ht he =>
    rcases mem_pair.mp hb' with rfl | rfl
    · exact ⟨_, by simp +contextual [children], ht⟩
    · exact ⟨_, by simp +contextual [children], he⟩
  | loop hr hb he =>
    rcases mem_pair.mp hb' with rfl | rfl
    · exact ⟨_, by simp +contextual [children], hb⟩
    · exact ⟨_, by simp +contextual [children], he⟩
  | module hb | function _ _ hb | reduce _ _ hb | choose _ _ hb | clause _ hb | doBlock hb
  | generator hb =>
    obtain rfl := mem_singleton.mp hb'
    exact ⟨_, by simp +contextual [children], hb⟩
  | _ => cases hb'

def Node.IsComparison (n : Node) : Prop := ∃ op ∈ n.operator?, op.isComparison

theorem BinaryOp.isComparison_iff (op : BinaryOp) : op.isComparison ↔ op.inverse?.isSome := by
  cases op <;> decide

namespace Simplify

variable {k : Kind Node}

/-! ## Nodes without residue -/

/-- The body is one loop without an alternative. -/
def LoneLoop (b : List Node) : Prop := ∃ i s ranges body, b = [⟨i, s, .loop ranges body []⟩]

/-- No rewrite of a single node applies. -/
def Folded (n : Node) : Prop :=
  match n.kind with
  | .unary op operand =>
    (∀ v, operand.literal? = some v → op.eval? v = none) ∧ (op = .not → ¬ operand.IsComparison)
  | .binary op left right => ∀ v w, left.literal? = some v → right.literal? = some w → op.eval? v w = none
  | .conj left _ => left.literal? = none
  | .disj left _ => left.literal? = none
  | .cond condition _ _ => condition.literal? = none ∧ negated? condition = none
  | .array elements => ∃ e ∈ elements, e.literal? = none
  | .object entries => ∃ e ∈ entries, literalEntry? e = none
  | .branch condition _ _ => negated? condition = none
  | .loop _ body elseBody => elseBody = [] → ¬ LoneLoop body
  | .function _ _ _ body => ¬ LoneReduction body
  | _ => True

/-- No statement is left that lists of statements are rid of. -/
def Tidy (n : Node) : Prop :=
  match n.kind with
  | .branch condition _ _ => condition.literal? = none
  | .exported decl _ => decl = none
  | _ => True

/-- Nothing is left to be done at the node, except for two negations that are joined. -/
structure Reduced (n : Node) : Prop where
  folded : Folded n
  tidy : ∀ body ∈ n.kind.bodies, ∀ s ∈ body, Tidy s

def declaringTags : List Tag := [.declare, .assign, .function, .importAll, .importFrom]

/-- What is exported with a declaration is a statement that can declare. -/
def DeclaringExport (n : Node) : Prop :=
  match n.kind with
  | .exported (some decl) _ => decl.tag ∈ declaringTags
  | _ => True

instance : DecidablePred DeclaringExport := fun n => by
  obtain ⟨i, span, k⟩ := n
  cases k with
  | exported decl => cases decl with
    | none => exact instDecidableTrue
    | some decl => exact inferInstanceAs (Decidable (decl.tag ∈ _))
  | _ => exact instDecidableTrue

variable {i : Nat} {s : Span} {n n' : Node}

theorem reduced_literal (v : Value) : Node.Everywhere Reduced ⟨i, s, .literal v⟩ :=
  .mk ⟨trivial, by simp [Kind.bodies]⟩ (by simp)

theorem reduced_export (items : List ModuleItem) : Reduced ⟨i, s, .exported none items⟩ :=
  ⟨trivial, by simp [Kind.bodies]⟩

theorem hereditary_reduced : Hereditary (Node.Everywhere Reduced) :=
  hereditary_everywhere fun _ _ => reduced_export

theorem reduced_expr (hfolded : Folded ⟨i, s, k⟩) (hbodies : k.bodies = [])
    (h : ∀ c ∈ k.children, c.Everywhere Reduced) : Node.Everywhere Reduced ⟨i, s, k⟩ :=
  .mk ⟨hfolded, by simp [hbodies]⟩ h

/-! ## Negations -/

theorem negated?_stripNots (n : Node) : negated? (stripNots n).1 = none := by
  fun_induction stripNots n with
  | case1 i s x inner odd heq ih => rwa [heq] at ih
  | case2 n hn =>
    obtain ⟨i, s, k⟩ := n
    unfold negated?
    split
    · rename_i x hk
      obtain rfl : k = .unary .not x := hk
      exact (hn i s x rfl).elim
    · rfl

theorem literal?_negated {a : Node} (hn : n.Everywhere Reduced) (ha : negated? n = some a) :
    a.literal? = none := by
  unfold negated? at ha
  split at ha
  · rename_i x hk
    cases ha
    have hfolded := hn.here.folded
    simp only [Folded, hk] at hfolded
    cases hv : a.literal? with
    | none => rfl
    | some v => cases hfolded.1 v hv
  · cases ha

inductive Joins : Kind Node → Node → Node → Prop where
  | conj (left right) : Joins (.conj left right) left right
  | disj (left right) : Joins (.disj left right) left right

/-! ## Expressions -/

theorem reduced_unary (op : UnaryOp) {x : Node} (hx : x.Everywhere Reduced) :
    (unary ⟨i, s, .unary op x⟩ op x).Everywhere Reduced := by
  unfold unary
  split
  · exact reduced_literal _
  · rename_i hnone
    have hliteral (v : Value) (hv : x.literal? = some v) : op.eval? v = none := by
      rwa [hv, Option.bind_some] at hnone
    have hkeep (hcomparison : op = .not → ¬ x.IsComparison) :
        Node.Everywhere Reduced ⟨i, s, .unary op x⟩ :=
      reduced_expr ⟨hliteral, hcomparison⟩ rfl (by simpa using hx)
    split
    · rename_i op' l r hk
      split
      · rename_i inverse hinverse
        -- The operands are those of the comparison, and the inverse has a result on the same ones.
        refine reduced_expr (fun v w hv hw => ?_) rfl fun c hc => hx.child ?_
        · have hfolded := hx.here.folded
          simp only [Folded, hk] at hfolded
          exact (BinaryOp.eval?_inverse_eq_none hinverse v w).mpr (hfolded v w hv hw)
        · simpa [Node.children, hk] using hc
      · rename_i hinverse
        refine hkeep fun _ => ?_
        rintro ⟨op, hop, hcomparison⟩
        simp only [Node.operator?, hk, Option.mem_def, Option.some.injEq] at hop
        rw [← hop, BinaryOp.isComparison_iff, hinverse] at hcomparison
        cases hcomparison
    · rename_i hother
      refine hkeep ?_
      rintro rfl ⟨op, hop, -⟩
      unfold Node.operator? at hop
      split at hop
      · rename_i hk
        exact hother _ _ _ rfl hk
      · cases hop

theorem reduced_binary (op : BinaryOp) {l r : Node} (hl : l.Everywhere Reduced)
    (hr : r.Everywhere Reduced) : (binary ⟨i, s, .binary op l r⟩ op l r).Everywhere Reduced := by
  have hparts : ∀ c ∈ Kind.children (.binary op l r), c.Everywhere Reduced := by
    simpa using ⟨hl, hr⟩
  unfold binary
  split
  · rename_i v w hv hw
    split
    · exact reduced_literal _
    · rename_i hnone
      refine reduced_expr (fun v' w' hv' hw' => ?_) rfl hparts
      rw [hv, Option.some.injEq] at hv'
      rw [hw, Option.some.injEq] at hw'
      rwa [← hv', ← hw']
  · rename_i hother
    exact reduced_expr (fun v w hv hw => (hother v w hv hw).elim) rfl hparts

theorem reduced_negationOf {inner : Kind Node} (hliteral : ∀ j, Node.literal? ⟨j, s, inner⟩ = none)
    (hoperator : ∀ j, Node.operator? ⟨j, s, inner⟩ = none)
    (hinner : ∀ j, Node.Everywhere Reduced ⟨j, s, inner⟩) (h : Yields (negationOf ⟨i, s, k⟩ inner) n') :
    n'.Everywhere Reduced := by
  obtain ⟨j, -, rfl⟩ := h.bind_pure
  refine reduced_expr ⟨fun v hv => ?_, fun _ => ?_⟩ rfl (by simpa using hinner j)
  · rw [hliteral] at hv
    cases hv
  · rintro ⟨op, hop, -⟩
    rw [hoperator] at hop
    cases hop

/-- What takes the place of two joined expressions: one of them, the negation of what is under two
    negations, joined the other way, or the node itself. -/
theorem step_joins_cases {l r : Node} (hk : Joins k l r) (h : Yields (step ⟨i, s, k⟩) n') :
    (n' = l ∨ n' = r) ∨ l.literal? = none ∧
      ((∃ a b k', negated? l = some a ∧ negated? r = some b ∧ Joins k' a b ∧
          Yields (negationOf ⟨i, s, k⟩ k') n') ∨
        (negated? l = none ∨ negated? r = none) ∧ n' = ⟨i, s, k⟩) := by
  cases hl : l.literal? with
  | some v =>
    left
    cases hk with
    | conj =>
      simp only [step, conj, hl] at h
      rw [h.pure_eq]
      split
      · exact .inr rfl
      · exact .inl rfl
    | disj =>
      simp only [step, disj, hl] at h
      rw [h.pure_eq]
      split
      · exact .inl rfl
      · exact .inr rfl
  | none =>
    refine .inr ⟨rfl, ?_⟩
    cases ha : negated? l with
    | none => cases hk <;> simp only [step, conj, disj, hl, ha] at h <;> exact .inr ⟨.inl rfl, h.pure_eq⟩
    | some a =>
      cases hb : negated? r with
      | none =>
        cases hk <;> simp only [step, conj, disj, hl, ha, hb] at h <;> exact .inr ⟨.inr rfl, h.pure_eq⟩
      | some b =>
        refine .inl ⟨a, b, ?_⟩
        cases hk <;> simp only [step, conj, disj, hl, ha, hb] at h
        · exact ⟨_, rfl, rfl, .disj a b, h⟩
        · exact ⟨_, rfl, rfl, .conj a b, h⟩

theorem reduced_joins {l r : Node} (hk : Joins k l r) (hl : l.Everywhere Reduced)
    (hr : r.Everywhere Reduced) (h : Yields (step ⟨i, s, k⟩) n') : n'.Everywhere Reduced := by
  have hjoined {i : Nat} {k : Kind Node} {l r : Node} (hk : Joins k l r) (hliteral : l.literal? = none)
      (hl : l.Everywhere Reduced) (hr : r.Everywhere Reduced) : Node.Everywhere Reduced ⟨i, s, k⟩ := by
    cases hk <;> exact reduced_expr hliteral rfl (by simpa using ⟨hl, hr⟩)
  obtain (rfl | rfl) | ⟨hliteral, ⟨a, b, k', ha, hb, hk', hnegation⟩ | ⟨-, rfl⟩⟩ := step_joins_cases hk h
  · exact hl
  · exact hr
  · have hinner (j : Nat) : Node.Everywhere Reduced ⟨j, s, k'⟩ :=
      hjoined hk' (literal?_negated hl ha) (hereditary_reduced.negated hl ha)
        (hereditary_reduced.negated hr hb)
    cases hk' <;> exact reduced_negationOf (fun _ => rfl) (fun _ => rfl) hinner hnegation
  · exact hjoined hk hliteral hl hr

theorem reduced_cond {c x y : Node} (hc : c.Everywhere Reduced) (hx : x.Everywhere Reduced)
    (hy : y.Everywhere Reduced) : (cond ⟨i, s, .cond c x y⟩ c x y).Everywhere Reduced := by
  have hinner := hereditary_reduced.stripNots c hc
  have hnegated := negated?_stripNots c
  unfold cond
  generalize stripNots c = c' at *
  obtain ⟨c', odd⟩ := c'
  dsimp only at *
  have hbranches : ∀ z ∈ [(if odd then (y, x) else (x, y)).1, (if odd then (y, x) else (x, y)).2],
      z.Everywhere Reduced := by
    cases odd <;> simp [hx, hy]
  generalize (if odd then (y, x) else (x, y)) = xy at *
  simp only [mem_cons, not_mem_nil, or_false, forall_eq_or_imp, forall_eq] at hbranches
  split
  · split
    · exact hbranches.1
    · exact hbranches.2
  · rename_i hliteral
    refine reduced_expr ⟨hliteral, hnegated⟩ rfl ?_
    simpa using ⟨hinner, hbranches⟩

theorem mapM_eq_none_iff {α β : Type} {f : α → Option β} {xs : List α} :
    xs.mapM f = none ↔ ∃ x ∈ xs, f x = none := by
  induction xs with
  | nil => simp
  | cons x xs ih =>
    cases hx : f x with
    | none => simp [hx]
    | some y => cases hxs : xs.mapM f <;> simp_all

theorem reduced_array {es : List Node} (hes : ∀ e ∈ es, e.Everywhere Reduced) :
    (array ⟨i, s, .array es⟩ es).Everywhere Reduced := by
  unfold array
  split
  · exact reduced_literal _
  · rename_i hnone
    exact reduced_expr (mapM_eq_none_iff.mp hnone) rfl hes

theorem reduced_object {es : List Node} (hes : ∀ e ∈ es, e.Everywhere Reduced) :
    (object ⟨i, s, .object es⟩ es).Everywhere Reduced := by
  unfold object
  split
  · exact reduced_literal _
  · rename_i hnone
    exact reduced_expr (mapM_eq_none_iff.mp hnone) rfl hes

/-! ## Statements -/

section Statements

variable {b f : List Node}

theorem reduced_branch {c : Node} {t : List Node} (hc : c.Everywhere Reduced)
    (ht : ∀ n ∈ t, n.Everywhere Reduced) (hf : ∀ n ∈ f, n.Everywhere Reduced) (htidy : ∀ n ∈ t, Tidy n)
    (ftidy : ∀ n ∈ f, Tidy n) : (branch ⟨i, s, .branch c t f⟩ c t f).Everywhere Reduced := by
  have hinner := hereditary_reduced.stripNots c hc
  have hnegated := negated?_stripNots c
  unfold branch
  generalize stripNots c = c' at *
  obtain ⟨c', odd⟩ := c'
  have hbodies {t f : List Node} (ht : ∀ n ∈ t, n.Everywhere Reduced)
      (hf : ∀ n ∈ f, n.Everywhere Reduced) (htidy : ∀ n ∈ t, Tidy n) (ftidy : ∀ n ∈ f, Tidy n) :
      Node.Everywhere Reduced ⟨i, s, .branch c' t f⟩ := by
    refine .mk ⟨hnegated, by simpa [Kind.bodies] using ⟨htidy, ftidy⟩⟩ ?_
    simp only [Node.children, Kind.children, cons_append, mem_cons, mem_append]
    rintro n (rfl | hn | hn)
    · exact hinner
    · exact ht n hn
    · exact hf n hn
  cases odd with
  | false => exact hbodies ht hf htidy ftidy
  | true => exact hbodies hf ht ftidy htidy

theorem reduced_fuse {rs : List Node} (hrs : ∀ n ∈ rs, n.Everywhere Reduced)
    (hb : ∀ n ∈ b, n.Everywhere Reduced) (hf : ∀ n ∈ f, n.Everywhere Reduced) (btidy : ∀ n ∈ b, Tidy n)
    (ftidy : ∀ n ∈ f, Tidy n) : (fuse ⟨i, s, .loop rs b f⟩ rs b f).Everywhere Reduced := by
  unfold fuse
  split
  · rename_i j t irs ib
    -- The inner loop is reduced, so its body is tidy and not a loop in its turn.
    have hinner : Node.Everywhere Reduced ⟨j, t, .loop irs ib []⟩ := hb _ (mem_singleton_self _)
    refine .mk ⟨hinner.here.folded, hinner.here.tidy⟩ fun c hc => ?_
    simp only [Node.children, Kind.children, append_nil, append_assoc, mem_append] at hc
    rcases hc with hc | hc
    · exact hrs c hc
    · exact hinner.child (by simpa using hc)
  · rename_i hother
    refine .mk ⟨?_, by simpa [Kind.bodies] using ⟨btidy, ftidy⟩⟩ ?_
    · rintro rfl ⟨j, t, irs, ib, rfl⟩
      exact hother j t irs ib rfl rfl
    · simp only [Node.children, Kind.children, append_assoc, mem_append]
      rintro c (hc | hc | hc)
      · exact hrs c hc
      · exact hb c hc
      · exact hf c hc

theorem reduced_returnReduction {name : String} {ps : List Node} {g : Option Node}
    (hn : ∀ n ∈ ps ++ g.toList ++ b, n.Everywhere Reduced) (btidy : ∀ n ∈ b, Tidy n) :
    (returnReduction ⟨i, s, .function name ps g b⟩ name ps g b).Everywhere Reduced := by
  have hkeep (hlone : ¬ LoneReduction b) : Node.Everywhere Reduced ⟨i, s, .function name ps g b⟩ :=
    .mk ⟨hlone, by simpa [Kind.bodies] using btidy⟩ hn
  unfold returnReduction
  split
  · rename_i j t e
    have he : e.Everywhere Reduced :=
      (hn ⟨j, t, .exprStmt e⟩ (by simp)).child (by simp)
    have hret : Node.Everywhere Reduced ⟨j, t, .ret e⟩ :=
      reduced_expr trivial rfl (by simpa using he)
    split
    · refine .mk ⟨?_, by simp [Kind.bodies, Tidy]⟩ fun c hc => ?_
      · rintro ⟨i', s', x, hx, -⟩
        cases hx
      · rcases mem_append.mp hc with hc | hc
        · exact hn c (mem_append_left _ hc)
        · rwa [mem_singleton.mp hc]
    · rename_i htag
      refine hkeep ?_
      rintro ⟨i', s', x, hx, hreduce⟩
      cases hx
      exact htag (by simpa using hreduce)
  · rename_i hother
    refine hkeep ?_
    rintro ⟨i', s', x, rfl, -⟩
    exact hother i' s' x rfl

end Statements

theorem reduced_step (hparts : ∀ c ∈ n.children, c.Everywhere Reduced)
    (htidy : ∀ body ∈ n.kind.bodies, ∀ s ∈ body, Tidy s) (h : Yields (step n) n') : n'.Everywhere Reduced := by
  obtain ⟨i, s, k⟩ := n
  cases k with
  | unary op x =>
    rw [h.pure_eq]
    exact reduced_unary op (hparts x (by simp))
  | binary op l r =>
    rw [h.pure_eq]
    exact reduced_binary op (hparts l (by simp))
      (hparts r (by simp))
  | conj l r =>
    exact reduced_joins (.conj l r) (hparts l (by simp))
      (hparts r (by simp)) h
  | disj l r =>
    exact reduced_joins (.disj l r) (hparts l (by simp))
      (hparts r (by simp)) h
  | cond c x y =>
    rw [h.pure_eq]
    exact reduced_cond (hparts c (by simp))
      (hparts x (by simp))
      (hparts y (by simp))
  | array es =>
    rw [h.pure_eq]
    exact reduced_array hparts
  | object es =>
    rw [h.pure_eq]
    exact reduced_object hparts
  | branch c t f =>
    rw [h.pure_eq]
    exact reduced_branch (hparts c (by simp))
      (fun n hn => hparts n (by simp [hn]))
      (fun n hn => hparts n (by simp [hn]))
      (htidy t (by simp [Kind.bodies])) (htidy f (by simp [Kind.bodies]))
  | loop rs b f =>
    rw [h.pure_eq]
    exact reduced_fuse (fun n hn => hparts n (by simp [hn]))
      (fun n hn => hparts n (by simp [hn]))
      (fun n hn => hparts n (by simp [hn]))
      (htidy b (by simp [Kind.bodies])) (htidy f (by simp [Kind.bodies]))
  | function name ps g b =>
    rw [h.pure_eq]
    exact reduced_returnReduction hparts (htidy b (by simp [Kind.bodies]))
  | _ =>
    rw [h.pure_eq]
    exact .mk ⟨trivial, htidy⟩ hparts

/-! ## Statement lists -/

theorem literal?_of_mem_takenBody {m : Node} (hn : Reduced n) (hm : m ∈ takenBody n) {c : Node}
    {t f : List Node} (hk : m.kind = .branch c t f) : c.literal? = none := by
  unfold takenBody at hm
  split at hm
  · rename_i c' t' f' hk'
    split at hm
    · -- The statements of the body that is taken are tidy.
      have htidy : Tidy m := by
        split at hm
        · exact hn.tidy t' (by simp [hk', Kind.bodies]) m hm
        · exact hn.tidy f' (by simp [hk', Kind.bodies]) m hm
      simpa only [Tidy, hk] using htidy
    · rename_i hnone
      obtain rfl := mem_singleton.mp hm
      rw [hk] at hk'
      cases hk'
      exact hnone
  · rename_i hother
    obtain rfl := mem_singleton.mp hm
    exact (hother c t f hk).elim

theorem tidy_of_tag (h : n.tag ∉ [Tag.branch, .exported]) : Tidy n := by
  unfold Tidy
  split
  · rename_i hk
    exact absurd h (by simp [Node.tag, hk, Kind.tag])
  · rename_i hk
    exact absurd h (by simp [Node.tag, hk, Kind.tag])
  · trivial

theorem tidy_of_mem_splitExport {m : Node} (hn : DeclaringExport n)
    (hbranch : ∀ {c t f}, n.kind = .branch c t f → c.literal? = none) (hm : m ∈ splitExport n) : Tidy m := by
  unfold splitExport at hm
  split at hm
  · rename_i d items hk
    simp only [DeclaringExport, hk] at hn
    rcases mem_pair.mp hm with rfl | rfl
    · exact tidy_of_tag ((by decide : ∀ t ∈ declaringTags, t ∉ [Tag.branch, .exported]) _ hn)
    · rfl
  · rename_i hother
    obtain rfl := mem_singleton.mp hm
    unfold Tidy
    split
    · rename_i hk
      exact hbranch hk
    · rename_i d items hk
      cases d with
      | none => rfl
      | some d => exact (hother d items hk).elim
    · trivial

theorem tidy_statements {b : List Node} (hreduced : ∀ n ∈ b, n.Everywhere Reduced)
    (hexports : ∀ n ∈ b, n.Everywhere DeclaringExport) : ∀ s ∈ statements b, Tidy s := by
  intro s hs
  obtain ⟨m, hm, hs⟩ := mem_flatMap.mp hs
  obtain ⟨n, hn, htaken⟩ := mem_flatMap.mp hm
  refine tidy_of_mem_splitExport ?_ (fun hk => ?_) hs
  · exact ((hereditary_everywhere fun _ _ _ => trivial).takenBody (hexports n hn) m htaken).here
  · exact literal?_of_mem_takenBody (hreduced n hn).here htaken hk

/-! ## Whole trees -/

theorem Becomes.declaring {d d' : Node} (h : Becomes d d') (hd : d.tag ∈ declaringTags) :
    d'.tag ∈ declaringTags := by
  obtain ⟨k, hrel, hrw⟩ := h.layer
  have htag : Node.tag ⟨d.id, d.span, k⟩ = d.tag := hrel.tag_eq
  rw [← htag] at hd
  -- A function stays a function, and the other declarations are left in place.
  by_cases hfunction : Node.tag ⟨d.id, d.span, k⟩ = .function
  · rwa [hrw.tag_of_statement (by simp [hfunction])]
  · have hkeep : d' = ⟨d.id, d.span, k⟩ := hrw.eq_of_tag (by
      generalize Node.tag ⟨d.id, d.span, k⟩ = tag at hd hfunction
      revert tag
      decide)
    rwa [hkeep]

theorem Becomes.declaringExport (h : Becomes n n') (hn : n.Everywhere DeclaringExport) :
    n'.Everywhere DeclaringExport := by
  refine h.everywhere (fun m hmade => ?_) (fun _ _ _ => trivial) (fun {n n' k} hn _ hrel _ => ?_) hn
  · unfold DeclaringExport
    split
    · rename_i hk
      exact absurd hmade (by simp [Node.tag, hk, Kind.tag, madeTags, reshapedTags])
    · trivial
  · have hhere := hn.here
    obtain ⟨i, s, k₀⟩ := n
    cases hrel with
    | exported hd =>
      cases hd with
      | none => trivial
      | some hd => exact hd.declaring hhere
    | _ => trivial

theorem Becomes.reduced (h : Becomes n n') (hn : n.Everywhere DeclaringExport) : n'.Everywhere Reduced := by
  induction n using Node.ind generalizing n' with | step n ih => ?_
  obtain ⟨k, hrel, hstep⟩ := h.stepped
  have hchild (c : Node) (hc : c ∈ n.children) (c' : Node) (h : Becomes c c') : c'.Everywhere Reduced :=
    ih c hc h (hn.child hc)
  have hbody {b b' : List Node} (hb : ∀ c ∈ b, c ∈ n.children) (h : BodyBecomes b b') :
      (∀ c ∈ b', c.Everywhere Reduced) ∧ ∀ c ∈ b', Tidy c := by
    obtain ⟨mid, hmid, rfl⟩ := h
    have hmem {m : Node} (hm : m ∈ mid) : ∃ c ∈ n.children, Becomes c m := by
      obtain ⟨c, hc, h⟩ := Kind.exists_of_mem_right hmid hm
      exact ⟨c, hb c hc, h⟩
    have hreduced (m : Node) (hm : m ∈ mid) : m.Everywhere Reduced := by
      obtain ⟨c, hc, h⟩ := hmem hm
      exact hchild c hc m h
    have hexports (m : Node) (hm : m ∈ mid) : m.Everywhere DeclaringExport := by
      obtain ⟨c, hc, h⟩ := hmem hm
      exact h.declaringExport (hn.child hc)
    exact ⟨hereditary_reduced.statements hreduced, tidy_statements hreduced hexports⟩
  refine reduced_step ?_ (fun b' hb' => ?_) hstep
  · exact (hrel.imp hchild (fun c hkey => hchild c (Kind.mem_children_of_mem_keys hkey))
      fun b hb b' h => (hbody hb h).1).forall_children
  · obtain ⟨b, hb, h⟩ := hrel.exists_body hb'
    exact (hbody hb h).2

/-- Simplification leaves nothing that could be folded: if only declarations are declared in exports, then
    no rule applies to any node or statement list of the simplified tree, except where two negations are
    joined. -/
theorem run_reduced (root : Node) (session : Session) (h : root.Everywhere DeclaringExport) :
    ∃ root', (run root session).1 = .ok root' ∧ root'.Everywhere Reduced :=
  ⟨_, rfl, Becomes.reduced (.of_run rfl) h⟩

theorem run_reduced_sum :
    let sum := Kind.binary .add (.ofKind (.literal (.number 1))) (.ofKind (.literal (.number 2)))
    let decl := Kind.assign (.name "x") (.ofKind sum)
    ∃ root', (run (.ofKind (.module [.ofKind (.exported (some (.ofKind decl)) [])]))
        (.startingAt 1)).1 = .ok root' ∧ root'.Everywhere Reduced :=
  run_reduced _ _ (by decide)

end Simplify

end Motif
