import Motif.Proofs.Eval.Fuel

/-!
# What runs conclude with

Facts about runs with enough fuel, in which fuel is not mentioned. A run in two parts concludes as the
second part does, unless the first one fails (`concludes_bind_iff`). Conditions that are tested in turn
are tested up to the first one that does not hold or fails (`InTurn`), and a chain of conjunctions that
is nested to the left tests its terms in turn.
-/

namespace Motif.Eval

open List

variable {α β : Type} {m m' m₁ m₂ : Machine} {host : Host} {env : Env} {result : Except EvalError Bool}
  {x : Nat → Run α} {args : List Val} {xs : List (Nat → Run Bool)} {params : List Node}
  {template : Option Node} {variadic : Bool} {name : String}

/-! ## Runs with more and more fuel -/

def Growing (x : Nat → Run α) : Prop := ∀ fuel, Prolongs (x fuel) (x (fuel + 1))

theorem Growing.le (h : Growing x) {k n : Nat} (hkn : k ≤ n) : Prolongs (x k) (x n) := by
  induction hkn with
  | refl => exact .refl _
  | step _ ih => exact ih.trans (h _)

theorem Growing.run_eq (h : Growing x) {k n : Nat} (hkn : k ≤ n) {result : Except EvalError α}
    (hk : (x k).run.run m = (result.mapError .error, m')) :
    (x n).run.run m = (result.mapError .error, m') := by
  rcases h.le hkn m with hout | heq
  · rw [hk] at hout
    cases result <;> cases hout
  · exact heq.trans hk

theorem Growing.const (x : Run α) : Growing fun _ => x := fun _ => .refl _

section Judgements

variable (host : Host)

theorem growing_exec (n : Node) (env : Env) : Growing fun fuel => (Rules.upTo host fuel).exec n env :=
  fun fuel => (Rules.prolongs_upTo_succ host fuel).exec n env

theorem growing_block (body : List Node) (env : Env) :
    Growing fun fuel => block (Rules.upTo host fuel).exec body env :=
  fun fuel => ((Rules.keeps_upTo_succ host fuel).block (prolonging.body body)
    (prolonging.scope env)).1

theorem growing_call (f : Val) (args : List Val) : Growing fun fuel => (Rules.upTo host fuel).call f args :=
  fun fuel => (Rules.prolongs_upTo_succ host fuel).call f args

theorem growing_admits (guard : Option Node) (env : Env) :
    Growing fun fuel => admits (Rules.upTo host fuel) guard env :=
  fun fuel => ((Rules.keeps_upTo_succ host fuel).admits (fun _ _ => trivial)
    (prolonging.scope env)).1

theorem growing_matchesPattern (pattern : Node) (subject : Val) (env : Env) :
    Growing fun fuel => matchesPattern host (Rules.upTo host fuel) pattern subject env :=
  fun fuel => ((Rules.keeps_upTo_succ host fuel).matchesPattern (fun _ _ => trivial) trivial
    (prolonging.scope env)).1

theorem growing_enterBody (body : Body) (env : Env) :
    Growing fun fuel => enterBody (Rules.upTo host fuel) body env :=
  fun fuel => ((Rules.keeps_upTo_succ host fuel).enterBody (prolonging.enters body)
    (prolonging.scope env)).1

end Judgements

/-! ## Conclusions -/

theorem concludes_pure_iff {a : α} {result : Except EvalError α} :
    Concludes (fun _ => pure a) m result m' ↔ result = .ok a ∧ m' = m := by
  constructor
  · rintro ⟨_, h⟩
    cases result with
    | ok b =>
      cases h
      exact ⟨rfl, rfl⟩
    | error e => cases h
  · rintro ⟨rfl, rfl⟩
    exact ⟨0, rfl⟩

theorem concludes_fail_iff {e : EvalError} {result : Except EvalError α} :
    Concludes (fun _ => fail e) m result m' ↔ result = .error e ∧ m' = m := by
  constructor
  · rintro ⟨_, h⟩
    cases result with
    | ok b => cases h
    | error e =>
      cases h
      exact ⟨rfl, rfl⟩
  · rintro ⟨rfl, rfl⟩
    exact ⟨0, rfl⟩

/-- A run in two parts concludes as the second part does, or with the error of the first part. -/
theorem concludes_bind_iff {f : Nat → α → Run β} (hx : Growing x) (hf : ∀ a, Growing fun fuel => f fuel a)
    {result : Except EvalError β} : Concludes (fun fuel => x fuel >>= f fuel) m result m' ↔
      (∃ a m₁, Concludes x m (.ok a) m₁ ∧ Concludes (fun fuel => f fuel a) m₁ result m') ∨
        ∃ e, result = .error e ∧ Concludes x m (.error e) m' := by
  constructor
  · rintro ⟨fuel, h⟩
    rw [ExceptT.run_bind, StateT.run_bind] at h
    rcases hrun : (x fuel).run.run m with ⟨stop | a, m₁⟩
    · rw [hrun] at h
      cases result with
      | ok b => cases h
      | error e =>
        cases h
        exact .inr ⟨e, rfl, fuel, hrun⟩
    · rw [hrun] at h
      exact .inl ⟨a, m₁, ⟨fuel, hrun⟩, fuel, h⟩
  · rintro (⟨a, m₁, ⟨k, hk⟩, l, hl⟩ | ⟨e, rfl, k, hk⟩)
    · refine ⟨max k l, ?_⟩
      rw [ExceptT.run_bind, StateT.run_bind, hx.run_eq (Nat.le_max_left k l) hk]
      exact (hf a).run_eq (Nat.le_max_right k l) hl
    · refine ⟨k, ?_⟩
      rw [ExceptT.run_bind, StateT.run_bind, hk]
      rfl

theorem concludes_succ_iff {y : Nat → Run α} (hzero : x 0 = throw .outOfFuel)
    (hsucc : ∀ fuel, x (fuel + 1) = y fuel) {result : Except EvalError α} :
    Concludes x m result m' ↔ Concludes y m result m' := by
  constructor
  · rintro ⟨_ | fuel, h⟩
    · rw [hzero] at h
      cases result <;> cases h
    · exact ⟨fuel, hsucc fuel ▸ h⟩
  · rintro ⟨fuel, h⟩
    exact ⟨fuel + 1, (hsucc fuel).symm ▸ h⟩

/-! ## Conditions in turn -/

/-- Conditions are tested in turn. The first one that does not hold ends the test, and so does one
    that fails. -/
inductive InTurn : List (Nat → Run Bool) → Machine → Except EvalError Bool → Machine → Prop where
  | passed {m : Machine} : InTurn [] m (.ok true) m
  | holds {x : Nat → Run Bool} {xs : List (Nat → Run Bool)} {m m₁ m₂ : Machine}
      {result : Except EvalError Bool} (h : Concludes x m (.ok true) m₁)
      (hrest : InTurn xs m₁ result m₂) : InTurn (x :: xs) m result m₂
  | stops {x : Nat → Run Bool} {xs : List (Nat → Run Bool)} {m m₁ : Machine}
      (h : Concludes x m (.ok false) m₁) : InTurn (x :: xs) m (.ok false) m₁
  | fails {x : Nat → Run Bool} {xs : List (Nat → Run Bool)} {m m₁ : Machine} {e : EvalError}
      (h : Concludes x m (.error e) m₁) : InTurn (x :: xs) m (.error e) m₁

theorem inTurn_singleton_iff {x : Nat → Run Bool} : InTurn [x] m result m' ↔ Concludes x m result m' := by
  constructor
  · intro h
    cases h with
    | holds h hrest =>
      cases hrest
      exact h
    | stops h => exact h
    | fails h => exact h
  · intro h
    cases result with
    | error e => exact .fails h
    | ok b =>
      cases b with
      | true => exact .holds h .passed
      | false => exact .stops h

theorem inTurn_concat_iff {x : Nat → Run Bool} : InTurn (xs ++ [x]) m result m' ↔
      (∃ m₁, InTurn xs m (.ok true) m₁ ∧ Concludes x m₁ result m') ∨
        result ≠ .ok true ∧ InTurn xs m result m' := by
  induction xs generalizing m with
  | nil =>
    rw [nil_append, inTurn_singleton_iff]
    constructor
    · intro h
      exact .inl ⟨m, .passed, h⟩
    · rintro (⟨m₁, hnil, h⟩ | ⟨hne, hnil⟩)
      · cases hnil
        exact h
      · cases hnil
        exact absurd rfl hne
  | cons y ys ih =>
    rw [cons_append]
    constructor
    · intro h
      cases h with
      | holds h hrest =>
        rcases ih.mp hrest with ⟨m₁, hys, hx⟩ | ⟨hne, hys⟩
        · exact .inl ⟨m₁, .holds h hys, hx⟩
        · exact .inr ⟨hne, .holds h hys⟩
      | stops h => exact .inr ⟨by simp, .stops h⟩
      | fails h => exact .inr ⟨by simp, .fails h⟩
    · rintro (⟨m₁, hys, hx⟩ | ⟨hne, hys⟩)
      · cases hys with
        | holds h hrest => exact .holds h (ih.mpr (.inl ⟨m₁, hrest, hx⟩))
      · cases hys with
        | holds h hrest => exact .holds h (ih.mpr (.inr ⟨hne, hrest⟩))
        | stops h => exact .stops h
        | fails h => exact .fails h

theorem inTurn_nil_iff : InTurn [] m result m' ↔ result = .ok true ∧ m' = m := by
  constructor
  · intro h
    cases h
    exact ⟨rfl, rfl⟩
  · rintro ⟨rfl, rfl⟩
    exact .passed

def SameConclusions (x y : Nat → Run α) : Prop :=
  ∀ m result m', Concludes x m result m' ↔ Concludes y m result m'

theorem inTurn_congr {ys : List (Nat → Run Bool)} (h : Forall₂ SameConclusions xs ys) :
    InTurn xs m result m' ↔ InTurn ys m result m' := by
  induction h generalizing m with
  | nil => exact Iff.rfl
  | cons hxy _ ih =>
    constructor
    · intro h
      cases h with
      | holds h hrest => exact .holds ((hxy _ _ _).mp h) (ih.mp hrest)
      | stops h => exact .stops ((hxy _ _ _).mp h)
      | fails h => exact .fails ((hxy _ _ _).mp h)
    · intro h
      cases h with
      | holds h hrest => exact .holds ((hxy _ _ _).mpr h) (ih.mpr hrest)
      | stops h => exact .stops ((hxy _ _ _).mpr h)
      | fails h => exact .fails ((hxy _ _ _).mpr h)

/-! ## Conjunctions -/

inductive Conjunction : List Node → Node → Prop where
  | single (n : Node) : Conjunction [n] n
  | join {i : Nat} {span : Span} {terms : List Node} {left : Node} (right : Node)
      (h : Conjunction terms left) : Conjunction (terms ++ [right]) ⟨i, span, .conj left right⟩

/-- A guard that is made of such terms; there is none if there are no terms. -/
inductive Joined : List Node → Option Node → Prop where
  | none : Joined [] .none
  | some {terms : List Node} {g : Node} (h : Conjunction terms g) : Joined terms (.some g)

def condition (host : Host) (env : Env) (n : Node) (fuel : Nat) : Run Bool :=
  admits (Rules.upTo host fuel) (some n) env

theorem growing_condition (n : Node) : Growing (condition host env n) := growing_admits host (some n) env

theorem condition_conj (i : Nat) (span : Span) (left right : Node) (fuel : Nat) :
    condition host env ⟨i, span, .conj left right⟩ (fuel + 1) = (do
      if ← condition host env left fuel then condition host env right fuel else return false) := by
  show ((do
    let l ← (Rules.upTo host fuel).eval left env
    if l.isTruthy then (Rules.upTo host fuel).eval right env else return l) >>= fun v =>
      pure v.isTruthy) = (((Rules.upTo host fuel).eval left env >>= fun l => pure l.isTruthy) >>= _)
  rw [bind_assoc, bind_assoc]
  refine bind_congr fun l => ?_
  rw [pure_bind]
  by_cases hl : l.isTruthy = true
  · rw [if_pos hl, hl]
    rfl
  · rw [if_neg hl, pure_bind, eq_false_of_ne_true hl]
    rfl

theorem Conjunction.concludes_iff {terms : List Node} {g : Node} (h : Conjunction terms g) :
    Concludes (condition host env g) m result m' ↔ InTurn (terms.map (condition host env)) m result m' := by
  induction h generalizing m result m' with
  | single n => exact inTurn_singleton_iff.symm
  | @join i span terms left right h ih =>
    have hfalse {result : Except EvalError Bool} {m₁ : Machine} :
        Concludes (fun _ => (pure false : Run Bool)) m₁ result m' ↔ result = .ok false ∧ m' = m₁ :=
      concludes_pure_iff
    rw [concludes_succ_iff rfl (condition_conj i span left right), concludes_bind_iff
      (growing_condition left) (fun b => ?_), map_append, map_singleton, inTurn_concat_iff]
    · constructor
      · rintro (⟨b, m₁, hleft, hright⟩ | ⟨e, rfl, hleft⟩)
        · cases b with
          | true => exact .inl ⟨m₁, ih.mp hleft, hright⟩
          | false =>
            obtain ⟨rfl, rfl⟩ := hfalse.mp hright
            exact .inr ⟨by simp, ih.mp hleft⟩
        · exact .inr ⟨by simp, ih.mp hleft⟩
      · rintro (⟨m₁, hleft, hright⟩ | ⟨hne, hleft⟩)
        · exact .inl ⟨true, m₁, ih.mpr hleft, hright⟩
        · match result, hne with
          | .error e, _ => exact .inr ⟨e, rfl, ih.mpr hleft⟩
          | .ok false, _ => exact .inl ⟨false, m', ih.mpr hleft, hfalse.mpr ⟨rfl, rfl⟩⟩
    · cases b with
      | true => exact growing_condition right
      | false => exact .const _

theorem Joined.concludes_iff {terms : List Node} {guard : Option Node} (h : Joined terms guard) :
    Concludes (fun fuel => admits (Rules.upTo host fuel) guard env) m result m' ↔
      InTurn (terms.map (condition host env)) m result m' := by
  cases h with
  | none => exact concludes_pure_iff.trans inTurn_nil_iff.symm
  | some h => exact h.concludes_iff

/-! ## Tests of names -/

def applies (host : Host) (env : Env) (test : Node × String) (fuel : Nat) : Run Bool := do
  matchesPattern host (Rules.upTo host fuel) test.1 (← lookup host test.2 env) env

inductive IsApplication : Node × String → Node → Prop where
  | mk {i j k : Nat} {span span' span'' : Span} {template : Node} {name : String} :
      IsApplication (⟨k, span'', .pattern template⟩, name)
        ⟨i, span, .call ⟨k, span'', .pattern template⟩ [⟨j, span', .ident name⟩]⟩

theorem growing_applies (test : Node × String) : Growing (applies host env test) := fun fuel =>
  (Prolongs.refl _).bind fun _ subject _ _ => growing_matchesPattern host test.1 subject env fuel

theorem IsApplication.sameConclusions {test : Node × String} {term : Node}
    (h : IsApplication test term) : SameConclusions (applies host env test) (condition host env term) := by
  intro m result m'
  cases h with
  | @mk i j k span span' span'' template name => ?_
  have hrun (fuel : Nat) : condition host env ⟨i, span, .call ⟨k, span'', .pattern template⟩
      [⟨j, span', .ident name⟩]⟩ (fuel + 2) = applies host env (⟨k, span'', .pattern template⟩, name)
        (fuel + 1) := by
    show ((lookup host name env >>= fun subject =>
      matchesPattern host (Rules.upTo host (fuel + 1)) _ subject env >>= fun b => pure (Val.bool b)) >>=
        fun v => pure v.isTruthy) = _
    rw [bind_assoc]
    refine bind_congr fun subject => ?_
    rw [bind_assoc]
    exact (bind_congr fun b => pure_bind _ _).trans (bind_pure _)
  constructor
  · refine Concludes.imp fun fuel => ⟨fuel + 2, ?_⟩
    rw [hrun]
    exact growing_applies _ fuel
  · refine Concludes.imp fun fuel => ?_
    match fuel with
    | 0 => exact ⟨0, .outOfFuel⟩
    | 1 => exact ⟨0, .outOfFuel⟩
    | fuel + 2 => exact ⟨fuel + 1, by rw [hrun]; exact .refl _⟩

/-! ## Arguments -/

theorem mapM_asData (values : List Value) : (values.map Val.data).mapM asData = pure values := by
  induction values with
  | nil => rfl
  | cons v values ih =>
    rw [map_cons, mapM_cons, ih]
    rfl

theorem gives_mapM_asData_inv {values : List Value} (h : Gives (args.mapM asData) m values m') :
    args = values.map Val.data ∧ m' = m := by
  induction args generalizing values m with
  | nil =>
    obtain ⟨rfl, rfl⟩ := gives_pure_inv h
    exact ⟨rfl, rfl⟩
  | cons arg args ih =>
    rw [mapM_cons] at h
    obtain ⟨v, m₁, hv, h⟩ := h.bind_inv
    obtain ⟨vs, m₂, hvs, h⟩ := h.bind_inv
    obtain ⟨rfl, rfl⟩ := gives_pure_inv h
    cases arg with
    | data d =>
      obtain ⟨rfl, rfl⟩ := gives_pure_inv hv
      obtain ⟨rfl, rfl⟩ := ih hvs
      exact ⟨rfl, rfl⟩
    | _ => exact absurd hv not_gives_fail

theorem argument_of_gives {v : Val} (h : Gives (argument variadic args) m v m') :
    argument variadic args = pure v ∧ m' = m := by
  cases variadic with
  | false =>
    obtain ⟨rfl, rfl⟩ := gives_pure_inv h
    exact ⟨rfl, rfl⟩
  | true =>
    obtain ⟨values, m₁, hvalues, h⟩ := Gives.bind_inv h
    obtain ⟨rfl, rfl⟩ := gives_pure_inv h
    obtain ⟨rfl, rfl⟩ := gives_mapM_asData_inv hvalues
    refine ⟨?_, rfl⟩
    rw [argument, if_pos rfl, mapM_asData]
    rfl

theorem get?_bindParams_of_ne {scope : Env} (h : Gives (bindParams params args scope) m env m')
    (hname : ∀ p ∈ params, ∀ template variadic, p.kind ≠ .param name template variadic) :
    Dict.get? name env = Dict.get? name scope := by
  induction params generalizing args scope m with
  | nil =>
    obtain ⟨rfl, rfl⟩ := gives_pure_inv h
    rfl
  | cons p params ih =>
    obtain ⟨hp, hparams⟩ := forall_mem_cons.mp hname
    rw [bindParams] at h
    split at h
    · rename_i other template variadic hkind
      obtain ⟨v, m₁, -, h⟩ := h.bind_inv
      rw [ih h hparams, Dict.get?_set, if_neg]
      rintro rfl
      exact hp template variadic hkind
    · exact absurd h not_gives_fail

theorem get?_bindParams {scope : Env} {i : Nat} {p : Node}
    (h : Gives (bindParams params args scope) m env m') (hp : params[i]? = some p)
    (hkind : p.kind = .param name template variadic)
    (hlast : ∀ q ∈ params.drop (i + 1), ∀ template variadic, q.kind ≠ .param name template variadic) :
    ∃ v, argument variadic (args.drop i) = pure v ∧ Dict.get? name env = some v := by
  induction params generalizing args scope m i with
  | nil => cases hp
  | cons q params ih =>
    rw [bindParams] at h
    split at h
    · obtain ⟨v, m₁, hv, h⟩ := h.bind_inv
      cases i with
      | zero =>
        cases hp
        rename_i other template' variadic' hkind'
        cases hkind.symm.trans hkind'
        refine ⟨v, (argument_of_gives hv).1, ?_⟩
        rw [get?_bindParams_of_ne h hlast, Dict.get?_set, if_pos rfl]
      | succ i =>
        rw [← drop_tail]
        exact ih h hp hlast
    · exact absurd h not_gives_fail

theorem exists_last_param {i : Nat} {p : Node} (hp : params[i]? = some p)
    (hkind : p.kind = .param name template variadic) : ∃ j q template' variadic', i ≤ j ∧ params[j]? = some q ∧
      q.kind = .param name template' variadic' ∧
      ∀ r ∈ params.drop (j + 1), ∀ template variadic, r.kind ≠ .param name template variadic := by
  induction params generalizing i p template variadic with
  | nil => cases hp
  | cons q params ih =>
    cases i with
    | succ i =>
      obtain ⟨j, last, template', variadic', hj, h⟩ := ih hp hkind
      exact ⟨j + 1, last, template', variadic', Nat.succ_le_succ hj, h⟩
    | zero =>
      cases hp
      -- The parameter is the last one, or another one after it has the name.
      by_cases hlater : ∀ r ∈ params, ∀ template variadic, r.kind ≠ .param name template variadic
      · exact ⟨0, q, template, variadic, Nat.le_refl _, rfl, hkind, hlater⟩
      · push Not at hlater
        obtain ⟨r, hr, _, _, hrkind⟩ := hlater
        obtain ⟨k, hk⟩ := mem_iff_getElem?.mp hr
        obtain ⟨j, last, template', variadic', -, h⟩ := ih hk hrkind
        exact ⟨j + 1, last, template', variadic', Nat.zero_le _, h⟩

end Motif.Eval
