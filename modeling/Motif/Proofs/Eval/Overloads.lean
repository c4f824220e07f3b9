import Motif.Proofs.Dict
import Motif.Proofs.Eval.Conclusions
import Motif.Proofs.Tree.Layer

/-!
# Definitions of one name

Functions of one name that are defined one after the other are linked: each has the one before it to
hand over to (`Linked`). Calling the latest of them tries their guards from the latest to the earliest,
each with the arguments bound to the parameters of its own definition, and runs the body of the first
one whose guard holds (`Resolves`). Inside a definition the name stands for the definitions up to it.
-/

namespace Motif.Eval

open List

variable {host : Host} {name : String} {env : Env} {m m' m₁ : Machine} {earlier : List (Code × Val)}
  {result : Except EvalError Val} {code : Code} {previous : Option Val} {overload : Code × Val}

/-! ## Arguments -/

theorem exists_argument (variadic : Bool) (values : List Value) :
    ∃ v, argument variadic (values.map Val.data) = pure v := by
  cases variadic with
  | false => exact ⟨_, rfl⟩
  | true =>
    refine ⟨.data (.array values), ?_⟩
    rw [argument, if_pos rfl, mapM_asData]
    rfl

theorem exists_bindParams {params : List Node} (hparams : ∀ p ∈ params, p.tag = .param)
    (values : List Value) (scope : Env) :
    ∃ inner, bindParams params (values.map Val.data) scope = pure inner := by
  induction params generalizing values scope with
  | nil => exact ⟨scope, rfl⟩
  | cons p params ih =>
    obtain ⟨hp, hrest⟩ := forall_mem_cons.mp hparams
    obtain ⟨i, span, k⟩ := p
    cases k with
    | param x template variadic =>
      obtain ⟨v, hv⟩ := exists_argument variadic values
      obtain ⟨inner, hinner⟩ := ih hrest values.tail (Dict.set x v scope)
      refine ⟨inner, ?_⟩
      show (argument variadic (values.map Val.data) >>= fun v =>
        bindParams params (values.map Val.data).tail (Dict.set x v scope)) = _
      rw [hv, pure_bind, ← map_tail, hinner]
    | _ => cases hp

theorem pure_inj {α : Type} {a b : α} (h : (pure a : Run α) = pure b) : a = b := by
  have hrun := congrArg (fun x => (x.run.run {}).1) h
  cases hrun
  rfl

/-! ## Definitions -/

/-- A statement that defines a function, be it exported in place or not. The id is the function's. -/
inductive Defines (name : String) : Node → Nat → Code → Prop where
  | plain {i : Nat} {span : Span} {params : List Node} {guard : Option Node} {body : List Node} :
      Defines name ⟨i, span, .function name params guard body⟩ i
        { name := some name, params, guard, body := .block body }
  | exported {i j : Nat} {span span' : Span} {params : List Node} {guard : Option Node}
      {body : List Node} :
      Defines name ⟨j, span', .exported (some ⟨i, span, .function name params guard body⟩) []⟩ i
        { name := some name, params, guard, body := .block body }

theorem Defines.name_eq {d : Node} {i : Nat} (h : Defines name d i code) : code.name = some name := by
  cases h <;> rfl

def handsTo (host : Host) (i : Nat) (code : Code) (name : String) (env : Env) : Option Val :=
  if code.guard.isSome && host.annotations.isShadow i then Dict.get? name env else none

theorem Defines.concludes (host : Host) {d : Node} {i : Nat} (h : Defines name d i code) (env : Env)
    (m : Machine) : ∃ stamp m', Concludes (fun fuel => (Rules.upTo host fuel).exec d env) m
      (.ok (.next, Dict.set name (.function stamp code env (handsTo host i code name env)) env)) m' := by
  cases h with
  | plain => exact ⟨m.nextStamp, _, 1, rfl⟩
  | @exported i j span span' params guard body =>
    let code : Code := { name := some name, params, guard, body := .block body }
    let f : Val := .function m.nextStamp code env (handsTo host i code name env)
    have hlookup : lookup host name (Dict.set name f env) = pure f := by
      rw [lookup, Dict.get?_set, if_pos rfl]
    have hrun (fuel : Nat) : ((Rules.upTo host (fuel + 2)).exec ⟨j, span', .exported
        (some ⟨i, span, .function name params guard body⟩) []⟩ env).run.run m = (do
          exportAll host (Dict.set name f env) [(name, name)]
          return (Flow.next, Dict.set name f env) : Run _).run.run
            { m with nextStamp := m.nextStamp + 1 } := rfl
    refine ⟨m.nextStamp, { m with
      nextStamp := m.nextStamp + 1, exports := m.exports ++ [(name, f)] }, 2, ?_⟩
    rw [hrun, exportAll, exportAll, hlookup]
    rfl

theorem concludes_block_cons {n : Node} {ns : List Node} {env₁ : Env} {result : Except EvalError (Flow × Env)}
    (h : Concludes (fun fuel => (Rules.upTo host fuel).exec n env) m (.ok (.next, env₁)) m₁)
    (hrest : Concludes (fun fuel => block (Rules.upTo host fuel).exec ns env₁) m₁ result m') :
    Concludes (fun fuel => block (Rules.upTo host fuel).exec (n :: ns) env) m result m' := by
  refine (concludes_bind_iff (growing_exec host n env) fun r => ?_).mpr (.inl ⟨_, _, h, hrest⟩)
  obtain ⟨flow, env₁⟩ := r
  cases flow with
  | next => exact growing_block host ns env₁
  | returned v => exact .const _

/-! ## Calls -/

def HandsOver (host : Host) (name : String) (args : List Val) :
    Option Val → Machine → Except EvalError Val → Machine → Prop
  | some f, m, result, m' => Concludes (fun fuel => (Rules.upTo host fuel).call f args) m result m'
  | none, m, result, m' => result = .error (.noMatchingDefinition name) ∧ m' = m

theorem concludes_function_iff {stamp : Nat} {scope inner : Env} {args : List Val}
    (hname : code.name = some name) (hinner : bindParams code.params args
      (Dict.set name (.function stamp code scope previous) scope) = pure inner) :
    Concludes (fun fuel => (Rules.upTo host fuel).call (.function stamp code scope previous) args)
      m result m' ↔
      (∃ m₁, Concludes (fun fuel => admits (Rules.upTo host fuel) code.guard inner) m (.ok true) m₁ ∧
        Concludes (fun fuel => enterBody (Rules.upTo host fuel) code.body inner) m₁ result m') ∨
      (∃ m₁, Concludes (fun fuel => admits (Rules.upTo host fuel) code.guard inner) m (.ok false) m₁ ∧
        HandsOver host name args previous m₁ result m') ∨ ∃ e, result = .error e ∧
        Concludes (fun fuel => admits (Rules.upTo host fuel) code.guard inner) m (.error e) m' := by
  have hcall (fuel : Nat) :
      (Rules.upTo host (fuel + 1)).call (.function stamp code scope previous) args = (do
        if ← admits (Rules.upTo host fuel) code.guard inner then
          enterBody (Rules.upTo host fuel) code.body inner
        else
          previous.elim (fail (.noMatchingDefinition name)) fun earlier =>
            (Rules.upTo host fuel).call earlier args) := by
    show callVal host (Rules.upTo host fuel) (.function stamp code scope previous) args = _
    unfold callVal
    dsimp only
    rw [hname]
    dsimp only
    rw [hinner, pure_bind]
    cases previous <;> rfl
  -- The fuel is gone from here on: each part has a conclusion of its own.
  rw [concludes_succ_iff rfl hcall, concludes_bind_iff (growing_admits host code.guard inner)]
  · constructor
    · rintro (⟨b, m₁, hguard, hrest⟩ | herror)
      · cases b with
        | true => exact .inl ⟨m₁, hguard, hrest⟩
        | false =>
          refine .inr (.inl ⟨m₁, hguard, ?_⟩)
          cases previous with
          | some earlier => exact hrest
          | none => exact concludes_fail_iff.mp hrest
      · exact .inr (.inr herror)
    · rintro (⟨m₁, hguard, hbody⟩ | ⟨m₁, hguard, hrest⟩ | herror)
      · exact .inl ⟨true, m₁, hguard, hbody⟩
      · refine .inl ⟨false, m₁, hguard, ?_⟩
        cases previous with
        | some earlier => exact hrest
        | none => exact concludes_fail_iff.mpr hrest
      · exact .inr herror
  · intro b
    cases b with
    | true => exact growing_enterBody host code.body inner
    | false =>
      cases previous with
      | some earlier => exact growing_call host earlier args
      | none => exact .const _

/-! ## Resolution -/

/-- How a call of definitions is resolved, of which the latest comes first. Each is given with the
    function that its name stands for inside of it. The first one whose guard holds is run, an error in a
    guard ends the call, and no other guard is tested after either. -/
inductive Resolves (host : Host) (name : String) (env : Env) (values : List Value) :
    List (Code × Val) → Machine → Except EvalError Val → Machine → Prop where
  | exhausted {m : Machine} :
      Resolves host name env values [] m (.error (.noMatchingDefinition name)) m
  | taken {code : Code} {f : Val} {earlier : List (Code × Val)} {inner : Env} {m m₁ m' : Machine}
      {result : Except EvalError Val}
      (hinner : bindParams code.params (values.map Val.data) (Dict.set name f env) = pure inner)
      (hguard : Concludes (fun fuel => admits (Rules.upTo host fuel) code.guard inner) m (.ok true) m₁)
      (hbody : Concludes (fun fuel => enterBody (Rules.upTo host fuel) code.body inner) m₁ result m') :
      Resolves host name env values ((code, f) :: earlier) m result m'
  | passed {code : Code} {f : Val} {earlier : List (Code × Val)} {inner : Env} {m m₁ m' : Machine}
      {result : Except EvalError Val}
      (hinner : bindParams code.params (values.map Val.data) (Dict.set name f env) = pure inner)
      (hguard : Concludes (fun fuel => admits (Rules.upTo host fuel) code.guard inner) m (.ok false) m₁)
      (hearlier : Resolves host name env values earlier m₁ result m') :
      Resolves host name env values ((code, f) :: earlier) m result m'
  | broken {code : Code} {f : Val} {earlier : List (Code × Val)} {inner : Env} {m m' : Machine}
      {e : EvalError}
      (hinner : bindParams code.params (values.map Val.data) (Dict.set name f env) = pure inner)
      (hguard : Concludes (fun fuel => admits (Rules.upTo host fuel) code.guard inner) m (.error e) m') :
      Resolves host name env values ((code, f) :: earlier) m (.error e) m'

/-- Functions of one name, the latest first, each of which hands over to the one before it. One that has
    no guard need not. -/
inductive Linked (name : String) (env : Env) : List (Code × Val) → Prop where
  | first {stamp : Nat} {code : Code} (hname : code.name = some name) :
      Linked name env [(code, .function stamp code env none)]
  | next {stamp : Nat} {code : Code} {previous : Option Val} {overload : Code × Val}
      {earlier : List (Code × Val)} (hname : code.name = some name)
      (hprevious : code.guard.isSome = true → previous = some overload.2)
      (h : Linked name env (overload :: earlier)) :
      Linked name env ((code, .function stamp code (Dict.set name overload.2 env) previous) ::
        overload :: earlier)

theorem Linked.tail {overloads : List (Code × Val)} (h : Linked name env overloads)
    (hsuffix : earlier <:+ overloads) (hne : earlier ≠ []) : Linked name env earlier := by
  induction h with
  | first hname =>
    rcases suffix_cons_iff.mp hsuffix with rfl | hnil
    · exact .first hname
    · exact absurd (suffix_nil.mp hnil) hne
  | next hname hprevious h ih =>
    rcases suffix_cons_iff.mp hsuffix with rfl | hsuffix
    · exact .next hname hprevious h
    · exact ih hsuffix

theorem not_concludes_admits_none {inner : Env} :
    ¬ Concludes (fun fuel => admits (Rules.upTo host fuel) none inner) m (.ok false) m' :=
  fun h => nomatch (concludes_pure_iff.mp h).1

theorem resolves_of_previous {stamp : Nat} {scope : Env} {values : List Value}
    (hname : code.name = some name) (hparams : ∀ p ∈ code.params, p.tag = .param)
    (hscope : ∀ f : Val, Dict.set name f scope = Dict.set name f env)
    (hprevious : code.guard.isSome = true → ∀ m result m',
      HandsOver host name (values.map Val.data) previous m result m' ↔
        Resolves host name env values earlier m result m') :
    Concludes (fun fuel => (Rules.upTo host fuel).call (.function stamp code scope previous)
        (values.map Val.data)) m result m' ↔
      Resolves host name env values ((code, .function stamp code scope previous) :: earlier) m result m' := by
  obtain ⟨inner, hinner⟩ := exists_bindParams hparams values
    (Dict.set name (.function stamp code scope previous) scope)
  have hsame {inner' : Env} (h : bindParams code.params (values.map Val.data)
      (Dict.set name (.function stamp code scope previous) env) = pure inner') : inner' = inner := by
    rw [← hscope, hinner] at h
    exact (pure_inj h).symm
  have hguarded {m₁ : Machine}
      (h : Concludes (fun fuel => admits (Rules.upTo host fuel) code.guard inner) m (.ok false) m₁) :
      code.guard.isSome = true := by
    cases hguard : code.guard with
    | some g => rfl
    | none =>
      rw [hguard] at h
      exact absurd h not_concludes_admits_none
  rw [concludes_function_iff hname hinner]
  rw [hscope] at hinner
  constructor
  · rintro (⟨m₁, hguard, hbody⟩ | ⟨m₁, hguard, hrest⟩ | ⟨e, rfl, hguard⟩)
    · exact .taken hinner hguard hbody
    · exact .passed hinner hguard ((hprevious (hguarded hguard) m₁ result m').mp hrest)
    · exact .broken hinner hguard
  · intro h
    cases h with
    | taken h hguard hbody =>
      cases hsame h
      exact .inl ⟨_, hguard, hbody⟩
    | passed h hguard hearlier =>
      cases hsame h
      exact .inr (.inl ⟨_, hguard, (hprevious (hguarded hguard) _ result m').mpr hearlier⟩)
    | broken h hguard =>
      cases hsame h
      exact .inr (.inr ⟨_, rfl, hguard⟩)

theorem Linked.call_iff (h : Linked name env (overload :: earlier))
    (hparams : ∀ o ∈ overload :: earlier, ∀ p ∈ o.1.params, p.tag = .param) (values : List Value) :
    Concludes (fun fuel => (Rules.upTo host fuel).call overload.2 (values.map Val.data)) m result m' ↔
      Resolves host name env values (overload :: earlier) m result m' := by
  induction earlier generalizing overload m result m' with
  | nil =>
    obtain ⟨hlatest, -⟩ := forall_mem_cons.mp hparams
    cases h with
    | first hname =>
      refine resolves_of_previous hname hlatest (fun _ => rfl) fun _ m result m' => ?_
      constructor
      · rintro ⟨rfl, rfl⟩
        exact .exhausted
      · intro h
        cases h
        exact ⟨rfl, rfl⟩
  | cons previous earlier ih =>
    obtain ⟨hlatest, hearlier⟩ := forall_mem_cons.mp hparams
    cases h with
    | next hname hprevious h =>
      refine resolves_of_previous hname hlatest (fun _ => Dict.set_set ..) fun hguard m result m' => ?_
      rw [hprevious hguard]
      exact ih h hearlier

/-! ## Running definitions -/

/-- The statement defines the function, with parameters that are such nodes. -/
def IsDefinition (name : String) (d : Node) (i : Nat) (code : Code) : Prop :=
  Defines name d i code ∧ ∀ p ∈ code.params, p.tag = .param

theorem exists_linked {defs prior : List Node}
    (hdefs : ∀ d ∈ defs, ∃ i code, IsDefinition name d i code ∧ host.annotations.isShadow i = true)
    (hprior : Forall₂ (fun d o => ∃ i, IsDefinition name d i o.1) prior (overload :: earlier).reverse)
    (h : Linked name env (overload :: earlier)) (m : Machine) :
    ∃ latest overloads m', Linked name env (latest :: overloads) ∧
      Forall₂ (fun d o => ∃ i, IsDefinition name d i o.1) (prior ++ defs) (latest :: overloads).reverse ∧
      Concludes (fun fuel => block (Rules.upTo host fuel).exec defs (Dict.set name overload.2 env)) m
        (.ok (.next, Dict.set name latest.2 env)) m' := by
  induction defs generalizing prior overload earlier m with
  | nil => exact ⟨overload, earlier, m, h, (append_nil prior).symm ▸ hprior, 0, rfl⟩
  | cons d defs ih =>
    obtain ⟨⟨i, code, hd, hshadow⟩, hrest⟩ := forall_mem_cons.mp hdefs
    obtain ⟨stamp, m₁, hexec⟩ := hd.1.concludes host (Dict.set name overload.2 env) m
    rw [Dict.set_set] at hexec
    let previous := handsTo host i code name (Dict.set name overload.2 env)
    have hprevious (hguard : code.guard.isSome = true) : previous = some overload.2 := by
      show handsTo host i code name (Dict.set name overload.2 env) = _
      rw [handsTo, hguard, hshadow, Dict.get?_set, if_pos rfl]
      rfl
    let added : Code × Val := (code, .function stamp code (Dict.set name overload.2 env) previous)
    have hadded : Forall₂ (fun d o => ∃ i, IsDefinition name d i o.1) (prior ++ [d])
        (added :: overload :: earlier).reverse := by
      rw [reverse_cons]
      exact rel_append hprior (.cons ⟨i, hd⟩ .nil)
    obtain ⟨latest, overloads, m', hlinked, hall, hblock⟩ :=
      ih hrest hadded (.next hd.1.name_eq hprevious h) m₁
    rw [append_assoc] at hall
    exact ⟨latest, overloads, m', hlinked, hall, concludes_block_cons hexec hblock⟩

/-- After consecutive definitions of which only the first one has not been marked, the name stands for
    the latest of them, and calls of it are resolved among all of them. -/
theorem exists_overloads {d : Node} {defs : List Node} {i : Nat} (hd : IsDefinition name d i code)
    (hfirst : host.annotations.isShadow i = false)
    (hdefs : ∀ d ∈ defs, ∃ i code, IsDefinition name d i code ∧ host.annotations.isShadow i = true)
    (env : Env) (m : Machine) : ∃ latest overloads m',
      Forall₂ (fun d o => ∃ i, IsDefinition name d i o.1) (d :: defs) (latest :: overloads).reverse ∧
      Concludes (fun fuel => block (Rules.upTo host fuel).exec (d :: defs) env) m
        (.ok (.next, Dict.set name latest.2 env)) m' ∧
      ∀ overload earlier, overload :: earlier <:+ latest :: overloads → ∀ values m result m',
        Concludes (fun fuel => (Rules.upTo host fuel).call overload.2 (values.map Val.data)) m result m' ↔
          Resolves host name env values (overload :: earlier) m result m' := by
  obtain ⟨stamp, m₁, hexec⟩ := hd.1.concludes host env m
  have hnone : handsTo host i code name env = none := by
    rw [handsTo, hfirst, Bool.and_false]
    rfl
  rw [hnone] at hexec
  have hprior : Forall₂ (fun d o => ∃ i, IsDefinition name d i o.1) [d]
      [(code, Val.function stamp code env none)].reverse := .cons ⟨i, hd⟩ .nil
  obtain ⟨latest, overloads, m', hlinked, hall, hblock⟩ := exists_linked hdefs hprior (.first hd.1.name_eq) m₁
  refine ⟨latest, overloads, m', hall, concludes_block_cons hexec hblock, ?_⟩
  intro overload earlier hsuffix values m result m'
  refine (hlinked.tail hsuffix (cons_ne_nil _ _)).call_iff (fun o ho => ?_) values
  have hmem : o ∈ (latest :: overloads).reverse := mem_reverse.mpr (hsuffix.subset ho)
  obtain ⟨_, _, _, hparams⟩ := Kind.exists_of_mem_right hall hmem
  exact hparams.2

end Motif.Eval
