import Motif.Proofs.Dict
import Motif.Proofs.Eval.Correspondence
import Motif.Proofs.Scope.Names

/-!
# Invariants of running programs

The rules of a running program are gone through here once. An `Invariant` relates computations, and says
which nodes, templates, values and scopes they may have to do with. It is lawful if its relation is closed
under the ways in which computations are put together, and if nodes pass it on to their parts; and if the
judgements for what is called for on the way keep a lawful invariant, then so does one layer of rules on top
of them.
-/

namespace Motif.Eval

open List
open Scope (Names introduces paramNames idleTags)

/-- What two runs of a program are to have in common. Nodes, templates and scopes are judged by the names
    that are visible to them. -/
structure Invariant where
  /-- Two computations are related, and what they come to has the property. -/
  Related : {α : Type} → (α → Prop) → Run α → Run α → Prop
  Runs : Names → Node → Prop
  /-- The local may be used in tests against the template. -/
  Tests : Names → Nat → Node → Prop
  Good : Val → Prop
  Covers : Names → Env → Prop
  /-- Every scope will do. -/
  Loose : Prop

namespace Invariant

variable {body elements ranges : List Node} {args : List Val} {carried : List String} {n : Node} {v : Val}

section Parts

variable (I : Invariant) (host : Host)

structure Scope (names : Names) (env : Env) : Prop where
  covers : I.Covers names env
  good : ∀ b ∈ env, I.Good b.2

/-- Statements of which each may use what those before it have introduced. -/
def Body : Names → List Node → Prop
  | _, [] => True
  | names, n :: ns => I.Runs names n ∧ (n.tag ∉ idleTags ∨ I.Loose → Body (names.add (introduces n)) ns)

def Loop (body : List Node) : Names → List Node → Prop
  | names, [] => I.Body names body
  | names, r :: rs =>
    match r.kind with
    | .range target collection guard => I.Runs names collection ∧
        (∀ g ∈ guard, I.Runs (names.add target.names) g) ∧ Loop body (names.add target.names) rs
    | _ => True

def Enters (names : Names) : Eval.Body → Prop
  | .block body => I.Body names body
  | .expr e => I.Runs names e

def Finds (names : Names) (x : String) : Prop :=
  ∀ env, I.Scope names env → I.Related I.Good (lookup host x env) (lookup host x env)

/-- The node can be tested against, be it a pattern or a bare template. -/
def Pattern (names : Names) (n : Node) : Prop :=
  ∀ l, host.annotations.local? n.id = some l → I.Tests names l (templateOf n)

def Clause (names : Names) (c : Node) : Prop :=
  match c.kind with
  | .clause patterns body => (∀ p ∈ patterns, I.Pattern host names p) ∧ ∀ s ∈ body, ∀ names, I.Runs names s
  | _ => True

def Element (names : Names) (e : Node) : Prop :=
  match e.kind with
  | .element key template => (∀ k ∈ key, I.Runs names k) ∧
      ∀ l, host.annotations.local? e.id = some l → I.Tests names l template
  | _ => True

def Needs (names : Names) (n : Node) : Prop :=
  match n.kind with
  | .ident x => I.Finds host names x
  | .unary _ x | .assign _ x | .ret x | .exprStmt x => I.Runs names x
  | .binary _ x y | .conj x y | .disj x y => I.Runs names x ∧ I.Runs names y
  | .cond c x y => I.Runs names c ∧ I.Runs names x ∧ I.Runs names y
  | .array xs | .object xs => ∀ x ∈ xs, I.Runs names x
  | .entry key x => (key.isIdent = false → I.Runs names key) ∧ I.Runs names x
  | .member x key => I.Runs names x ∧ (key.isIdent = false → I.Runs names key)
  | .call f args => I.Runs names f ∧ ∀ x ∈ args, I.Runs names x
  | .lambda params body => ∀ stamp env, I.Scope names env →
      I.Good (.function stamp { name := none, params, guard := none, body := .expr body } env none)
  | .pattern _ => I.Pattern host names n ∧
      ∀ stamp env, I.Scope names env → I.Good (.pattern stamp n env)
  | .choose x clauses otherwise => I.Loose ∧ I.Runs names x ∧ (∀ c ∈ clauses, I.Clause host names c) ∧
      ∀ s ∈ otherwise, ∀ names, I.Runs names s
  | .reduce accs ranges body => ((∀ a ∈ accs, a.tag = .assign) ∨ I.Loose) ∧ I.Body names accs ∧
      I.Loop body (names.add (accs.flatMap introduces)) ranges
  | .declare as => ((∀ a ∈ as, a.tag = .assign) ∨ I.Loose) ∧ I.Body names as
  | .branch c x y => I.Loose ∧ I.Runs names c ∧ I.Body names x ∧ I.Body names y
  | .loop ranges body otherwise => (otherwise = [] ∨ I.Loose) ∧ I.Loop body names ranges ∧
      I.Body names otherwise
  | .function name params guard body => ∀ stamp env previous, I.Scope names env →
      (∀ p ∈ previous, I.Good p) →
        I.Good (.function stamp { name := some name, params, guard, body := .block body } env previous)
  | .exported decl items =>
      ((∀ d ∈ decl, d.tag ∈ [Tag.declare, .assign, .function]) ∨ I.Loose) ∧
      (∀ d ∈ decl, I.Runs names d) ∧
      ∀ x ∈ items.map ModuleItem.name ++ introduces n, I.Finds host (names.add (introduces n)) x
  | _ => True

/-- What statements leave behind: good values, and a scope for the names if the next one is run. -/
structure Leaves (names : Names) (r : Flow × Env) : Prop where
  returned : ∀ v, r.1 = .returned v → I.Good v
  good : ∀ b ∈ r.2, I.Good b.2
  covers : r.1 = .next → I.Covers names r.2

/-- What one statement leaves behind. Declarations, which may stand where the way they end is not looked
    at, do not return. -/
structure Executed (names : Names) (n : Node) (r : Flow × Env) : Prop where
  leaves : I.Leaves (names.add (introduces n)) r
  declares : n.tag ∈ [Tag.declare, .assign, .function] → r.1 = .next ∨ I.Loose
  runs : n.tag ∉ idleTags ∨ I.Loose

structure Grown (outer outer' : Env) : Prop where
  good : ∀ b ∈ outer', I.Good b.2
  keys : ∀ x ∈ outer.map Prod.fst, x ∈ outer'.map Prod.fst

structure Looped (outer : Env) (r : Flow × Progress) : Prop where
  returned : ∀ v, r.1 = .returned v → I.Good v
  grown : I.Grown outer r.2.outer

/-- The relation of a lawful invariant is closed under what runs are made of, and what is good or may be
    run has parts of which the same is true. -/
structure Lawful : Prop where
  pure {α : Type} {P : α → Prop} {a : α} (h : P a) : I.Related P (pure a) (pure a)
  bind {α β : Type} {P : α → Prop} {Q : β → Prop} {x y : Run α} {f g : α → Run β}
    (hx : I.Related P x y) (hf : ∀ a, P a → I.Related Q (f a) (g a)) : I.Related Q (x >>= f) (y >>= g)
  fail {α : Type} {P : α → Prop} {e : EvalError} (h : ∀ x, e ≠ .undefined x) :
    I.Related P (fail e) (fail e)
  freshStamp : I.Related (fun _ => True) freshStamp freshStamp
  addExport (name : String) {v : Val} (hv : I.Good v) :
    I.Related (fun _ => True) (addExport name v) (addExport name v)
  callNative {name : String} {args : List Val} (hname : I.Good (.native name))
    (hargs : ∀ v ∈ args, I.Good v) :
    I.Related I.Good (callNative host name args) (callNative host name args)
  data (v : Value) : I.Good (.data v)
  regex (pattern flags : String) (compiled : Regex.Automaton) : I.Good (.regex pattern flags compiled)
  function {stamp : Nat} {code : Code} {scope : Env} {previous : Option Val}
    (h : I.Good (.function stamp code scope previous)) :
    (∀ p ∈ previous, I.Good p) ∧ ∃ names : Names, I.Scope names scope ∧
      (∀ g ∈ code.guard, I.Runs (names.inside code) g) ∧ I.Enters (names.inside code) code.body
  pattern {stamp : Nat} {node : Node} {scope : Env} (h : I.Good (.pattern stamp node scope)) :
    ∃ names, I.Scope names scope ∧ I.Pattern host names node
  covers {names : Names} {env env' : Env} {more : List String} (h : I.Covers names env)
    (hkept : ∀ x ∈ env.map Prod.fst, x ∈ env'.map Prod.fst) (hmore : ∀ x ∈ more, x ∈ env'.map Prod.fst) :
    I.Covers (names.add more) env'
  fewer {names names' : Names} {env : Env} (h : I.Covers names env) (hnames : ∀ x, names' x → names x) :
    I.Covers names' env
  loose (h : I.Loose) (names : Names) (env : Env) : I.Covers names env
  needs {names : Names} {n : Node} (h : I.Runs names n) : I.Needs host names n

/-- The judgements of a running program keep a lawful invariant. -/
structure Keeps (r r' : Rules) : Prop where
  lawful : I.Lawful host
  eval : ∀ {names n env}, I.Runs names n → I.Scope names env →
    I.Related I.Good (r.eval n env) (r'.eval n env)
  exec : ∀ {names n env}, I.Runs names n → I.Scope names env →
    I.Related (I.Executed names n) (r.exec n env) (r'.exec n env)
  call : ∀ {f args}, I.Good f → (∀ v ∈ args, I.Good v) → I.Related I.Good (r.call f args) (r'.call f args)
  fits : ∀ {names template l v env}, I.Tests names l template → I.Good v → I.Scope names env →
    I.Related (fun _ => True) (r.fits template l v env) (r'.fits template l v env)

end Parts

/-! ## Names -/

theorem mem_keys_bind {target : Target} {env : Env} {x : String} :
    x ∈ (Eval.bind target v env).map Prod.fst ↔ x ∈ target.names ∨ x ∈ env.map Prod.fst := by
  cases target with
  | name name => rw [Eval.bind, Dict.mem_keys_set, Target.names, mem_singleton]
  | array names =>
    have hkeys (f : Nat → Val) :
        (names.mapIdx fun i name => (name, f i)).map Prod.fst = names := by
      apply ext_getElem <;> simp
    unfold Eval.bind
    rw [Dict.mem_keys_setAll, hkeys, Target.names]
  | object pairs =>
    rw [Eval.bind, Dict.mem_keys_setAll, map_map]
    rfl

section Lawful

variable {I : Invariant} {host : Host} {names : Names} {env : Env}

theorem Scope.fewer (h : I.Scope names env) (L : I.Lawful host) {names' : Names}
    (hnames : ∀ x, names' x → names x) : I.Scope names' env := ⟨L.fewer h.covers hnames, h.good⟩

theorem Leaves.scope {r : Flow × Env} (h : I.Leaves names r) (L : I.Lawful host)
    (hnext : r.1 = .next ∨ I.Loose) : I.Scope names r.2 :=
  ⟨hnext.elim h.covers fun hloose => L.loose hloose _ _, h.good⟩

theorem leaves_next (h : I.Scope names env) : I.Leaves names (.next, env) :=
  ⟨nofun, h.good, fun _ => h.covers⟩

theorem leaves_returned (hv : I.Good v) (henv : ∀ b ∈ env, I.Good b.2) :
    I.Leaves names (.returned v, env) := by
  refine ⟨?_, henv, nofun⟩
  rintro _ ⟨⟩
  exact hv

theorem body_of_forall (h : ∀ s ∈ body, ∀ names, I.Runs names s) (names : Names) : I.Body names body := by
  induction body generalizing names with
  | nil => trivial
  | cons s body ih =>
    obtain ⟨hs, hbody⟩ := forall_mem_cons.mp h
    exact ⟨hs names, fun _ => ih hbody _⟩

theorem loop_of_forall (hranges : ∀ r ∈ ranges, r.tag = .range → ∀ c ∈ r.children, ∀ names, I.Runs names c)
    (hbody : ∀ s ∈ body, ∀ names, I.Runs names s) (names : Names) : I.Loop body names ranges := by
  induction ranges generalizing names with
  | nil => exact body_of_forall hbody names
  | cons r ranges ih =>
    obtain ⟨hr, hrest⟩ := forall_mem_cons.mp hranges
    obtain ⟨i, span, k⟩ := r
    cases k with
    | range target collection guard =>
      have hguard (g : Node) (hg : g ∈ guard) : I.Runs (names.add target.names) g :=
        hr rfl g (mem_cons_of_mem _ (Option.mem_toList.mpr hg)) _
      exact ⟨hr rfl collection mem_cons_self names, hguard, ih hrest _⟩
    | _ => trivial

theorem needs_of_children (hloose : I.Loose) (hfinds : ∀ names x, I.Finds host names x)
    (hchild : ∀ {names n c}, I.Runs names n → n.tag ∉ [Tag.lambda, .function, .pattern, .element] →
      c ∈ n.children → ∀ names, I.Runs names c) (hclause : ∀ {c}, I.Runs names c → I.Clause host names c)
    (hn : I.Runs names n) (hclosure : n.tag ∈ [Tag.lambda, .function, .pattern] → I.Needs host names n) :
    I.Needs host names n := by
  have hchildren := fun htag c hc => hchild (c := c) hn htag hc
  have hranges {ranges : List Node} (hranges : ∀ r ∈ ranges, ∀ names, I.Runs names r) :
      ∀ r ∈ ranges, r.tag = .range → ∀ c ∈ r.children, ∀ names, I.Runs names c := by
    intro r hr htag c hc
    exact hchild (hranges r hr names) (by rw [htag]; decide) hc
  obtain ⟨i, span, k⟩ := n
  cases k with
  | lambda | function | pattern => exact hclosure (of_decide_eq_true rfl)
  | ident x => exact hfinds names x
  | unary | assign | ret | exprStmt => exact hchildren (of_decide_eq_true rfl) _ mem_cons_self names
  | array | object => exact fun x hx => hchildren (of_decide_eq_true rfl) x hx names
  | binary op x y | conj x y | disj x y =>
    have hchild := forall_mem_cons.mp (hchildren (of_decide_eq_true rfl))
    exact ⟨hchild.1 names, hchild.2 y mem_cons_self names⟩
  | cond c x y =>
    obtain ⟨hc, hchild⟩ := forall_mem_cons.mp (hchildren (of_decide_eq_true rfl))
    obtain ⟨hx, hchild⟩ := forall_mem_cons.mp hchild
    exact ⟨hc names, hx names, hchild y mem_cons_self names⟩
  | entry key x =>
    have hchild := forall_mem_cons.mp (hchildren (of_decide_eq_true rfl))
    exact ⟨fun _ => hchild.1 names, hchild.2 x mem_cons_self names⟩
  | member x key =>
    have hchild := forall_mem_cons.mp (hchildren (of_decide_eq_true rfl))
    exact ⟨hchild.1 names, fun _ => hchild.2 key mem_cons_self names⟩
  | call f args =>
    have hchild := forall_mem_cons.mp (hchildren (of_decide_eq_true rfl))
    exact ⟨hchild.1 names, fun x hx => hchild.2 x hx names⟩
  | choose x clauses otherwise =>
    obtain ⟨hchild, hotherwise⟩ := forall_mem_append.mp (hchildren (of_decide_eq_true rfl))
    refine ⟨hloose, hchild x mem_cons_self names, fun c hc => hclause ?_, hotherwise⟩
    exact hchild c (mem_cons_of_mem _ hc) names
  | reduce accs ranges body =>
    obtain ⟨hchild, hbody⟩ := forall_mem_append.mp (hchildren (of_decide_eq_true rfl))
    obtain ⟨haccs, hrange⟩ := forall_mem_append.mp hchild
    exact ⟨.inr hloose, body_of_forall haccs names, loop_of_forall (hranges hrange) hbody _⟩
  | declare as => exact ⟨.inr hloose, body_of_forall (hchildren (of_decide_eq_true rfl)) names⟩
  | branch c x y =>
    obtain ⟨hchild, hy⟩ := forall_mem_append.mp (hchildren (of_decide_eq_true rfl))
    obtain ⟨hc, hx⟩ := forall_mem_cons.mp hchild
    exact ⟨hloose, hc names, body_of_forall hx names, body_of_forall hy names⟩
  | loop ranges body otherwise =>
    obtain ⟨hchild, hotherwise⟩ := forall_mem_append.mp (hchildren (of_decide_eq_true rfl))
    obtain ⟨hrange, hbody⟩ := forall_mem_append.mp hchild
    exact ⟨.inr hloose, loop_of_forall (hranges hrange) hbody names, body_of_forall hotherwise names⟩
  | exported decl items =>
    have hchild := hchildren (of_decide_eq_true rfl)
    exact ⟨.inr hloose, fun d hd => hchild d (Option.mem_toList.mpr hd) names, fun x _ => hfinds _ x⟩
  | _ => trivial

namespace Lawful

variable (L : I.Lawful host) {α : Type}

include L

theorem weaken {P P' : α → Prop} {x y : Run α} (hx : I.Related P x y) (h : ∀ a, P a → P' a) :
    I.Related P' x y := by
  have hpure := L.bind hx fun a ha => L.pure (h a ha)
  rwa [bind_pure, bind_pure] at hpure

theorem done (a : α) : I.Related (fun _ => True) (Pure.pure a) (Pure.pure a) := L.pure trivial

theorem mapM {β : Type} {Q : β → Prop} {f g : α → Run β} {as : List α}
    (h : ∀ a ∈ as, I.Related Q (f a) (g a)) :
    I.Related (fun bs => ∀ b ∈ bs, Q b) (as.mapM f) (as.mapM g) := by
  induction as with
  | nil => exact L.pure (forall_mem_nil _)
  | cons a as ih =>
    rw [mapM_cons, mapM_cons]
    obtain ⟨ha, has⟩ := forall_mem_cons.mp h
    refine L.bind ha fun b hb => L.bind (ih has) fun bs hbs => ?_
    exact L.pure (forall_mem_cons.mpr ⟨hb, hbs⟩)

theorem anyM {f g : α → Run Bool} {as : List α} (h : ∀ a ∈ as, I.Related (fun _ => True) (f a) (g a)) :
    I.Related (fun _ => True) (as.anyM f) (as.anyM g) := by
  induction as with
  | nil => exact L.done false
  | cons a as ih =>
    rw [anyM_cons, anyM_cons]
    obtain ⟨ha, has⟩ := forall_mem_cons.mp h
    refine L.bind ha fun b _ => ?_
    cases b with
    | true => exact L.done true
    | false => exact ih has

/-! ### Scopes -/

theorem set (h : I.Scope names env) (x : String) (hv : I.Good v) :
    I.Scope (names.add [x]) (Dict.set x v env) where
  covers := by
    refine L.covers h.covers (fun y hy => Dict.mem_keys_set.mpr (.inr hy)) fun y hy => ?_
    exact Dict.mem_keys_set.mpr (.inl (mem_singleton.mp hy))
  good := Dict.forall_set h.good hv

theorem good_bind (target : Target) (henv : ∀ b ∈ env, I.Good b.2) (hv : I.Good v) :
    ∀ b ∈ Eval.bind target v env, I.Good b.2 := by
  cases target with
  | name name => exact Dict.forall_set henv hv
  | array names =>
    refine Dict.forall_setAll (fun b hb => ?_) henv
    obtain ⟨i, hi, rfl⟩ := mem_mapIdx.mp hb
    exact L.data _
  | object pairs =>
    refine Dict.forall_setAll (fun b hb => ?_) henv
    obtain ⟨pair, -, rfl⟩ := mem_map.mp hb
    exact L.data _

theorem bindTarget (h : I.Scope names env) (target : Target) (hv : I.Good v) :
    I.Scope (names.add target.names) (Eval.bind target v env) where
  covers := L.covers h.covers (fun _ hx => mem_keys_bind.mpr (.inr hx)) fun _ hx =>
    mem_keys_bind.mpr (.inl hx)
  good := L.good_bind target h.good hv

/-! ### Values -/

theorem asData (v : Val) : I.Related (fun _ => True) (asData v) (asData v) := by
  unfold Eval.asData
  split
  · exact L.done _
  · exact L.fail (by simp)

theorem toData {x y : Run Val} (h : I.Related I.Good x y) :
    I.Related (fun _ => True) (do Eval.asData (← x)) (do Eval.asData (← y)) :=
  L.bind h fun v _ => L.asData v

theorem head (h : ∀ v ∈ args, I.Good v) : I.Good (args.head?.getD .nothing) := by
  cases args with
  | nil => exact L.data .nothing
  | cons v args => exact h v mem_cons_self

theorem argument (variadic : Bool) (h : ∀ v ∈ args, I.Good v) :
    I.Related I.Good (argument variadic args) (argument variadic args) := by
  unfold Eval.argument
  split
  · exact L.bind (L.mapM fun v _ => L.asData v) fun _ _ => L.pure (L.data _)
  · exact L.pure (L.head h)

theorem bindParams {params : List Node} (h : I.Scope names env) (hargs : ∀ v ∈ args, I.Good v) :
    I.Related (I.Scope (names.add (paramNames params))) (bindParams params args env)
      (bindParams params args env) := by
  induction params generalizing names args env with
  | nil => exact L.pure (h.fewer L fun _ => Names.of_add_nil)
  | cons p params ih =>
    obtain ⟨i, span, k⟩ := p
    cases k with
    | param name template variadic =>
      show I.Related (I.Scope (names.add ([name] ++ paramNames params))) _ _
      refine L.bind (L.argument variadic hargs) fun v hv => ?_
      refine L.weaken (ih (L.set h name hv) fun w hw => hargs w (mem_of_mem_tail hw)) ?_
      exact fun env' h' => h'.fewer L fun _ => Names.of_add_append
    | _ => exact L.fail (by simp)

theorem iterate (v : Val) : I.Related (fun _ => True) (iterate v) (iterate v) := by
  unfold Eval.iterate
  split
  · exact L.done _
  · exact L.fail (by simp)

theorem unary (op : UnaryOp) (v : Val) : I.Related I.Good (unary op v) (unary op v) := by
  unfold Eval.unary
  dsimp only
  split
  case h_1 r hr =>
    refine L.pure ?_
    split at hr
    · obtain ⟨d, -, rfl⟩ := Option.map_eq_some_iff.mp hr
      exact L.data d
    · cases hr
      exact L.data _
    · cases hr
  case h_2 => exact L.fail (by simp)

theorem exportAll {exports : List (String × String)} (h : ∀ e ∈ exports, I.Finds host names e.1)
    (henv : I.Scope names env) :
    I.Related (fun _ => True) (exportAll host env exports) (exportAll host env exports) := by
  induction exports with
  | nil => exact L.done ()
  | cons e exports ih =>
    obtain ⟨he, hexports⟩ := forall_mem_cons.mp h
    refine L.bind (he env henv) fun v hv => L.bind (L.addExport e.2 hv) fun _ _ => ?_
    exact ih hexports

/-! ### Loops and tests -/

theorem overItems {step step' : Value → Progress → Run (Flow × Progress)} {outer : Env}
    (hstep : ∀ v p, I.Grown outer p.outer → I.Related (I.Looped outer) (step v p) (step' v p))
    (items : List Value) {p : Progress} (hp : I.Grown outer p.outer) :
    I.Related (I.Looped outer) (overItems step items p) (overItems step' items p) := by
  induction items generalizing p with
  | nil => exact L.pure ⟨nofun, hp⟩
  | cons v items ih =>
    refine L.bind (hstep v p hp) fun r hr => ?_
    obtain ⟨flow, p'⟩ := r
    cases flow with
    | returned v => exact L.pure ⟨hr.returned, hr.grown⟩
    | next => exact ih hr.grown

theorem allElements {test test' : Nat → Node → Run Bool}
    (h : ∀ i, ∀ e ∈ elements, I.Related (fun _ => True) (test i e) (test' i e)) (i : Nat) :
    I.Related (fun _ => True) (allElements test i elements) (allElements test' i elements) := by
  induction elements generalizing i with
  | nil => exact L.done true
  | cons e elements ih =>
    refine L.bind (h i e mem_cons_self) fun b _ => ?_
    cases b with
    | true => exact ih (fun j e he => h j e (mem_cons_of_mem _ he)) (i + 1)
    | false => exact L.done false

end Lawful

theorem Grown.trans {e₁ e₂ e₃ : Env} (h : I.Grown e₁ e₂) (h' : I.Grown e₂ e₃) : I.Grown e₁ e₃ :=
  ⟨h'.good, fun x hx => h'.keys x (h.keys x hx)⟩

theorem grown_carry {inner outer : Env} (hinner : ∀ b ∈ inner, I.Good b.2)
    (houter : ∀ b ∈ outer, I.Good b.2) : I.Grown outer (carry carried inner outer) := by
  unfold carry
  induction carried generalizing outer with
  | nil => exact ⟨houter, fun _ hx => hx⟩
  | cons name carried ih =>
    rw [foldl_cons]
    split
    case h_1 v hv =>
      have hset : I.Grown outer (Dict.set name v outer) :=
        ⟨Dict.forall_set houter (Dict.forall_get? hinner hv), fun x hx => Dict.mem_keys_set.mpr (.inr hx)⟩
      exact hset.trans (ih hset.good)
    case h_2 => exact ih houter

end Lawful

namespace Keeps

variable {I : Invariant} {host : Host} {r r' : Rules} {names : Names} {env : Env}
  (h : I.Keeps host r r') {subject : Val} {accumulators otherwise : List Node} {span : Span}

include h

/-! ## Blocks and loops -/

theorem block (hb : I.Body names body) (henv : I.Scope names env) :
    I.Related (fun x => I.Leaves (names.add (body.flatMap introduces)) x ∧
      ((∀ n ∈ body, n.tag = .assign) → x.1 = .next ∨ I.Loose))
      (block r.exec body env) (block r'.exec body env) := by
  have L := h.lawful
  induction body generalizing names env with
  | nil => exact L.pure ⟨leaves_next (henv.fewer L fun _ => Names.of_add_nil), fun _ => .inl rfl⟩
  | cons n body ih =>
    refine L.bind (h.exec hb.1 henv) fun x hx => ?_
    obtain ⟨flow, env'⟩ := x
    cases flow with
    | returned v =>
      refine L.pure ⟨leaves_returned (hx.leaves.returned v rfl) hx.leaves.good, fun htags => ?_⟩
      exact hx.declares (by simp [htags n mem_cons_self])
    | next =>
      refine L.weaken (ih (hb.2 hx.runs) (hx.leaves.scope L (.inl rfl))) fun x hrest => ⟨?_, fun htags => ?_⟩
      · obtain ⟨hreturned, hgood, hcovers⟩ := hrest.1
        rw [flatMap_cons]
        exact ⟨hreturned, hgood, fun hnext => L.fewer (hcovers hnext) fun _ => Names.of_add_append⟩
      · exact hrest.2 fun m hm => htags m (mem_cons_of_mem _ hm)

theorem blockResult (hb : I.Body names body) (henv : I.Scope names env) :
    I.Related I.Good (blockResult r.exec body env) (blockResult r'.exec body env) := by
  refine h.lawful.bind (h.block hb henv) fun x hx => ?_
  obtain ⟨flow, env'⟩ := x
  cases flow with
  | returned v => exact h.lawful.pure (hx.1.returned v rfl)
  | next => exact h.lawful.pure (h.lawful.data .nothing)

theorem admits {guard : Option Node} (hg : ∀ g ∈ guard, I.Runs names g) (henv : I.Scope names env) :
    I.Related (fun _ => True) (admits r guard env) (admits r' guard env) := by
  cases guard with
  | none => exact h.lawful.done true
  | some g => exact h.lawful.bind (h.eval (hg g rfl) henv) fun _ _ => h.lawful.done _

/-- A loop in a scope from which it may take names, and what its ranges have bound on the way in. -/
theorem overRanges (hl : I.Loop body names ranges) {bound : Env} {p : Progress}
    (hcovers : I.Covers names (Dict.setAll bound p.outer)) (hbound : ∀ b ∈ bound, I.Good b.2)
    (hp : ∀ b ∈ p.outer, I.Good b.2) : I.Related (I.Looped p.outer) (overRanges r carried body ranges bound p)
      (overRanges r' carried body ranges bound p) := by
  have L := h.lawful
  have hscope := Scope.mk hcovers (Dict.forall_setAll hbound hp)
  induction ranges generalizing names bound p with
  | nil =>
    refine L.bind (h.block hl hscope) fun x hx => ?_
    exact L.pure ⟨hx.1.returned, grown_carry hx.1.good hp⟩
  | cons range ranges ih =>
    obtain ⟨i, span, k⟩ := range
    cases k with
    | range target collection guard =>
      obtain ⟨hc, hg, hrest⟩ := hl
      refine L.bind (h.eval hc hscope) fun v _ => L.bind (L.iterate v) fun items _ => ?_
      refine L.overItems (fun item p' hgrown => ?_) items ⟨hp, fun _ hx => hx⟩
      have hbound' := L.good_bind target hbound (L.data item)
      -- The targets are bound now, and the scope around the loop has lost nothing since it began.
      have hcovers' : I.Covers (names.add target.names)
          (Dict.setAll (Eval.bind target (.data item) bound) p'.outer) := by
        refine L.covers hcovers (fun x hx => ?_) fun x hx => ?_
        · rw [Dict.mem_keys_setAll, mem_keys_bind]
          exact (Dict.mem_keys_setAll.mp hx).imp .inr (hgrown.keys x)
        · exact Dict.mem_keys_setAll.mpr (.inl (mem_keys_bind.mpr (.inl hx)))
      have hscope' := Scope.mk hcovers' (Dict.forall_setAll hbound' hgrown.good)
      refine L.bind (h.admits hg hscope') fun b _ => ?_
      cases b with
      | true =>
        refine L.weaken (ih hrest hcovers' hbound' hgrown.good hscope') fun x hx => ?_
        exact ⟨hx.returned, hgrown.trans hx.grown⟩
      | false => exact L.pure ⟨nofun, hgrown⟩
    | _ => exact L.fail (by simp)

/-! ## Tests -/

theorem matchesPattern {node : Node} (hn : I.Pattern host names node) (hsubject : I.Good subject)
    (henv : I.Scope names env) : I.Related (fun _ => True) (matchesPattern host r node subject env)
      (matchesPattern host r' node subject env) := by
  rw [matchesPattern_eq, matchesPattern_eq]
  split
  · exact h.lawful.fail (by simp)
  case h_2 l hl => exact h.fits (hn l hl) hsubject henv

theorem isMatch {matcher : Val} (hmatcher : I.Good matcher) (hsubject : I.Good subject) :
    I.Related (fun _ => True) (isMatch host r matcher subject) (isMatch host r' matcher subject) := by
  have hcall : I.Related (fun _ => True) (do return (← r.call matcher [subject]).isTruthy)
      (do return (← r'.call matcher [subject]).isTruthy) :=
    h.lawful.bind (h.call hmatcher (forall_mem_singleton.mpr hsubject)) fun _ _ => h.lawful.done _
  cases matcher with
  | pattern stamp node scope =>
    obtain ⟨names, hscope, hnode⟩ := h.lawful.pattern hmatcher
    exact h.matchesPattern hnode hsubject hscope
  | type t => exact h.lawful.done _
  | native | function => exact hcall
  | regex | data =>
    dsimp only [Eval.isMatch]
    split <;> exact h.lawful.done _

theorem elementKey {key : Option Node} (i : Nat) (hk : ∀ k ∈ key, I.Runs names k) (henv : I.Scope names env) :
    I.Related (fun _ => True) (elementKey r key i env) (elementKey r' key i env) := by
  cases key with
  | none => exact h.lawful.done _
  | some k =>
    unfold Eval.elementKey
    dsimp only
    split
    · exact h.lawful.done _
    · exact h.lawful.toData (h.eval (hk k rfl) henv)

theorem fitsElement (collection : Value) (i : Nat) {element : Node} (hn : I.Element host names element)
    (henv : I.Scope names env) : I.Related (fun _ => True) (fitsElement host r collection env i element)
      (fitsElement host r' collection env i element) := by
  obtain ⟨id, span, k⟩ := element
  cases k with
  | element key template =>
    refine h.lawful.bind (h.elementKey i hn.1 henv) fun k _ => ?_
    split
    · exact h.lawful.fail (by simp)
    case h_2 l hl => exact h.fits (hn.2 l hl) (h.lawful.data _) henv
  | _ => exact h.lawful.fail (by simp)

theorem fitsElements (collection : Value) (hn : ∀ e ∈ elements, I.Element host names e)
    (henv : I.Scope names env) :
    I.Related (fun _ => True) (Eval.allElements (Eval.fitsElement host r collection env) 0 elements)
      (Eval.allElements (Eval.fitsElement host r' collection env) 0 elements) :=
  h.lawful.allElements (fun i e he => h.fitsElement collection i (hn e he) henv) 0

theorem compares {template : Node} (hn : I.Runs names template) (hsubject : I.Good subject)
    (henv : I.Scope names env) :
    I.Related (fun _ => True) (do Eval.isMatch host r (← r.eval template env) subject)
      (do Eval.isMatch host r' (← r'.eval template env) subject) :=
  h.lawful.bind (h.eval hn henv) fun _ hv => h.isMatch hv hsubject

theorem fitsNode (hset : ∀ l v, I.Good v → I.Related (fun _ => True) (setLocal l v) (setLocal l v))
    {template : Node} {l : Nat} (hn : I.Runs names template)
    (hc : template.tag ∈ [Tag.objectPattern, .arrayPattern] →
      ∀ e ∈ template.children, I.Element host names e) (hsubject : I.Good subject) (henv : I.Scope names env) :
    I.Related (fun _ => True) (fitsNode host r template l subject env)
      (fitsNode host r' template l subject env) := by
  have L := h.lawful
  have hsimple : I.Related (fun _ => True) (fitsSimple host r template l subject env)
      (fitsSimple host r' template l subject env) := by
    have hcompares := h.compares hn hsubject henv
    unfold fitsSimple
    dsimp only
    split
    · refine L.bind (hset l subject hsubject) fun _ _ => ?_
      exact L.bind (h.eval hn henv) fun _ _ => L.done _
    · split
      · split
        · exact L.done _
        · exact hcompares
      · split
        · exact L.done _
        · exact hcompares
      · exact hcompares
  obtain ⟨id, span, k⟩ := template
  cases k with
  | objectPattern elements =>
    refine L.bind (hset _ subject hsubject) fun _ _ => ?_
    split
    · exact h.fitsElements _ (hc (of_decide_eq_true rfl)) henv
    · exact L.done false
  | arrayPattern elements =>
    refine L.bind (hset _ subject hsubject) fun _ _ => ?_
    split
    · split
      · exact h.fitsElements _ (hc (of_decide_eq_true rfl)) henv
      · exact L.done false
    · exact L.done false
  | _ => exact hsimple

theorem chooseBody {clauses : List Node} (hclauses : ∀ c ∈ clauses, I.Clause host names c)
    (hotherwise : ∀ s ∈ otherwise, ∀ names, I.Runs names s) (hsubject : I.Good subject)
    (henv : I.Scope names env) : I.Related (fun body => ∀ s ∈ body, ∀ names, I.Runs names s)
      (chooseBody host r subject env otherwise clauses)
      (chooseBody host r' subject env otherwise clauses) := by
  induction clauses with
  | nil => exact h.lawful.pure hotherwise
  | cons c clauses ih =>
    obtain ⟨hc, hrest⟩ := forall_mem_cons.mp hclauses
    obtain ⟨i, span, k⟩ := c
    cases k with
    | clause patterns body =>
      have hany := h.lawful.anyM fun p hp => h.matchesPattern (hc.1 p hp) hsubject henv
      refine h.lawful.bind hany fun b _ => ?_
      cases b with
      | true => exact h.lawful.pure hc.2
      | false => exact ih hrest
    | _ => exact h.lawful.fail (by simp)

/-! ## Calls -/

theorem enterBody {body : Eval.Body} (hb : I.Enters names body) (henv : I.Scope names env) :
    I.Related I.Good (enterBody r body env) (enterBody r' body env) := by
  cases body with
  | block body => exact h.blockResult hb henv
  | expr e => exact h.eval hb henv

theorem callVal {f : Val} (hf : I.Good f) (hargs : ∀ v ∈ args, I.Good v) :
    I.Related I.Good (callVal host r f args) (callVal host r' f args) := by
  have L := h.lawful
  have htest := L.bind (h.isMatch hf (L.head hargs)) fun b _ => L.pure (L.data (.bool b))
  cases f with
  | data v => exact L.fail (by simp)
  | native name => exact L.callNative hf hargs
  | regex | type | pattern => exact htest
  | function stamp code scope previous =>
    obtain ⟨hprevious, names, hscope, hguard, hbody⟩ := L.function hf
    unfold Eval.callVal
    dsimp only
    refine L.bind (P := I.Scope (names.inside code)) ?_ fun env henv =>
      L.bind (h.admits hguard henv) fun b _ => ?_
    · -- A function sees itself under its name, unless a parameter has the same name.
      split
      case h_1 name hname =>
        rw [Names.inside, hname]
        refine L.weaken (L.bindParams (L.set hscope name hf) hargs) fun env henv => ?_
        exact henv.fewer L fun _ => Names.of_add_append
      case h_2 hname =>
        rw [Names.inside, hname]
        exact L.bindParams hscope hargs
    · cases b with
      | true => exact h.enterBody hbody henv
      | false =>
        cases previous with
        | some earlier => exact h.call (hprevious earlier rfl) hargs
        | none => exact L.fail (by simp)

/-! ## Expressions -/

theorem binary (op : BinaryOp) {left right : Val} (hl : I.Good left) (hr : I.Good right) :
    I.Related I.Good (binary host r op left right) (binary host r' op left right) := by
  unfold Eval.binary
  split
  · exact h.lawful.bind (h.isMatch hr hl) fun _ _ => h.lawful.pure (h.lawful.data _)
  · split
    · exact h.lawful.pure (h.lawful.data _)
    · exact h.lawful.fail (by simp)

theorem evalKey {key : Node} (hk : key.isIdent = false → I.Runs names key) (henv : I.Scope names env)
    (hident : key.ident? = none) :
    I.Related (fun _ => True) (do Eval.asData (← r.eval key env)) (do Eval.asData (← r'.eval key env)) :=
  h.lawful.toData (h.eval (hk (by rw [Node.isIdent, hident]; rfl)) henv)

theorem objectEntry {entry : Node} (hn : I.Runs names entry) (henv : I.Scope names env) :
    I.Related (fun _ => True) (objectEntry r env entry) (objectEntry r' env entry) := by
  have L := h.lawful
  have hneeds := L.needs hn
  obtain ⟨i, span, k⟩ := entry
  cases k with
  | entry key value =>
    obtain ⟨hk, hv⟩ := hneeds
    refine L.bind (P := fun _ => True) ?_ fun k _ => L.bind (h.eval hv henv) fun v _ =>
      L.bind (L.asData v) fun _ _ => L.done _
    unfold entryKey
    split
    · exact L.done _
    case h_2 hident =>
      have hkey := L.bind (h.evalKey hk henv hident) fun d _ => L.done d.propertyKey
      simpa only [bind_assoc] using hkey
  | _ => exact L.fail (by simp)

theorem memberKey {property : Node} (hp : property.isIdent = false → I.Runs names property)
    (henv : I.Scope names env) :
    I.Related (fun _ => True) (memberKey r env property) (memberKey r' env property) := by
  unfold Eval.memberKey
  split
  · exact h.lawful.done _
  case h_2 hident => exact h.evalKey hp henv hident

theorem blockValue (hloose : I.Loose) (hb : ∀ s ∈ body, ∀ names, I.Runs names s) (henv : I.Scope names env) :
    I.Related I.Good (blockValue r body env) (blockValue r' body env) := by
  have L := h.lawful
  unfold Eval.blockValue
  split
  · exact L.pure (L.data .nothing)
  case h_2 last hlast =>
    have hinit := body_of_forall (fun s hs => hb s (body.dropLast_sublist.subset hs)) names
    have hlast := hb last (mem_of_getLast? hlast)
    refine L.bind (h.block hinit henv) fun x hx => ?_
    have hscope := hx.1.scope L (.inr hloose)
    obtain ⟨flow, env'⟩ := x
    cases flow with
    | returned v => exact L.pure (hx.1.returned v rfl)
    | next =>
      have hneeds := L.needs (hlast (names.add (body.dropLast.flatMap introduces)))
      dsimp only
      split
      case h_1 e hkind =>
        unfold Needs at hneeds
        rw [hkind] at hneeds
        exact h.eval hneeds hscope
      case h_2 => exact h.blockResult (body_of_forall (forall_mem_singleton.mpr hlast) _) hscope

theorem accumulate (htags : (∀ a ∈ accumulators, a.tag = .assign) ∨ I.Loose)
    (ha : I.Body names accumulators) (henv : I.Scope names env) :
    I.Related (fun x => I.Scope (names.add (accumulators.flatMap introduces)) x.1)
      (accumulate r accumulators env) (accumulate r' accumulators env) := by
  have L := h.lawful
  induction accumulators generalizing names env with
  | nil => exact L.pure (henv.fewer L fun _ => Names.of_add_nil)
  | cons n ns ih =>
    refine L.bind (h.exec ha.1 henv) fun x hx => ?_
    have hnext : x.1 = .next ∨ I.Loose :=
      htags.elim (fun htags => hx.declares (by simp [htags n mem_cons_self])) .inr
    have htags := htags.imp_left fun htags m hm => htags m (mem_cons_of_mem _ hm)
    refine L.bind (ih htags (ha.2 hx.runs) (hx.leaves.scope L hnext)) fun x hx => L.pure ?_
    rw [flatMap_cons]
    exact hx.fewer L fun _ => Names.of_add_append

theorem reduction (htags : (∀ a ∈ accumulators, a.tag = .assign) ∨ I.Loose) (ha : I.Body names accumulators)
    (hl : I.Loop body (names.add (accumulators.flatMap introduces)) ranges) (henv : I.Scope names env) :
    I.Related I.Good (reduction r accumulators ranges body env)
      (reduction r' accumulators ranges body env) := by
  have L := h.lawful
  refine L.bind (h.accumulate htags ha henv) fun x hx => ?_
  obtain ⟨scope, carried⟩ := x
  have hloop : I.Related (I.Looped scope) (Eval.overRanges r carried body ranges [] { outer := scope })
      (Eval.overRanges r' carried body ranges [] { outer := scope }) :=
    h.overRanges (p := { outer := scope }) hl hx.covers (forall_mem_nil _) hx.good
  refine L.bind hloop fun x hx => ?_
  obtain ⟨flow, p⟩ := x
  cases flow with
  | returned v => exact L.pure (hx.returned v rfl)
  | next =>
    refine L.pure ?_
    cases hget : carried.head?.bind fun name => Dict.get? name p.outer with
    | none => exact L.data .nothing
    | some v =>
      obtain ⟨name, -, hv⟩ := Option.bind_eq_some_iff.mp hget
      exact Dict.forall_get? hx.grown.good hv

theorem evalCall {i : Nat} {callee : Node} {args : List Node} (hcallee : I.Runs names callee)
    (hargs : ∀ a ∈ args, I.Runs names a) (henv : I.Scope names env) :
    I.Related I.Good (evalNode host r ⟨i, span, .call callee args⟩ env)
      (evalNode host r' ⟨i, span, .call callee args⟩ env) := by
  have L := h.lawful
  unfold Eval.evalNode
  dsimp only
  split
  case h_1 template arg hkind =>
    have hneeds := L.needs hcallee
    unfold Needs at hneeds
    rw [hkind] at hneeds
    refine L.bind (h.eval (hargs arg mem_cons_self) henv) fun v hv => ?_
    exact L.bind (h.matchesPattern hneeds.1 hv henv) fun _ _ => L.pure (L.data _)
  case h_2 =>
    refine L.bind (h.eval hcallee henv) fun f hf => ?_
    exact L.bind (L.mapM fun a ha => h.eval (hargs a ha) henv) fun vs hvs => h.call hf hvs

theorem evalNode
    (hcontext : n.tag = .context → I.Related I.Good (evalNode host r n env) (evalNode host r' n env))
    (hn : I.Runs names n) (henv : I.Scope names env) :
    I.Related I.Good (evalNode host r n env) (evalNode host r' n env) := by
  have L := h.lawful
  have hneeds := L.needs hn
  obtain ⟨i, span, k⟩ := n
  cases k with
  | literal value => exact L.pure (L.data value)
  | ident name => exact hneeds env henv
  | context => exact hcontext rfl
  | unary op operand => exact L.bind (h.eval hneeds henv) fun v _ => L.unary op v
  | binary op left right =>
    refine L.bind (h.eval hneeds.1 henv) fun v hv => L.bind (h.eval hneeds.2 henv) fun w hw => ?_
    exact h.binary op hv hw
  | conj left right =>
    refine L.bind (h.eval hneeds.1 henv) fun v hv => ?_
    split
    · exact h.eval hneeds.2 henv
    · exact L.pure hv
  | disj left right =>
    refine L.bind (h.eval hneeds.1 henv) fun v hv => ?_
    split
    · exact L.pure hv
    · exact h.eval hneeds.2 henv
  | cond condition consequent alternative =>
    refine L.bind (h.eval hneeds.1 henv) fun v _ => ?_
    split
    · exact h.eval hneeds.2.1 henv
    · exact h.eval hneeds.2.2 henv
  | array elements =>
    have helements := L.mapM fun e he => L.toData (h.eval (hneeds e he) henv)
    exact L.bind helements fun _ _ => L.pure (L.data _)
  | object entries =>
    exact L.bind (L.mapM fun e he => h.objectEntry (hneeds e he) henv) fun _ _ => L.pure (L.data _)
  | member object property =>
    refine L.bind (h.eval hneeds.1 henv) fun v _ => L.bind (L.asData v) fun target _ => ?_
    exact L.bind (h.memberKey hneeds.2 henv) fun _ _ => L.pure (L.data _)
  | call callee args => exact h.evalCall hneeds.1 hneeds.2 henv
  | lambda params body => exact L.bind L.freshStamp fun stamp _ => L.pure (hneeds stamp env henv)
  | pattern template => exact L.bind L.freshStamp fun stamp _ => L.pure (hneeds.2 stamp env henv)
  | regex pattern flags =>
    unfold Eval.evalNode
    dsimp only
    split
    · exact L.pure (L.regex ..)
    · exact L.fail (by simp)
  | choose value clauses otherwise =>
    obtain ⟨hloose, hvalue, hclauses, hotherwise⟩ := hneeds
    refine L.bind (h.eval hvalue henv) fun v hv => ?_
    refine L.bind (h.chooseBody hclauses hotherwise hv henv) fun body hbody => ?_
    exact h.blockValue hloose hbody henv
  | reduce accumulators ranges body => exact h.reduction hneeds.1 hneeds.2.1 hneeds.2.2 henv
  | _ => exact L.fail (by simp)

/-! ## Statements -/

theorem next (hintroduces : introduces n = []) (hdeclares : n.tag ∉ [Tag.declare, .assign, .function])
    (hruns : n.tag ∉ idleTags) {flow : Flow} (hflow : ∀ v, flow = .returned v → I.Good v)
    (henv : I.Scope names env) : I.Executed names n (flow, env) := by
  refine ⟨⟨hflow, henv.good, fun _ => ?_⟩, fun hmem => absurd hmem hdeclares, .inl hruns⟩
  rw [hintroduces]
  exact h.lawful.fewer henv.covers fun _ => Names.of_add_nil

theorem execBlock (hloose : I.Loose) (hb : I.Body names body) (henv : I.Scope names env) :
    I.Related (I.Executed names n) (Eval.block r.exec body env) (Eval.block r'.exec body env) :=
  h.lawful.weaken (h.block hb henv) fun _ hx =>
    ⟨⟨hx.1.returned, hx.1.good, fun _ => h.lawful.loose hloose _ _⟩, fun _ => .inr hloose, .inr hloose⟩

theorem execExpr {i : Nat} {expr : Node} (hn : I.Runs names expr) (henv : I.Scope names env) :
    I.Related (I.Executed names ⟨i, span, .exprStmt expr⟩)
      (execNode host r ⟨i, span, .exprStmt expr⟩ env) (execNode host r' ⟨i, span, .exprStmt expr⟩ env) := by
  have L := h.lawful
  have hneeds := L.needs hn
  unfold Eval.execNode
  dsimp only
  split
  case h_1 value clauses otherwise hkind =>
    unfold Needs at hneeds
    rw [hkind] at hneeds
    obtain ⟨hloose, hvalue, hclauses, hotherwise⟩ := hneeds
    refine L.bind (h.eval hvalue henv) fun v hv => ?_
    refine L.bind (h.chooseBody hclauses hotherwise hv henv) fun body hbody => ?_
    exact h.execBlock hloose (body_of_forall hbody names) henv
  case h_2 =>
    refine L.bind (h.eval hn henv) fun v _ => L.pure ?_
    exact h.next rfl (of_decide_eq_true rfl) (of_decide_eq_true rfl) nofun henv

theorem execLoop {i : Nat} (hotherwise : otherwise = [] ∨ I.Loose) (hl : I.Loop body names ranges)
    (hb : I.Body names otherwise) (henv : I.Scope names env) :
    I.Related (I.Executed names ⟨i, span, .loop ranges body otherwise⟩)
      (execNode host r ⟨i, span, .loop ranges body otherwise⟩ env)
      (execNode host r' ⟨i, span, .loop ranges body otherwise⟩ env) := by
  have L := h.lawful
  have hdone {flow : Flow} (hflow : ∀ v, flow = .returned v → I.Good v) :
      I.Executed names ⟨i, span, .loop ranges body otherwise⟩ (flow, env) :=
    h.next rfl (of_decide_eq_true rfl) (of_decide_eq_true rfl) hflow henv
  have hloop : I.Related (I.Looped env) (Eval.overRanges r [] body ranges [] { outer := env })
      (Eval.overRanges r' [] body ranges [] { outer := env }) :=
    h.overRanges (p := { outer := env }) hl henv.covers (forall_mem_nil _) henv.good
  refine L.bind hloop fun x hx => ?_
  obtain ⟨flow, p⟩ := x
  cases flow with
  | returned v => exact L.pure (hdone hx.returned)
  | next =>
    show I.Related _ (if p.ran then pure (.next, env) else Eval.block r.exec otherwise env)
      (if p.ran then pure (.next, env) else Eval.block r'.exec otherwise env)
    split
    · exact L.pure (hdone hx.returned)
    · rcases hotherwise with rfl | hloose
      · exact L.pure (hdone hx.returned)
      · exact h.execBlock hloose hb henv

theorem exportedDecl (i : Nat) (span : Span) {decl : Option Node} (items : List ModuleItem)
    (htags : (∀ d ∈ decl, d.tag ∈ [Tag.declare, .assign, .function]) ∨ I.Loose)
    (hd : ∀ d ∈ decl, I.Runs names d) (henv : I.Scope names env) :
    I.Related (fun x => x.2 = introduces ⟨i, span, .exported decl items⟩ ∧
      I.Scope (names.add (introduces ⟨i, span, .exported decl items⟩)) x.1)
      (exportedDecl r decl env) (exportedDecl r' decl env) := by
  have L := h.lawful
  cases decl with
  | none => exact L.pure ⟨rfl, henv.fewer L fun _ => Names.of_add_nil⟩
  | some d =>
    refine L.bind (h.exec (hd d rfl) henv) fun x hx => L.pure ⟨rfl, ?_⟩
    rcases htags with htags | hloose
    · have hdeclared : introduces d = d.declaredNames := by
        refine Scope.introduces_eq_declaredNames fun hmem => ?_
        have hdisjoint : ∀ t ∈ [Tag.exported, .range], t ∉ [Tag.declare, .assign, .function] := by
          decide
        exact hdisjoint _ hmem (htags d rfl)
      have hscope := hx.leaves.scope L (hx.declares (htags d rfl))
      rwa [hdeclared] at hscope
    · exact ⟨L.loose hloose _ _, hx.leaves.good⟩

theorem execNode (hn : I.Runs names n) (henv : I.Scope names env) :
    I.Related (I.Executed names n) (execNode host r n env) (execNode host r' n env) := by
  have L := h.lawful
  have hneeds := L.needs hn
  obtain ⟨i, span, k⟩ := n
  cases k with
  | declare assignments =>
    obtain ⟨htags | hloose, hb⟩ := hneeds
    · refine L.weaken (h.block hb henv) fun x hx => ⟨?_, fun _ => hx.2 htags, .inl (of_decide_eq_true rfl)⟩
      rw [Scope.introduces_declare htags]
      exact hx.1
    · exact h.execBlock hloose hb henv
  | assign target value =>
    refine L.bind (h.eval hneeds henv) fun v hv => L.pure ?_
    exact ⟨leaves_next (L.bindTarget henv target hv), fun _ => .inl rfl, .inl (of_decide_eq_true rfl)⟩
  | branch condition thenBody elseBody =>
    obtain ⟨hloose, hcondition, hthen, helse⟩ := hneeds
    refine L.bind (h.eval hcondition henv) fun v _ => ?_
    split
    · exact h.execBlock hloose hthen henv
    · exact h.execBlock hloose helse henv
  | loop ranges body otherwise => exact h.execLoop hneeds.1 hneeds.2.1 hneeds.2.2 henv
  | ret value =>
    refine L.bind (h.eval hneeds henv) fun v hv => L.pure ?_
    refine h.next rfl (of_decide_eq_true rfl) (of_decide_eq_true rfl) ?_ henv
    rintro _ ⟨⟩
    exact hv
  | exprStmt expr => exact h.execExpr hneeds henv
  | function name params guard body =>
    refine L.bind L.freshStamp fun stamp _ => L.pure ?_
    have hgood := hneeds stamp env _ henv fun p (hp : p ∈ if guard.isSome && host.annotations.isShadow i
        then Dict.get? name env else none) => by
      split at hp
      · exact Dict.forall_get? henv.good hp
      · cases hp
    exact ⟨leaves_next (L.set henv name hgood), fun _ => .inl rfl, .inl (of_decide_eq_true rfl)⟩
  | exported decl items =>
    obtain ⟨htags, hd, hfinds⟩ := hneeds
    refine L.bind (h.exportedDecl i span items htags hd henv) fun x hx => ?_
    obtain ⟨env', declared⟩ := x
    obtain ⟨rfl, hscope⟩ := hx
    refine L.bind (L.exportAll (fun e he => hfinds e.1 ?_) hscope) fun _ _ =>
      L.pure ⟨leaves_next hscope, fun _ => .inl rfl, .inl (of_decide_eq_true rfl)⟩
    have hmem := mem_map_of_mem (f := Prod.fst) he
    simpa only [map_append, map_map, Function.comp_def, map_id'] using hmem
  | _ => exact L.fail (by simp)

end Keeps

end Invariant

end Motif.Eval
