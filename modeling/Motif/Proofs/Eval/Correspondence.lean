import Motif.Proofs.Dict
import Motif.Proofs.Eval.Host
import Motif.Proofs.Eval.Refinement
import Motif.Proofs.Tree.Layer

/-!
# Programs that correspond

A correspondence says which nodes of one program stand for which nodes of another. It carries over
to what running programs hold: functions and patterns are alike if their texts correspond and their
scopes are alike, and two machines are alike if all that they keep is. `Lawful` lists what the rules
of evaluation ask of a correspondence; which nodes it relates is otherwise open.

Evaluation looks at what some parts of a node are: whether a callee is a pattern, a template a bare
name, the last statement of a body an expression. `Placed` says that both programs look alike there.
-/

namespace Motif.Eval

open List

def templateOf (n : Node) : Node :=
  match n.kind with
  | .pattern t => t
  | _ => n

theorem matchesPattern_eq (host : Host) (r : Rules) (n : Node) (v : Val) (e : Env) :
    matchesPattern host r n v e =
      match host.annotations.local? n.id with
      | none => fail (.missingPatternLocal n.id)
      | some l => r.fits (templateOf n) l v e := by
  unfold matchesPattern templateOf
  cases host.annotations.local? n.id with
  | none => rfl
  | some l => cases n.kind <;> rfl

/-- Which nodes and statement lists of two programs correspond, which of them as templates and which
    as the bodies of a choice, whose value is asked for. -/
structure Correspondence where
  node : Node → Node → Prop
  body : List Node → List Node → Prop
  template : Node → Node → Prop
  valued : List Node → List Node → Prop

namespace Correspondence

variable (C : Correspondence)

def Named (n n' : Node) : Prop := C.node n n' ∧ n'.ident? = n.ident?

structure Tests (n n' : Node) : Prop where
  id : n'.id = n.id
  template : C.template (templateOf n) (templateOf n')

/-- What evaluation looks at in the parts of a node is the same in both. -/
def Placed : Kind Node → Kind Node → Prop
  | .call f [_], .call f' _ => f'.tag = .pattern → f.tag = .pattern
  | .exprStmt x, .exprStmt x' => x'.tag = .choose → x.tag = .choose
  | .pattern t, .pattern t' => C.template t t'
  | .clause ps b, .clause ps' b' => Forall₂ C.Tests ps ps' ∧ C.valued b b'
  | .choose _ _ o, .choose _ _ o' => C.valued o o'
  | .exported (some d) _, .exported (some d') _ => d'.declaredNames = d.declaredNames
  | _, _ => True

structure Same (n n' : Node) : Prop where
  id : n'.id = n.id
  kinds : Kind.Rel C.node C.Named C.body n.kind n'.kind
  placed : C.Placed n.kind n'.kind

end Correspondence

/-! ## Values, scopes and machines -/

section Alike

variable (C : Correspondence)

inductive Body.Alike : Body → Body → Prop where
  | block {b b'} (h : C.body b b') : Body.Alike (.block b) (.block b')
  | expr {e e'} (h : C.node e e') : Body.Alike (.expr e) (.expr e')

structure Code.Alike (c c' : Code) : Prop where
  name : c'.name = c.name
  params : Forall₂ C.node c.params c'.params
  guard : Option.Rel C.node c.guard c'.guard
  body : Body.Alike C c.body c'.body

/-- Values of two runs whose texts correspond and whose scopes are alike. -/
inductive Val.Alike : Val → Val → Prop where
  | data (d) : Val.Alike (.data d) (.data d)
  | function {s c c' e e' p p'} (hc : Code.Alike C c c') (he : Dict.Alike Val.Alike e e')
      (hp : Option.Rel Val.Alike p p') : Val.Alike (.function s c e p) (.function s c' e' p')
  | native (n) : Val.Alike (.native n) (.native n)
  | pattern {s n n' e e'} (hn : C.node n n') (ht : C.Tests n n') (he : Dict.Alike Val.Alike e e') :
      Val.Alike (.pattern s n e) (.pattern s n' e')
  | regex (p f c) : Val.Alike (.regex p f c) (.regex p f c)
  | type (t) : Val.Alike (.type t) (.type t)

abbrev Env.Alike : Env → Env → Prop := Dict.Alike (Val.Alike C)

inductive Flow.Alike : Flow → Flow → Prop where
  | next : Flow.Alike .next .next
  | returned {v v'} (h : Val.Alike C v v') : Flow.Alike (.returned v) (.returned v')

structure Outcome (x x' : Flow × Env) : Prop where
  flow : Flow.Alike C x.1 x'.1
  env : Env.Alike C x.2 x'.2

end Alike

/-- Machines that keep the same, up to related values. -/
structure Machine.Alike (R : Val → Val → Prop) (m m' : Machine) : Prop where
  locals : Dict.Alike R m.locals m'.locals
  exports : Dict.Alike R m.exports m'.exports
  calls : Forall₂ (HostCall.Alike R) m.calls m'.calls
  nextStamp : m'.nextStamp = m.nextStamp

theorem Machine.Alike.initial (R : Val → Val → Prop) : Machine.Alike R {} {} := ⟨.nil, .nil, .nil, rfl⟩

namespace Val.Alike

variable {C : Correspondence} {v v' : Val}

theorem data?_eq (h : Val.Alike C v v') : v'.data? = v.data? := by
  cases h <;> rfl

theorem typeName_eq (h : Val.Alike C v v') : v'.typeName = v.typeName := by
  cases h <;> rfl

theorem isTruthy_eq (h : Val.Alike C v v') : v'.isTruthy = v.isTruthy := by
  cases h <;> rfl

theorem hasType_eq (h : Val.Alike C v v') (t : TypeName) : v'.hasType t = v.hasType t := by
  cases h <;> rfl

theorem discreet (C : Correspondence) : Discreet (Val.Alike C) where
  sameFace h := by
    cases h <;> rfl
  data := .data
  regex := .regex
  type := .type

end Val.Alike

/-! ## Laws -/

/-- The kinds of nodes that only ever stand for nodes of the same kind. -/
def rigidTags : List Tag := [.entry, .range, .param, .assign, .exprStmt, .pattern, .clause, .choose]

def statementTags : List Tag := [.declare, .assign, .branch, .loop, .ret, .exprStmt, .function, .exported]

structure Correspondence.Lawful (C : Correspondence) : Prop where
  rigid : ∀ {n n'}, C.node n n' → n.tag ∈ rigidTags → C.Same n n'
  statement : ∀ {n n'}, C.node n n' → n.tag ∈ statementTags → n'.tag = n.tag

namespace Correspondence.Same

variable {C : Correspondence} {n n' : Node}

theorem tag_eq (h : C.Same n n') : n'.tag = n.tag := h.kinds.tag_eq

theorem exists_kind {k : Kind Node} (h : C.Same n n') (hk : n.kind = k) :
    ∃ k', n'.kind = k' ∧ Kind.Rel C.node C.Named C.body k k' ∧ C.Placed k k' :=
  ⟨_, rfl, hk ▸ h.kinds, hk ▸ h.placed⟩

theorem range {t : Target} {c : Node} {g : Option Node} (h : C.Same n n') (hk : n.kind = .range t c g) :
    ∃ c' g', n'.kind = .range t c' g' ∧ C.node c c' ∧ Option.Rel C.node g g' := by
  obtain ⟨_, hk', hrel, -⟩ := h.exists_kind hk
  cases hrel with
  | range hc hg => exact ⟨_, _, hk', hc, hg⟩

theorem param {name : String} {p : Option Node} {v : Bool} (h : C.Same n n')
    (hk : n.kind = .param name p v) : ∃ p', n'.kind = .param name p' v := by
  obtain ⟨_, hk', hrel, -⟩ := h.exists_kind hk
  cases hrel
  exact ⟨_, hk'⟩

theorem entry {key value : Node} (h : C.Same n n') (hk : n.kind = .entry key value) :
    ∃ key' value', n'.kind = .entry key' value' ∧ C.Named key key' ∧ C.node value value' := by
  obtain ⟨_, hk', hrel, -⟩ := h.exists_kind hk
  cases hrel with
  | entry hkey hvalue => exact ⟨_, _, hk', hkey, hvalue⟩

theorem assign {t : Target} {v : Node} (h : C.Same n n') (hk : n.kind = .assign t v) :
    ∃ v', n'.kind = .assign t v' ∧ C.node v v' := by
  obtain ⟨_, hk', hrel, -⟩ := h.exists_kind hk
  cases hrel with
  | assign hv => exact ⟨_, hk', hv⟩

theorem exprStmt {x : Node} (h : C.Same n n') (hk : n.kind = .exprStmt x) :
    ∃ x', n'.kind = .exprStmt x' ∧ C.node x x' := by
  obtain ⟨_, hk', hrel, -⟩ := h.exists_kind hk
  cases hrel with
  | exprStmt hx => exact ⟨_, hk', hx⟩

theorem choose {v : Node} {cs o : List Node} (h : C.Same n n') (hk : n.kind = .choose v cs o) :
    ∃ v' cs' o', n'.kind = .choose v' cs' o' ∧ C.node v v' ∧ Forall₂ C.node cs cs' ∧
      C.body o o' ∧ C.valued o o' := by
  obtain ⟨_, hk', hrel, hplaced⟩ := h.exists_kind hk
  cases hrel with
  | choose hv hcs ho => exact ⟨_, _, _, hk', hv, hcs, ho, hplaced⟩

theorem clause {ps b : List Node} (h : C.Same n n') (hk : n.kind = .clause ps b) :
    ∃ ps' b', n'.kind = .clause ps' b' ∧ Forall₂ C.Tests ps ps' ∧ C.body b b' ∧ C.valued b b' := by
  obtain ⟨_, hk', hrel, hplaced⟩ := h.exists_kind hk
  cases hrel with
  | clause hp hb => exact ⟨_, _, hk', hplaced.1, hb, hplaced.2⟩

theorem tests (h : C.Same n n') (htag : n.tag = .pattern) : C.Tests n n' := by
  have hrel := h.kinds
  have hplaced := h.placed
  refine ⟨h.id, ?_⟩
  unfold templateOf
  simp only [Node.tag] at htag
  generalize n.kind = k at *
  generalize n'.kind = k' at *
  cases hrel with
  | pattern => exact hplaced
  | _ => cases htag

end Correspondence.Same

/-! ## Templates -/

section Templates

variable (C : Correspondence)

def Correspondence.Element (n n' : Node) : Prop :=
  ∀ ⦃key t⦄, n.kind = .element key t → n'.id = n.id ∧
    ∃ key' t', n'.kind = .element key' t' ∧ Option.Rel C.Named key key' ∧ C.template t t'

inductive Correspondence.Collection : Kind Node → Kind Node → Prop where
  | object {es es'} (h : Forall₂ C.Element es es') :
      Collection (.objectPattern es) (.objectPattern es')
  | array {es es'} (h : Forall₂ C.Element es es') :
      Collection (.arrayPattern es) (.arrayPattern es')

def collectionTags : List Tag := [.objectPattern, .arrayPattern]

/-- Whether a template speaks of the value under test. -/
def speaks (host : Host) (n : Node) : Bool := n.tag == .context || host.annotations.has n.id .patternContext

def holdsFor (rules : Rules) (n : Node) (l : Nat) (subject : Val) (env : Env) : Run Bool := do
  setLocal l subject
  return (← rules.eval n env).isTruthy

def comparesWith (host : Host) (rules : Rules) (n : Node) (subject : Val) (env : Env) : Run Bool := do
  isMatch host rules (← rules.eval n env) subject

/-- How a template stands for another one: both are collections or one and the same leaf, or both
    are evaluated for the same use and the second one does at least as well as a template. -/
inductive Correspondence.Tested (host : Host) (r : Rules) (n n' : Node) : Prop where
  | collection (hid : n'.id = n.id) (h : C.Collection n.kind n'.kind)
  | leaf (hid : n'.id = n.id) (hkind : n'.kind = n.kind) (htag : n.tag ∉ collectionTags)
      (hn : C.node n n')
  | condition (hspeaks : speaks host n = true) (htag : n.tag ∉ collectionTags) (hn : C.node n n')
      (himp : ∀ l v e, Improves (holdsFor r n' l v e) (fitsNode host r n' l v e))
  | comparison (hspeaks : speaks host n = false)
      (htag : n.tag ∉ Tag.ident :: .literal :: collectionTags) (hn : C.node n n')
      (himp : ∀ l v e, Improves (comparesWith host r n' v e) (fitsNode host r n' l v e))

end Templates

/-! ## Programs that correspond to themselves -/

structure Correspondence.Reflexive (C : Correspondence) : Prop where
  node : ∀ n, C.node n n
  body : ∀ b, C.body b b
  template : ∀ n, C.template n n
  valued : ∀ b, C.valued b b

namespace Correspondence.Reflexive

variable {C : Correspondence} (h : C.Reflexive)

include h

theorem tests (n : Node) : C.Tests n n := ⟨rfl, h.template _⟩

theorem placed (k : Kind Node) : C.Placed k k := by
  cases k with
  | call f as =>
    cases as with
    | nil => trivial
    | cons a as =>
      cases as with
      | nil => exact id
      | cons => trivial
  | exprStmt x => exact id
  | pattern t => exact h.template t
  | clause ps b => exact ⟨forall₂_same.mpr fun p _ => h.tests p, h.valued b⟩
  | choose v cs o => exact h.valued o
  | exported d items =>
    cases d with
    | none => trivial
    | some d => rfl
  | _ => trivial

theorem same (n : Node) : C.Same n n where
  id := rfl
  kinds := (Kind.Rel.refl n.kind).imp (fun _ _ _ heq => heq ▸ h.node _)
    (fun _ _ _ heq => heq ▸ ⟨h.node _, rfl⟩) (fun _ _ _ heq => heq ▸ h.body _)
  placed := h.placed n.kind

theorem element (n : Node) : C.Element n n := by
  intro key t hk
  refine ⟨rfl, key, t, hk, ?_, h.template t⟩
  cases key with
  | none => exact .none
  | some k => exact .some ⟨h.node k, rfl⟩

theorem tested (host : Host) (r : Rules) (n : Node) : C.Tested host r n n := by
  have helements (es : List Node) : Forall₂ C.Element es es := forall₂_same.mpr fun n _ => h.element n
  obtain ⟨i, span, k⟩ := n
  cases k with
  | objectPattern es => exact .collection rfl (.object (helements es))
  | arrayPattern es => exact .collection rfl (.array (helements es))
  | _ => exact .leaf rfl rfl (of_decide_eq_true rfl) (h.node _)

theorem code (c : Code) : Code.Alike C c c := by
  refine ⟨rfl, forall₂_same.mpr fun n _ => h.node n, ?_, ?_⟩
  · cases c.guard with
    | none => exact .none
    | some g => exact .some (h.node g)
  · cases c.body with
    | block b => exact .block (h.body b)
    | expr e => exact .expr (h.node e)

omit h

mutual

theorem val (h : C.Reflexive) : ∀ v, Val.Alike C v v
  | .function _ c e p => .function (h.code c) (h.env e) (h.previous p)
  | .pattern _ n e => .pattern (h.node n) (h.tests n) (h.env e)
  | .data d => .data d
  | .native n => .native n
  | .regex p f c => .regex p f c
  | .type t => .type t

theorem env (h : C.Reflexive) : ∀ e : List (String × Val), Dict.Alike (Val.Alike C) e e
  | [] => .nil
  | (_, v) :: e => .cons (h.val v) (h.env e)

theorem previous (h : C.Reflexive) : ∀ p : Option Val, Option.Rel (Val.Alike C) p p
  | none => .none
  | some v => .some (h.val v)

end

theorem machine (h : C.Reflexive) (m : Machine) : Machine.Alike (Val.Alike C) m m where
  locals := Dict.Alike.refl h.val m.locals
  exports := Dict.Alike.refl h.val m.exports
  calls := forall₂_same.mpr fun _ _ => ⟨rfl, forall₂_same.mpr fun v _ => h.val v⟩
  nextStamp := rfl

end Correspondence.Reflexive

/-- Whenever the first run succeeds, so does the second from an alike machine. -/
abbrev Follows {α β : Type} (C : Correspondence) (P : α → β → Prop) (x : Run α) (y : Run β) : Prop :=
  Refines (Machine.Alike (Val.Alike C)) P x y

/-- The rules of two runs, the second of which follows the first on corresponding programs. -/
structure Rules.Sim (C : Correspondence) (r r' : Rules) : Prop where
  onlyStatements : ∀ {n e m x m₁}, Gives (r.exec n e) m x m₁ → n.tag ∈ statementTags
  eval : ∀ {n n' e e'}, C.node n n' → Env.Alike C e e' →
    Follows C (Val.Alike C) (r.eval n e) (r'.eval n' e')
  exec : ∀ {n n' e e'}, C.node n n' → Env.Alike C e e' →
    Follows C (Outcome C) (r.exec n e) (r'.exec n' e')
  block : ∀ {b b' e e'}, C.body b b' → Env.Alike C e e' →
    Follows C (Outcome C) (block r.exec b e) (block r'.exec b' e')
  value : ∀ {b b' e e'}, C.valued b b' → Env.Alike C e e' →
    Follows C (Val.Alike C) (blockValue r b e) (blockValue r' b' e')
  call : ∀ {f f' as as'}, Val.Alike C f f' → Forall₂ (Val.Alike C) as as' →
    Follows C (Val.Alike C) (r.call f as) (r'.call f' as')
  fits : ∀ {n n' v v' e e'} (l : Nat), C.template n n' → Val.Alike C v v' → Env.Alike C e e' →
    Follows C (· = ·) (r.fits n l v e) (r'.fits n' l v' e')

/-! ## Hosts that cannot read -/

/-- A relation between the values of two runs under which nothing tells them apart: data are equal,
    functions carry the same stamps, and whenever a call succeeds, from alike states the call of the
    related function on related arguments succeeds alike, exports and calls of host functions
    included. -/
structure Interchangeable (host : Host) (R : Val → Val → Prop) : Prop extends Discreet R where
  call : ∀ fuel {f f' args args'}, R f f' → Forall₂ R args args' →
    Refines (Machine.Alike R) R ((Rules.upTo host fuel).call f args)
      ((Rules.upTo host fuel).call f' args')

/-- What a host function has to say of a call that it makes itself. -/
def Host.answer (host : Host) (fuel : Nat) (f : Val) (args : List Val) : Except EvalError Val :=
  match ((Rules.upTo host fuel).call f args).run.run {} with
  | (.ok v, _) => .ok v
  | (.error (.error e), _) => .error e
  | (.error .outOfFuel, _) => .error (.undefined "fuel")

theorem Interchangeable.answer {host : Host} {R : Val → Val → Prop} {fuel : Nat} {f f' v : Val}
    {args args' : List Val} (hR : Interchangeable host R) (hf : R f f') (hargs : Forall₂ R args args')
    (h : host.answer fuel f args = .ok v) : ∃ v', host.answer fuel f' args' = .ok v' ∧ R v v' := by
  unfold Host.answer at h ⊢
  rcases hcall : ((Rules.upTo host fuel).call f args).run.run {} with ⟨(_ | e) | v₁, m₁⟩
  · rw [hcall] at h
    cases h
  · rw [hcall] at h
    cases h
  · rw [hcall] at h
    cases h
    obtain ⟨v', m', hcall', hv, -⟩ := hR.call fuel hf hargs (.initial R) hcall
    rw [Gives] at hcall'
    exact ⟨v', by rw [hcall'], hv⟩

end Motif.Eval
