import Motif.Proofs.Dict
import Motif.Proofs.Eval.Refinement
import Motif.Proofs.Scope.Lexical

/-!
# Scopes of a running program

At run time a name stands for what is in scope, or else for a host function or a named type. A value
is good if whatever is captured in it can be run: the text of a function or a pattern uses only names
that its scope covers, and so on for the values in that scope. A computation is safe if it does not
meet an undefined name and leaves behind only good values, whatever else it may fail with.
-/

namespace Motif.Scope

open Eval

variable {args : List Val}

/-! ## Good values -/

/-- Names that need no declaration. -/
def Standing (host : Host) : Names := fun x =>
  (host.natives x).isSome = true ∨ (TypeName.ofName? x).isSome = true

def Covers (host : Host) (names : Names) (env : Env) : Prop :=
  ∀ x, names x → x ∈ env.map Prod.fst ∨ Standing host x

def ScopedBody (names : Names) : Body → Prop
  | .block body => InBody Scoped names body
  | .expr e => Scoped names e

inductive Good (host : Host) : Val → Prop where
  | data (v : Value) : Good host (.data v)
  | regex (pattern flags : String) (compiled : Regex.Automaton) :
      Good host (.regex pattern flags compiled)
  | type (t : TypeName) : Good host (.type t)
  | native {name : String} (h : (host.natives name).isSome = true) : Good host (.native name)
  | function {names : Names} {stamp : Nat} {code : Code} {scope : Env} {previous : Option Val}
      (hguard : ∀ g ∈ code.guard, Scoped (names.inside code) g)
      (hbody : ScopedBody (names.inside code) code.body) (hcovers : Covers host names scope)
      (hscope : ∀ b ∈ scope, Good host b.2) (hprevious : ∀ p ∈ previous, Good host p) :
      Good host (.function stamp code scope previous)
  | pattern {names : Names} {stamp : Nat} {node : Node} {scope : Env} (hnode : Scoped names node)
      (hcovers : Covers host names scope) (hscope : ∀ b ∈ scope, Good host b.2) :
      Good host (.pattern stamp node scope)

structure Sane (host : Host) (m : Machine) : Prop where
  locals : ∀ b ∈ m.locals, Good host b.2
  calls : ∀ c ∈ m.calls, ∀ v ∈ c.args, Good host v

/-- What a host function can come by: what is no function and no pattern, the functions of the host,
    and whatever it has been given, now or in an earlier call. -/
inductive Obtainable (host : Host) (earlier : List HostCall) (args : List Val) : Val → Prop where
  | data (v : Value) : Obtainable host earlier args (.data v)
  | regex (pattern flags : String) (compiled : Regex.Automaton) :
      Obtainable host earlier args (.regex pattern flags compiled)
  | type (t : TypeName) : Obtainable host earlier args (.type t)
  | native {name : String} (h : (host.natives name).isSome = true) :
      Obtainable host earlier args (.native name)
  | argument {v : Val} (h : v ∈ args) : Obtainable host earlier args v
  | earlier {c : HostCall} {v : Val} (hc : c ∈ earlier) (hv : v ∈ c.args) :
      Obtainable host earlier args v

/-- Host functions that do not make up functions and patterns, and that never say that a name is
    undefined. -/
structure Trusted (host : Host) : Prop where
  obtains : ∀ name f, host.natives name = some f → ∀ earlier args v,
    f earlier args = .ok v → Obtainable host earlier args v
  errors : ∀ name f, host.natives name = some f → ∀ earlier args x,
    f earlier args ≠ .error (.undefined x)

theorem Obtainable.good {host : Host} {earlier : List HostCall} {v : Val}
    (h : Obtainable host earlier args v) (hearlier : ∀ c ∈ earlier, ∀ v ∈ c.args, Good host v)
    (hargs : ∀ v ∈ args, Good host v) : Good host v := by
  cases h with
  | data v => exact .data v
  | regex pattern flags compiled => exact .regex pattern flags compiled
  | type t => exact .type t
  | native h => exact .native h
  | argument h => exact hargs v h
  | earlier hc hv => exact hearlier _ hc v hv

/-! ## Safe computations -/

def Acceptable {α : Type} (P : α → Prop) : Except Stop α → Prop
  | .ok a => P a
  | .error (.error (.undefined _)) => False
  | .error _ => True

/-- A computation that meets no undefined name and keeps the machine sane. -/
def Safe {α : Type} (host : Host) (P : α → Prop) (x : Run α) : Prop :=
  ∀ m, Sane host m → Acceptable P (x.run.run m).1 ∧ Sane host (x.run.run m).2

section Safe

variable {α β : Type} {host : Host} {P : α → Prop} {Q : β → Prop}

theorem safe_pure {a : α} (h : P a) : Safe host P (pure a) := fun _ hm => ⟨h, hm⟩

theorem safe_outOfFuel : Safe host P (throw .outOfFuel) := fun _ hm => ⟨trivial, hm⟩

theorem safe_fail {e : EvalError} (h : ∀ name, e ≠ .undefined name) : Safe host P (fail e) := by
  intro m hm
  refine ⟨?_, hm⟩
  cases e with
  | undefined name => exact absurd rfl (h name)
  | _ => trivial

theorem acceptable_error {s : Stop} (h : Acceptable P (.error s)) : Acceptable Q (.error s) := by
  cases s with
  | outOfFuel => trivial
  | error e => cases e <;> trivial

theorem Safe.bind {x : Run α} {f : α → Run β} (hx : Safe host P x)
    (hf : ∀ a, P a → Safe host Q (f a)) : Safe host Q (x >>= f) := by
  intro m hm
  obtain ⟨hresult, hm'⟩ := hx m hm
  rw [ExceptT.run_bind, StateT.run_bind]
  rcases hrun : x.run.run m with ⟨s | a, m'⟩
  · rw [hrun] at hresult hm'
    exact ⟨acceptable_error hresult, hm'⟩
  · rw [hrun] at hresult hm'
    exact hf a hresult m' hm'

theorem safe_get : Safe host (Sane host) get := fun _ hm => ⟨hm, hm⟩

theorem safe_record {name : String} (hargs : ∀ v ∈ args, Good host v) :
    Safe host (fun _ => True) (modify fun m => { m with calls := m.calls ++ [{ name, args }] }) :=
  fun _ hm => ⟨trivial, hm.locals,
    List.forall_mem_append.mpr ⟨hm.calls, List.forall_mem_singleton.mpr hargs⟩⟩

theorem safe_freshStamp : Safe host (fun _ => True) freshStamp := fun _ hm => ⟨trivial, hm.locals, hm.calls⟩

theorem safe_setLocal {l : Nat} {v : Val} (hv : Good host v) : Safe host (fun _ => True) (setLocal l v) :=
  fun _ hm => ⟨trivial, Dict.forall_set hm.locals hv, hm.calls⟩

theorem safe_addExport (name : String) (v : Val) : Safe host (fun _ => True) (addExport name v) :=
  fun _ hm => ⟨trivial, hm.locals, hm.calls⟩

end Safe

/-! ## Names at run time -/

section Scopes

variable {host : Host} {names : Names} {env : Env}

theorem safe_lookup {x : String} (hcovers : Covers host names env) (hgood : ∀ b ∈ env, Good host b.2)
    (hx : names x) : Safe host (Good host) (lookup host x env) := by
  unfold lookup
  split
  case h_1 v hv => exact safe_pure (Dict.forall_get? hgood hv)
  case h_2 hnone =>
    have hstanding : Standing host x := by
      refine (hcovers x hx).resolve_left fun hkey => ?_
      rw [← Dict.contains_iff, Dict.contains, hnone] at hkey
      cases hkey
    split
    case isTrue hnative => exact safe_pure (.native hnative)
    case isFalse hnative =>
      split
      case h_1 t _ => exact safe_pure (.type t)
      case h_2 htype =>
        rcases hstanding with h | h
        · exact absurd h hnative
        · rw [htype] at h
          cases h

theorem safe_getLocal (l : Nat) : Safe host (Good host) (getLocal l) := by
  intro m hm
  refine ⟨?_, hm⟩
  show Good host ((Dict.get? l m.locals).getD .nothing)
  cases h : Dict.get? l m.locals with
  | none => exact .data .nothing
  | some v => exact Dict.forall_get? hm.locals h

theorem safe_callNative {name : String} (htrusted : Trusted host)
    (hname : (host.natives name).isSome = true) (hargs : ∀ v ∈ args, Good host v) :
    Safe host (Good host) (callNative host name args) := by
  obtain ⟨f, hf⟩ := Option.isSome_iff_exists.mp hname
  refine Safe.bind safe_get fun m hm => Safe.bind (safe_record hargs) fun _ _ => ?_
  rw [hf]
  dsimp only
  split
  case h_1 v hv => exact safe_pure ((htrusted.obtains name f hf m.calls args v hv).good hm.calls hargs)
  case h_2 e he => exact safe_fail fun x hx => htrusted.errors name f hf m.calls args x (hx ▸ he)

end Scopes

end Motif.Scope
