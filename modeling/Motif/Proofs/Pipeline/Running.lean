import Motif.Proofs.Pipeline.Passes
import Motif.Proofs.Scope.Elaborated
import Motif.Proofs.Scope.Soundness

/-!
# Running what has been checked

A program in which the passes find no error uses only names that are visible to it, and if it is ordered
a run has given every such name a value before it is used. Order matters: what is declared in an operand
counts as declared, whether or not a run gets there.
-/

namespace Motif

open Eval Scope List

theorem Eval.sane_start (host : Host) : Sane host {} := ⟨forall_mem_nil _, forall_mem_nil _⟩

theorem Eval.safe_run {host : Host} (htrusted : Trusted host) {names : Names}
    (hnames : ∀ x, names x → Standing host x) {root : Node} {body : List Node}
    (hroot : root.kind = .module body) (hbody : InBody Scoped names body) (fuel : Nat) :
    Safe host (Good host) (Eval.run host fuel root) := by
  have hstart : (safety host).Scope names [] := ⟨fun x hx => .inr (hnames x hx), forall_mem_nil _⟩
  unfold Eval.run
  rw [hroot]
  exact (safety_upTo htrusted fuel).blockResult (body_of_inBody hbody) hstart

/-- An ordered program can be checked, and if no error is found then, whatever the host is, no run of it
    meets an undefined name: the functions of the host have only to be trusted, and the configured
    globals to be types or functions of the host. -/
theorem checked_run_defined {t : Tree} (ht : t.Built) (hordered : Ordered t.root) (options : Options) :
    ∃ tree session, runPasses options [.pattern, .scope] t = .ok (tree, session) ∧
      (session.hasErrors = false → ∀ host, Trusted host → (∀ x ∈ options.globals, Standing host x) →
        ∀ fuel name, ((Eval.run host fuel tree.root).run.run {}).1 ≠ .error (.error (.undefined name))) := by
  obtain ⟨tree, session, hrun, -⟩ := runPasses_intact ht options [.pattern, .scope]
  refine ⟨tree, session, hrun, fun herrors host htrusted hglobals fuel name hundefined => ?_⟩
  obtain ⟨root, rfl⟩ := ht.exists_root
  obtain ⟨body, hroot, hbody⟩ := inBody_of_passes hordered hrun herrors
  have hsafe := (safe_run htrusted hglobals hroot hbody fuel {} (sane_start host)).1
  rw [hundefined] at hsafe
  exact hsafe

def notingHost (annotations : Annotations) : Host where
  annotations
  natives name := if name = "note" then some fun _ args => .ok (args.headD .nothing) else none

theorem notingHost_trusted (annotations : Annotations) : Trusted (notingHost annotations) := by
  have hnote {name : String} {f : List HostCall → List Val → Except EvalError Val}
      (hf : (notingHost annotations).natives name = some f) (earlier : List HostCall)
      (args : List Val) : f earlier args = .ok (args.headD .nothing) := by
    unfold notingHost at hf
    dsimp only at hf
    split at hf
    · cases hf
      rfl
    · cases hf
  refine ⟨fun name f hf earlier args v hv => ?_, fun name f hf earlier args x hx => ?_⟩
  · rw [hnote hf] at hv
    cases hv
    cases args with
    | nil => exact .data .nothing
    | cons v args => exact .argument mem_cons_self
  · rw [hnote hf] at hx
    cases hx

/-- Two definitions of a function, the second with a pattern for its parameter and a lambda in its body,
    a loop that calls the host, and an exported reduction. -/
def touringBody : List Node :=
  let text (s : String) : Node := .ofKind (.literal (.string s))
  let name (s : String) : Node := .ofKind (.ident s)
  let call (f : Node) (x : Node) : Node := .ofKind (.call f [x])
  let sum (x y : Node) : Node := .ofKind (.binary .add x y)
  let param (s : String) (pattern : Option Node) : Node := .ofKind (.param s pattern false)
  let later : Node := .ofKind (.pattern (.ofKind (.binary .gt (.ofKind .context) (text "m"))))
  let exclaim : Node := .ofKind (.lambda [param "y" none] (sum (name "x") (name "y")))
  [.ofKind (.function "f" [param "x" none] none [.ofKind (.ret (name "x"))]),
    .ofKind (.function "f" [param "x" (some later)] none [.ofKind (.ret (call exclaim (text "!")))]),
    .ofKind (.declare [.ofKind (.assign (.name "texts") (.ofKind (.array
      [call (name "f") (text "a"), call (name "f") (text "z")])))]),
    .ofKind (.loop [.ofKind (.range (.name "t") (name "texts") (some (name "t")))]
      [.ofKind (.exprStmt (call (name "note") (name "t")))] []),
    .ofKind (.exported (some (.ofKind (.assign (.name "all") (.ofKind (.reduce
      [.ofKind (.assign (.name "sum") (text ""))] [.ofKind (.range (.name "t") (name "texts") none)]
      [.ofKind (.assign (.name "sum") (sum (name "sum") (name "t")))]))))) []),
    .ofKind (.ret (name "all"))]

def touringOptions : Options := { globals := ["note", "String"] }

theorem touringBody_runs :
    (runPasses touringOptions [.pattern, .scope] (.ofBody touringBody)).toOption.any (fun result =>
      let run := Eval.run (notingHost result.2.annotations) 12 result.1.root
      !result.2.hasErrors &&
        (run.run.run {}).1.toOption.bind Val.data? == some (.string "az!")) = true := by
  decide +kernel

theorem checked_run_defined_touring :
    Ordered (Tree.ofBody touringBody).root ∧ ∃ tree session,
      runPasses touringOptions [.pattern, .scope] (.ofBody touringBody) = .ok (tree, session) ∧
      session.hasErrors = false ∧ Trusted (notingHost session.annotations) ∧
      (∀ x ∈ touringOptions.globals, Standing (notingHost session.annotations) x) ∧
      (((Eval.run (notingHost session.annotations) 12 tree.root).run.run {}).1.toOption.bind
        Val.data? = some (.string "az!")) ∧
      ∀ fuel name, ((Eval.run (notingHost session.annotations) fuel tree.root).run.run {}).1 ≠
        .error (.error (.undefined name)) := by
  have hordered : Ordered (Tree.ofBody touringBody).root := by decide
  obtain ⟨tree, session, hrun, hdefined⟩ := checked_run_defined (.body touringBody) hordered touringOptions
  have hruns := touringBody_runs
  simp only [hrun, Except.toOption, Option.any_some, Bool.and_eq_true, Bool.not_eq_true', beq_iff_eq] at hruns
  have htrusted := notingHost_trusted session.annotations
  have hglobals : ∀ x ∈ touringOptions.globals, Standing (notingHost session.annotations) x :=
    forall_mem_cons.mpr ⟨.inl rfl, forall_mem_singleton.mpr (.inr rfl)⟩
  exact ⟨hordered, tree, session, hrun, hruns.1, htrusted, hglobals, hruns.2,
    hdefined hruns.1 _ htrusted hglobals⟩

/-- Statements that are in their places, in which no error is found, and a run of which nevertheless
    meets an undefined name. -/
def Overlooked (name : String) (body : List Node) : Prop :=
  Placed Scope.statementTags (Tree.ofBody body).root ∧ ∃ tree session,
    runPasses {} [.pattern, .scope] (.ofBody body) = .ok (tree, session) ∧
    session.hasErrors = false ∧ ∃ host : Host, host.annotations = session.annotations ∧
      Trusted host ∧ (∀ x ∈ ({} : Options).globals, Standing host x) ∧
      ((Eval.run host 5 tree.root).run.run {}).1 = .error (.error (.undefined name))

def skipping (operand : Node) (name : String) : List Node :=
  [.ofKind (.exprStmt (.ofKind (.conj (.ofKind (.literal (.bool false))) operand))),
    .ofKind (.ret (.ofKind (.ident name)))]

def undefined? : Except Stop Val → Option String
  | .error (.error (.undefined name)) => some name
  | _ => none

theorem eq_of_undefined? {result : Except Stop Val} {name : String}
    (h : undefined? result = some name) : result = .error (.error (.undefined name)) := by
  unfold undefined? at h
  split at h
  · cases h
    rfl
  · cases h

theorem overlooked_of_runs {name : String} {body : List Node}
    (hplaced : Placed Scope.statementTags (Tree.ofBody body).root)
    (hruns : (runPasses {} [.pattern, .scope] (.ofBody body)).toOption.any (fun result =>
      let run := Eval.run (notingHost result.2.annotations) 5 result.1.root
      !result.2.hasErrors && undefined? (run.run.run {}).1 == some name) = true) : Overlooked name body := by
  obtain ⟨tree, session, hrun, -⟩ := runPasses_intact (.body body) {} [.pattern, .scope]
  simp only [hrun, Except.toOption, Option.any_some, Bool.and_eq_true, Bool.not_eq_true', beq_iff_eq] at hruns
  have htypes : ∀ x ∈ ({} : Options).globals, (TypeName.ofName? x).isSome = true := by decide
  exact ⟨hplaced, tree, session, hrun, hruns.1, notingHost session.annotations, rfl,
    notingHost_trusted _, fun x hx => .inr (htypes x hx), eq_of_undefined? hruns.2⟩

/-- What a clause or a range declares as an operand need not have been declared by a run. -/
theorem overlooked_clause_and_range :
    Overlooked "x" (skipping
        (.ofKind (.clause [] [.ofKind (.assign (.name "x") (.ofKind (.literal .null)))])) "x") ∧
      Overlooked "x" (skipping
        (.ofKind (.range (.name "x") (.ofKind (.array [.ofKind (.literal .null)])) none)) "x") :=
  ⟨overlooked_of_runs (by decide) rfl,
    overlooked_of_runs (by decide) rfl⟩

end Motif
