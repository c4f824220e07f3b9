import Motif.Emit.Module
import Motif.Proofs.Emit.Names
import Motif.Proofs.Eval.Refinement
import Motif.Proofs.Script.Meaning

/-!
# Code that mirrors statements

Programs of declarations, assignments to names, branches and returns, and the code that is generated
for them. Every write has an id of its own, so what ties the scope of a run to the store of the
generated code is the table of names at that place in the program: what a name is worth is what its
latest id holds (`Matches`). Code keeps that true and changes no id that was handed out before it
(`Mirrors`).
-/

namespace Motif.Emit

open Script Eval

variable {code : List Stmt} {span : Span} {i : Nat}

/-! ## The part of the language -/

/-- A name that is the program's own: not a configured global, and not that of a type. -/
structure OwnName (options : Options) (name : String) : Prop where
  undecorated : Undecorated name
  notGlobal : name ∉ options.globals
  notType : TypeName.ofName? name = none

instance (options : Options) (name : String) : Decidable (OwnName options name) :=
  decidable_of_iff ('$' ∉ name.toList ∧ name ∉ options.globals ∧ TypeName.ofName? name = none)
    ⟨fun h => ⟨h.1, h.2.1, h.2.2⟩, fun h => ⟨h.undecorated, h.notGlobal, h.notType⟩⟩

/-- The host has no functions under names that are the program's own. -/
def Apart (options : Options) (host : Host) : Prop := ∀ name, OwnName options name → host.natives name = none

/-- A value that is generated in place: a primitive one, and not a long text. -/
def Inlined (limit : Nat) : Value → Prop
  | .string s => s.length ≤ limit
  | v => v.isPrimitive = true

/-- Names of the program, and literals that are written where they stand. -/
inductive PlainExpr (options : Options) : Node → Prop where
  | ident {i s name} (h : OwnName options name) : PlainExpr options ⟨i, s, .ident name⟩
  | literal {i s d} (h : Inlined options.inlineStringLimit d) :
      PlainExpr options ⟨i, s, .literal d⟩

/-- Declarations, assignments, branches and returns of such expressions. -/
inductive PlainStmt (options : Options) : Node → Prop where
  | declare {i s as} (h : ∀ a ∈ as, PlainStmt options a) :
      PlainStmt options ⟨i, s, .declare as⟩
  | assign {i s name v} (h : OwnName options name) (hv : PlainExpr options v) :
      PlainStmt options ⟨i, s, .assign (.name name) v⟩
  | branch {i s c t f} (hc : PlainExpr options c) (ht : ∀ n ∈ t, PlainStmt options n)
      (hf : ∀ n ∈ f, PlainStmt options n) : PlainStmt options ⟨i, s, .branch c t f⟩
  | ret {i s v} (hv : PlainExpr options v) : PlainStmt options ⟨i, s, .ret v⟩

/-! ## Scopes and stores -/

/-- Every name in scope is worth what its latest id holds. -/
def Matches (s : State) (e : Env) (store : Store) : Prop :=
  ∀ name v, Dict.get? name e = some v →
    ∃ d id, v = .data d ∧ s.names.current? name = some id ∧ Dict.get? id store = some d

def Declares (s : State) (store : Store) : Prop := ∀ id ∈ s.hoisted, Dict.contains id store = true

/-- The second store has the same ids, and the values of all ids that had been handed out. -/
structure Spares (s : State) (store store' : Store) : Prop where
  declared : ∀ id, Dict.contains id store' = Dict.contains id store
  value : ∀ name id, Issued s name id → Dict.get? id store' = Dict.get? id store

/-- Code that is run ends as a statement does: with the scope after it matched, or with the value
    that it returns. -/
inductive Reaches (s s' : State) (store : Store) (code : List Stmt) : Flow → Env → Prop where
  | next {store' e} (hrun : execBody store code = some (.next store')) (he : Matches s' e store')
      (hspares : Spares s store store') : Reaches s s' store code .next e
  | returned {d e} (hrun : execBody store code = some (.returned d)) :
      Reaches s s' store code (.returned (.data d)) e

theorem Reaches.of_execBody_eq {s s' : State} {store : Store} {code' : List Stmt} {f : Flow} {e : Env}
    (h : Reaches s s' store code f e) (hcode : execBody store code' = execBody store code) :
    Reaches s s' store code' f e := by
  cases h with
  | next hrun he hspares => exact .next (hcode.trans hrun) he hspares
  | returned hrun => exact .returned (hcode.trans hrun)

def Mirrors (s s' : State) (run : Env → Run (Flow × Env)) (code : List Stmt) : Prop :=
  ∀ ⦃e store⦄, Matches s e store → Declares s' store →
    ∀ ⦃m x m₁⦄, Gives (run e) m x m₁ → Reaches s s' store code x.1 x.2

/-- A step of the generator succeeds, and its code does what a statement does with any amount of
    fuel. -/
def Compiles (setting : Setting) (step : Emit (List Stmt)) (run : Nat → Env → Run (Flow × Env)) : Prop :=
  ∀ ⦃s⦄, Sound s → ∃ code s', Emits setting step s code s' ∧ Sound s' ∧ Extends s s' ∧
    ∀ j, Mirrors s s' (run j) code

section Stores

variable {s s₁ s₂ : State} {e : Env} {store store₁ store₂ : Store}

theorem Matches.imp (h : Matches s e store)
    (hnames : ∀ name id, s.names.current? name = some id → s₁.names.current? name = some id) :
    Matches s₁ e store := by
  intro name v hv
  obtain ⟨d, id, hd, hid, hstore⟩ := h name v hv
  exact ⟨d, id, hd, hnames name id hid, hstore⟩

theorem Declares.of_extends (h : Declares s₁ store) (hs : Extends s s₁) : Declares s store :=
  fun id hid => h id (hs.hoisted id hid)

theorem Declares.get? (h : Declares s store) {id : String} (hid : id ∈ s.hoisted) :
    ∃ d, Dict.get? id store = some d :=
  Option.isSome_iff_exists.mp (h id hid)

namespace Spares

theorem refl (s : State) (store : Store) : Spares s store store := ⟨fun _ => rfl, fun _ _ _ => rfl⟩

theorem trans (hs : Extends s s₁) (h₁ : Spares s store store₁) (h₂ : Spares s₁ store₁ store₂) :
    Spares s store store₂ where
  declared id := (h₂.declared id).trans (h₁.declared id)
  value name id hid := (h₂.value name id (hs.issued hid)).trans (h₁.value name id hid)

theorem declares (h : Spares s₁ store store₁) (hs : Declares s₂ store) : Declares s₂ store₁ :=
  fun id hid => (h.declared id).trans (hs id hid)

theorem mono (h : Spares s₁ store store₁) (hs : Extends s s₁) : Spares s store store₁ where
  declared := h.declared
  value name id hid := h.value name id (hs.issued hid)

theorem set {id : String} {d : Value} (hid : Dict.contains id store = true)
    (hnew : ∀ name' id', Issued s name' id' → id' ≠ id) : Spares s store (Dict.set id d store) where
  declared other := by
    unfold Dict.contains at *
    rw [Dict.get?_set]
    split
    · rename_i h
      rw [← h, hid]
      rfl
    · rfl
  value name' id' hid' := by rw [Dict.get?_set, if_neg (Ne.symm (hnew name' id' hid'))]

end Spares

theorem Reaches.mono {f : Flow} (h : Reaches s₁ s₂ store code f e) (hs : Extends s s₁) :
    Reaches s s₂ store code f e := by
  cases h with
  | next hrun he hspares => exact .next hrun he (hspares.mono hs)
  | returned hrun => exact .returned hrun

end Stores

/-! ## Expressions -/

section Expressions

variable {setting : Setting} {host : Host} {s : State} {n : Node}

structure ExprMirrors (host : Host) (n : Node) (s s' : State) (code : Expr) : Prop where
  sound : Sound s'
  later : Extends s s'
  keeps : ∀ name id, s.names.current? name = some id → s'.names.current? name = some id
  value : ∀ ⦃e store⦄, Matches s e store → ∀ ⦃j m v m₁⦄,
    Gives ((Rules.upTo host j).eval n e) m v m₁ → ∃ d, v = .data d ∧ code.value? store = some d

theorem compile_expr (n : Node) : (compile n).expr = exprCode n (n.kind.map compile) := by
  rw [compile_eq]
  rfl

theorem emits_literal {d : Value} (hd : Inlined setting.options.inlineStringLimit d) :
    Emits setting (compile ⟨i, span, .literal d⟩).expr s (.literal d) s := by
  rw [compile_expr]
  refine emits_read.bind ?_
  cases d with
  | string t =>
    have hshort : ¬ setting.options.inlineStringLimit < t.length := Nat.not_lt.mpr hd
    simp only [hshort, decide_false]
    exact emits_pure _
  | array | object => cases hd
  | _ => exact emits_pure _

theorem emits_expr (hhost : Apart setting.options host) (hs : Sound s) (hn : PlainExpr setting.options n) :
    ∃ code s', Emits setting (compile n).expr s code s' ∧ ExprMirrors host n s s' code := by
  cases hn with
  | @ident i span name hname =>
    obtain ⟨id, s', hread, hknown⟩ := emits_readName setting hs hname.undecorated
    refine ⟨.name id, s', ?_, hknown.sound, hknown.later, hknown.keeps, ?_⟩
    · rw [compile_expr]
      have hglobal : Emits setting (isHostGlobal name) s false s := by
        have hcontains : setting.options.globals.contains name = false := by
          simpa using hname.notGlobal
        refine emits_get.bind (emits_read.bind ?_)
        rw [hcontains, Bool.and_false]
        exact emits_pure false
      exact hglobal.bind (hread.bind (emits_pure _))
    · intro e store hm j m v m₁ hv
      obtain ⟨j', rfl, hlookup⟩ := eval_upTo_inv hv
      have hlookup : Gives (lookup host name e) m v m₁ := hlookup
      unfold lookup at hlookup
      split at hlookup
      · rename_i w hw
        obtain ⟨rfl, rfl⟩ := gives_pure_inv hlookup
        obtain ⟨d, id', rfl, hid', hd⟩ := hm name w hw
        rw [hknown.own id' hid']
        exact ⟨d, rfl, hd⟩
      · rw [hhost name hname, hname.notType] at hlookup
        exact absurd hlookup not_gives_fail
  | @literal i span d hd =>
    refine ⟨.literal d, s, ?_, hs, .refl s, fun _ _ h => h, ?_⟩
    · exact emits_literal hd
    · intro e store hm j m v m₁ hv
      obtain ⟨j', rfl, hpure⟩ := eval_upTo_inv hv
      obtain ⟨rfl, rfl⟩ := gives_pure_inv hpure
      exact ⟨d, rfl, rfl⟩

theorem compile_value (hn : PlainExpr setting.options n) :
    (compile n).value = (do return ([], ← (compile n).expr)) := by
  rw [compile_eq]
  cases hn <;> rfl

theorem emits_value (hhost : Apart setting.options host) (hs : Sound s) (hn : PlainExpr setting.options n) :
    ∃ code s', Emits setting (compile n).value s ([], code) s' ∧ ExprMirrors host n s s' code := by
  obtain ⟨code, s', hexpr, hmirrors⟩ := emits_expr hhost hs hn
  refine ⟨code, s', ?_, hmirrors⟩
  rw [compile_value hn]
  exact hexpr.bind (emits_pure _)

theorem emits_condition (hhost : Apart setting.options host) (hs : Sound s)
    (hn : PlainExpr setting.options n) :
    ∃ test s', Emits setting (compile n).condition s test s' ∧ Sound s' ∧ Extends s s' ∧
      (∀ name id, s.names.current? name = some id → s'.names.current? name = some id) ∧
      ∀ ⦃e store⦄, Matches s e store → ∀ ⦃j m v m₁⦄,
        Gives ((Rules.upTo host j).eval n e) m v m₁ → test.test? store = some v.isTruthy := by
  cases hboolean : isBoolean n with
  | true =>
    -- Among the plain expressions only truth values are tests as they stand.
    cases hn with
    | ident => cases hboolean
    | @literal i span d hd =>
      refine ⟨.literal d, s, ?_, hs, .refl s, fun _ _ h => h, ?_⟩
      · refine (emits_literal hd).bind ?_
        rw [compile_node, hboolean]
        exact emits_pure _
      · intro e store hm j m v m₁ hv
        obtain ⟨j', rfl, hpure⟩ := eval_upTo_inv hv
        obtain ⟨rfl, rfl⟩ := gives_pure_inv hpure
        cases d with
        | bool b => rfl
        | _ => cases hboolean
  | false =>
    obtain ⟨code, s', hexpr, hsound, hlater, hkeeps, hvalue⟩ := emits_expr hhost hs hn
    let s'' : State := { s' with constants := (s'.constants.useImport "isTrue").2 }
    have htable (name id : String) (h : s''.names.current? name = some id) : Issued s'' name id := by
      obtain ⟨hname, hid, hversion⟩ := hsound.table name id h
      exact ⟨hname, hid, hversion⟩
    refine ⟨.callName "$isTrue" [code], s'', ?_, ⟨hsound.frame, htable⟩,
      ⟨hlater.count, hlater.hoisted⟩, hkeeps, ?_⟩
    · refine hexpr.bind ?_
      rw [compile_node, hboolean]
      rfl
    · intro e store hm j m v m₁ hv
      obtain ⟨d, rfl, hd⟩ := hvalue hm hv
      simp [Expr.test?, Expr.callName, Expr.isName, hd, Val.isTruthy]

end Expressions

/-! ## Statements in order -/

section Statements

variable {setting : Setting} {host : Host} {s s₁ s₂ : State}

abbrev stmtRun (host : Host) (n : Node) (j : Nat) : Env → Run (Flow × Env) := (Rules.upTo host j).exec n

abbrev bodyRun (host : Host) (b : List Node) (j : Nat) : Env → Run (Flow × Env) :=
  block (Rules.upTo host j).exec b

theorem compile_stmt (n : Node) : (compile n).stmt = stmtCode n (n.kind.map compile) := by
  rw [compile_eq]
  rfl

theorem compiles_assign {name : String} {v : Node} (hhost : Apart setting.options host)
    (hname : OwnName setting.options name) (hv : PlainExpr setting.options v) :
    Compiles setting (compile ⟨i, span, .assign (.name name) v⟩).stmt
      (stmtRun host ⟨i, span, .assign (.name name) v⟩) := by
  intro s hs
  obtain ⟨code, s₁, hvalue, hmirrors⟩ := emits_value hhost hs hv
  obtain ⟨s₂, hwrite, hwritten⟩ := emits_writeName setting hmirrors.sound hname.undecorated
  refine ⟨[assignId (s₁.nextId name) code], s₂, ?_, hwritten.sound,
    hmirrors.later.trans hwritten.later, ?_⟩
  · rw [compile_stmt]
    exact hvalue.bind (Emits.bind (hwrite.bind (emits_pure _)) (emits_pure _))
  intro j e store hm hdeclares m x m₁ hx
  obtain ⟨j', rfl, hexec⟩ := exec_upTo_inv hx
  obtain ⟨w, m₂, hw, hpure⟩ := hexec.bind_inv
  obtain ⟨rfl, rfl⟩ := gives_pure_inv hpure
  obtain ⟨d, rfl, hd⟩ := hmirrors.value hm hw
  have hdeclared := hdeclares _ hwritten.issued.hoisted
  have hrun : execBody store [assignId (s₁.nextId name) code] =
      some (.next (Dict.set (s₁.nextId name) d store)) := by
    simp [execBody, assignId, Stmt.exec, hd, hdeclared]
  refine .next hrun ?_ (.set hdeclared ?_)
  · -- The new id has the new value; the latest ids of all other names are older.
    intro other v hother
    change Dict.get? other (Dict.set name (.data d) e) = some v at hother
    rw [Dict.get?_set] at hother
    split at hother
    · rename_i heq
      subst heq
      cases hother
      refine ⟨d, s₁.nextId name, rfl, ?_, ?_⟩
      · rw [hwritten.current, if_pos rfl]
      · rw [Dict.get?_set, if_pos rfl]
    · rename_i hne
      obtain ⟨d', id, hd', hid, hstore⟩ := hm other v hother
      have hid₁ := hmirrors.keeps other id hid
      have hnew := (hmirrors.sound.table other id hid₁).ne_nextId hname.undecorated
      refine ⟨d', id, hd', ?_, ?_⟩
      · rw [hwritten.current, if_neg (Ne.symm hne), hid₁]
      · rw [Dict.get?_set, if_neg (Ne.symm hnew), hstore]
  · intro other id hid
    exact (hmirrors.later.issued hid).ne_nextId hname.undecorated

theorem compiles_ret {v : Node} (hhost : Apart setting.options host) (hv : PlainExpr setting.options v) :
    Compiles setting (compile ⟨i, span, .ret v⟩).stmt (stmtRun host ⟨i, span, .ret v⟩) := by
  intro s hs
  obtain ⟨code, s₁, hvalue, hmirrors⟩ := emits_value hhost hs hv
  refine ⟨[.ret code], s₁, ?_, hmirrors.sound, hmirrors.later, ?_⟩
  · rw [compile_stmt]
    exact hvalue.bind (emits_pure _)
  intro j e store hm hdeclares m x m₁ hx
  obtain ⟨j', rfl, hexec⟩ := exec_upTo_inv hx
  obtain ⟨w, m₂, hw, hpure⟩ := hexec.bind_inv
  obtain ⟨rfl, rfl⟩ := gives_pure_inv hpure
  obtain ⟨d, rfl, hd⟩ := hmirrors.value hm hw
  exact .returned (by simp [execBody, Stmt.exec, hd])

theorem Mirrors.cons {exec : Node → Env → Run (Flow × Env)} {n : Node} {b : List Node} {code' : List Stmt}
    (h₁ : Mirrors s s₁ (exec n) code) (h₂ : Mirrors s₁ s₂ (block exec b) code') (hs₁ : Extends s s₁)
    (hs₂ : Extends s₁ s₂) : Mirrors s s₂ (block exec (n :: b)) (code ++ code') := by
  intro e store hm hdeclares m x m₂ hx
  obtain ⟨⟨f, e₁⟩, m₁, hn, hrest⟩ := hx.bind_inv
  have hreach := h₁ hm (hdeclares.of_extends hs₂) hn
  cases hreach with
  | next hrun he hspares =>
    have hreach' := h₂ he (hspares.declares hdeclares) hrest
    obtain ⟨f', e₂⟩ := x
    cases hreach' with
    | next hrun' he' hspares' =>
      refine .next ?_ he' (.trans hs₁ hspares hspares')
      rw [execBody_append_next hrun, hrun']
    | returned hrun' =>
      refine .returned ?_
      rw [execBody_append_next hrun, hrun']
  | returned hrun =>
    obtain ⟨rfl, rfl⟩ := gives_pure_inv hrest
    exact .returned (execBody_append_returned hrun code')

theorem compiles_body {b : List Node} (hb : ∀ n ∈ b, Compiles setting (compile n).stmt (stmtRun host n)) :
    Compiles setting (statements (b.map compile)) (bodyRun host b) := by
  have hcodes : ∀ ⦃s⦄, Sound s → ∃ codes s',
      Emits setting ((b.map compile).mapM Compiled.stmt) s codes s' ∧ Sound s' ∧ Extends s s' ∧
        ∀ j, Mirrors s s' (bodyRun host b j) codes.flatten := by
    induction b with
    | nil =>
      intro s hs
      refine ⟨[], s, emits_pure [], hs, .refl s, fun j e store hm _ m x m₁ hx => ?_⟩
      obtain ⟨rfl, rfl⟩ := gives_pure_inv hx
      exact .next rfl hm (.refl s store)
    | cons n b ih =>
      intro s hs
      obtain ⟨code, s₁, hcode, hs₁, hlater₁, hmirrors₁⟩ := hb n List.mem_cons_self hs
      obtain ⟨codes, s₂, hcodes, hs₂, hlater₂, hmirrors₂⟩ :=
        ih (fun m hm => hb m (List.mem_cons_of_mem _ hm)) hs₁
      refine ⟨code :: codes, s₂, ?_, hs₂, hlater₁.trans hlater₂, fun j => ?_⟩
      · rw [List.map_cons, List.mapM_cons]
        exact hcode.bind (hcodes.bind (emits_pure _))
      · exact (hmirrors₁ j).cons (hmirrors₂ j) hlater₁ hlater₂
  intro s hs
  obtain ⟨codes, s', hemits, hs', hlater, hmirrors⟩ := hcodes hs
  exact ⟨codes.flatten, s', hemits.bind (emits_pure _), hs', hlater, hmirrors⟩

theorem compiles_declare {as : List Node}
    (has : ∀ n ∈ as, Compiles setting (compile n).stmt (stmtRun host n)) :
    Compiles setting (compile ⟨i, span, .declare as⟩).stmt (stmtRun host ⟨i, span, .declare as⟩) := by
  intro s hs
  obtain ⟨code, s', hcode, hs', hlater, hmirrors⟩ := compiles_body has hs
  refine ⟨code, s', ?_, hs', hlater, fun j e store hm hdeclares m x m₁ hx => ?_⟩
  · rw [compile_stmt]
    exact hcode
  · obtain ⟨j', rfl, hexec⟩ := exec_upTo_inv hx
    exact hmirrors j' hm hdeclares hexec

end Statements

end Motif.Emit
