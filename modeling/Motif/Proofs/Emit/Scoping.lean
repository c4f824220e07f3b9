import Motif.Proofs.Emit.Publishing

/-!
# Scopes keep the names around them

What is generated inside a function, a loop or a reduction has a table of names of its own, and the table
around it comes back afterwards. So no expression gives a new id to a name that has one, whatever is written
inside it: a name can only get its first id, by being read.
-/

namespace Motif.Emit

open List

/-- Code generation for a module comes to a state, before or after the code of a node: a look at the state
    that does nothing in all other states makes a difference. -/
def ComesTo (setting : Setting) (root : Node) (s : State) : Prop :=
  ∃ look : Emit Unit, (∀ other, other ≠ s → Emits setting look other () other) ∧
    ((programBy (compileWatched look) root).run setting).run {} ≠ ((program root).run setting).run {}

/-- An identifier below the node has the name. -/
def Reads (n : Node) (name : String) : Prop := ∃ m ∈ n.preorder, m.kind = .ident name

def SameDepth (s s' : State) : Prop := s'.frames.length = s.frames.length

def KeepsTable {α : Type} (setting : Setting) (step : Emit α) : Prop :=
  ∀ s a s', Emits setting step s a s' → s'.names = s.names

/-- The expressions that have names of their own. -/
def scopeTags : List Tag := [.lambda, .pattern, .choose, .reduce, .doBlock, .generator]

section Scoping

variable {setting : Setting} {root : Node} {s s' : State} {α β : Type}

theorem ComesTo.tidy (h : ComesTo setting root s) : Tidy False setting s := by
  obtain ⟨look, hlook, hdiffers⟩ := h
  by_contra hs
  refine hdiffers (programBy_does (namesOnly False setting) fun n _ => ?_).1
  refine makes_compileWatched (fun inner other hother => ?_) n (namesOnly_grants False.elim []) nofun
  refine hlook other ?_
  rintro rfl
  exact hs hother.tidy

theorem Follows.sameDepth {reads : String → Prop} {k : Nat} (h : Follows reads k s s') : SameDepth s s' := by
  simpa [SameDepth] using congrArg length h.generators

/-! ## Steps in a table of their own -/

theorem keepsTable_pure (a : α) : KeepsTable setting (pure a) := by
  rintro s _ _ ⟨⟩
  rfl

theorem KeepsTable.bind {x : Emit α} {f : α → Emit β} (hx : KeepsTable setting x)
    (hf : ∀ a, KeepsTable setting (f a)) : KeepsTable setting (x >>= f) := by
  intro s b s' h
  obtain ⟨a, s₁, hrun, hrest⟩ := h.bind_inv
  exact (hf a s₁ b s' hrest).trans (hx s a s₁ hrun)

theorem keepsTable_nestedNames (step : Emit α) : KeepsTable setting (nestedNames step) := by
  intro s a s' h
  rw [Emits, run_nestedNames] at h
  cases hrun : (step.run setting).run { s with names := s.names.derive } <;> rw [hrun] at h <;> cases h
  rfl

theorem keepsTable_callLibrary (name : String) (args : List Script.Expr) :
    KeepsTable setting (callLibrary name args) := by
  rintro s _ _ ⟨⟩
  rfl

theorem keepsTable_immediate (code : Emit (List Script.Stmt)) : KeepsTable setting (immediate code) := by
  refine .bind (fun s _ _ h => ?_) fun _ => (keepsTable_nestedNames _).bind fun _ => keepsTable_pure _
  cases h
  rfl

theorem keepsTable_scope (n : Node) {k : Kind Compiled} (htag : k.tag ∈ scopeTags) :
    KeepsTable setting (exprCode n k) := by
  cases k with
  | lambda => exact (keepsTable_nestedNames _).bind fun _ => keepsTable_pure _
  | pattern template =>
    refine .bind (fun s _ _ h => ?_) fun setting => ?_
    · cases h
      rfl
    · split
      · rintro s _ _ ⟨⟩
      · exact (keepsTable_nestedNames _).bind fun _ => keepsTable_callLibrary _ _
  | choose | reduce => exact keepsTable_immediate _
  | doBlock | generator => exact (keepsTable_nestedNames _).bind fun _ => keepsTable_callLibrary _ _
  | _ => exact absurd htag (of_decide_eq_true rfl)

/-! ## Nodes -/

def readsOnly (setting : Setting) (n : Node) : Premises := { namesOnly False setting with reads := Reads n }

theorem makes_readsOnly (setting : Setting) (n : Node) :
    (readsOnly setting n).Makes (compile n) (compile n) := by
  have hgrants : (readsOnly setting n).Grants n [] :=
    ⟨False.elim, False.elim, False.elim, fun m hm _ hname => ⟨m, hm, hname⟩, False.elim, False.elim⟩
  exact makes_compile_self n hgrants nofun

end Scoping

/-- In every state of code generation, an expression leaves as many functions around, and every name that has
    an id with that id; a name without one gets one only if the expression reads it. Functions, blocks,
    matches and reductions leave the whole table as it is, as do the statements of a reduction and of a loop
    without an else branch. -/
theorem scopes_keep_names (setting : Setting) (root : Node) (s : State) (h : ComesTo setting root s)
    (n : Node) :
    (∀ e s', Emits setting (compile n).expr s e s' → SameDepth s s' ∧ s.names.Gains (Reads n) s'.names ∧
      (n.tag ∈ scopeTags → s'.names = s.names)) ∧ (n.tag = .reduce →
        (∀ r s', Emits setting (compile n).value s r s' → SameDepth s s' ∧ s'.names = s.names) ∧
        ∀ code s', Emits setting (compile n).effect s code s' → SameDepth s s' ∧ s'.names = s.names) ∧
      ∀ ranges body, n.kind = .loop ranges body [] →
        ∀ code s', Emits setting (compile n).stmt s code s' → SameDepth s s' ∧ s'.names = s.names := by
  have hholds : (readsOnly setting n).Holds s := ⟨h.tidy, False.elim⟩
  have hmakes := makes_readsOnly setting n
  have htag : (n.kind.map compile).tag = n.tag := tag_map ..
  refine ⟨fun e s' hrun => ?_, fun hreduce => ⟨fun r s' hrun => ?_, fun code s' hrun => ?_⟩, ?_⟩
  · obtain ⟨-, hfollows, -⟩ := (hmakes.expr s).post hholds hrun
    refine ⟨hfollows.sameDepth, hfollows.gains rfl, fun hscope => ?_⟩
    rw [compile_eq] at hrun
    exact keepsTable_scope n (htag ▸ hscope) s e s' hrun
  · refine ⟨((hmakes.value s).post hholds hrun).2.1.sameDepth, ?_⟩
    rw [compile_eq] at hrun
    cases hkind : n.kind.map compile <;> rw [hkind] at hrun htag <;> cases htag.trans hreduce
    exact keepsTable_nestedNames _ s r s' hrun
  · refine ⟨((hmakes.effect s).post hholds hrun).2.1.sameDepth, ?_⟩
    rw [compile_eq] at hrun
    cases hkind : n.kind.map compile <;> rw [hkind] at hrun htag <;> cases htag.trans hreduce
    exact ((keepsTable_nestedNames _).bind fun _ => keepsTable_pure _) s code s' hrun
  · intro ranges body hkind code s' hrun
    refine ⟨((hmakes.stmt s).post hholds hrun).2.1.sameDepth, ?_⟩
    rw [compile_eq, hkind] at hrun
    exact keepsTable_nestedNames _ s code s' hrun

/-- A reduction that writes a name that has an id outside. -/
def shadowing : Node :=
  .ofKind (.reduce [writeTrue "x"] [.ofKind (.range (.name "y") (.ofKind (.ident "x")) none)] [writeTrue "x"])

theorem scopes_keep_names_shadowing :
    ComesTo ⟨{}, {}⟩ (.ofKind (.module [writeTrue "x"])) stateWithX ∧
      ∃ e s', Emits ⟨{}, {}⟩ (compile shadowing).expr stateWithX e s' ∧ s'.names = stateWithX.names ∧
        s'.ids ≠ stateWithX.ids := by
  have hreached : ComesTo ⟨{}, {}⟩ (.ofKind (.module [writeTrue "x"])) stateWithX := by
    let look : Emit Unit := fun _ s => if s = stateWithX then .error (.notAModule .module) else .ok ((), s)
    refine ⟨look, fun other hother => ?_, fun heq => ?_⟩
    · exact if_neg hother
    · have hok := congrArg Except.isOk heq
      revert hok
      decide
  have hids : (((compile shadowing).expr.run ⟨{}, {}⟩).run stateWithX).toOption.map (fun r => r.2.ids) =
      some { versions := [("x", 3), ("y", 1)] } := rfl
  cases hrun : ((compile shadowing).expr.run ⟨{}, {}⟩).run stateWithX with
  | error e =>
    rw [hrun] at hids
    cases hids
  | ok result =>
    have hkept := (scopes_keep_names ⟨{}, {}⟩ _ stateWithX hreached shadowing).1 result.1 result.2 hrun
    refine ⟨hreached, result.1, result.2, hrun, hkept.2.2 (by decide), ?_⟩
    rw [hrun] at hids
    rw [show result.2.ids = _ from Option.some.inj hids]
    decide

end Motif.Emit
