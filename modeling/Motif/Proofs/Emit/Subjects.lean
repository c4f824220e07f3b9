import Motif.Emit.Module
import Motif.Proofs.Emit.Names

/-!
# A test evaluates its subject once

The test of a pattern is text around the text of its subject. What stands before and after it, and the state
that is left, do not depend on the subject (`patternTest_around`), so the subject is evaluated once, whatever
it does. The one exception is a subject that is the local of a pattern: that one is not bound again.
-/

namespace Motif.Emit

open Script

variable {α : Type} {setting : Setting} {s : State} {indent : Nat}

def IsForeign (subject : Expr) : Prop := ∀ l, subject ≠ .name (patternLocal l)

/-- An expression with a subject in it: its text is that of the subject between two fixed texts. -/
def Around (indent : Nat) (plug : Expr → Expr) : Prop :=
  ∃ before after, ∀ subject, (plug subject).text indent = before ++ subject.text indent ++ after

/-- A test leads to one state and to an expression around its subject, or fails alike for every subject. -/
def TestsOnce (setting : Setting) (indent : Nat) (s : State) (test : Expr → Emit Expr) : Prop :=
  (∃ plug s', Around indent plug ∧
    ∀ subject, IsForeign subject → Emits setting (test subject) s (plug subject) s') ∨
  ∃ error, ∀ subject, IsForeign subject → ((test subject).run setting).run s = .error error

/-! ## Where subjects stand -/

theorem around_binding (id : String) (test : Expr) :
    Around indent fun subject => .paren (.comma (.assign id subject) test) := by
  refine ⟨"(" ++ id ++ " = ", ", " ++ test.text indent ++ ")", fun subject => ?_⟩
  simp only [Expr.text, String.append_assoc]

theorem around_equality (other : Expr) :
    Around indent fun subject => .paren (.binary "===" subject other) := by
  refine ⟨"(", " " ++ "===" ++ " " ++ other.text indent ++ ")", fun subject => ?_⟩
  simp only [Expr.text, String.append_assoc]

theorem around_argument (id : String) : Around indent fun subject => .callName id [subject] := by
  refine ⟨id ++ "(", ")", fun subject => ?_⟩
  rfl

theorem around_lastArgument (id : String) (first : Expr) :
    Around indent fun subject => .callName id [first, subject] := by
  refine ⟨id ++ "(" ++ (first.text indent ++ ", "), ")", fun subject => ?_⟩
  have hargs : ", ".intercalate (exprTexts indent [first, subject])
      = first.text indent ++ ", " ++ subject.text indent := rfl
  simp only [Expr.callName, Expr.text, hargs, String.append_assoc]

/-! ## Steps of a test -/

namespace TestsOnce

theorem of_pure {plug : Expr → Expr} (h : Around indent plug) :
    TestsOnce setting indent s fun subject => pure (plug subject) :=
  .inl ⟨plug, s, h, fun _ _ => emits_pure _⟩

theorem of_fail (e : EmitError) : TestsOnce setting indent s fun _ => fail e := .inr ⟨e, fun _ _ => rfl⟩

theorem bind (first : Emit α) {next : α → Expr → Emit Expr}
    (h : ∀ a s', TestsOnce setting indent s' (next a)) :
    TestsOnce setting indent s fun subject => first >>= fun a => next a subject := by
  cases hrun : (first.run setting).run s with
  | error e =>
    refine .inr ⟨e, fun subject _ => ?_⟩
    rw [ReaderT.run_bind, StateT.run_bind, hrun]
    rfl
  | ok result =>
    obtain ⟨a, s₁⟩ := result
    obtain ⟨plug, s', haround, hruns⟩ | ⟨e, hfails⟩ := h a s₁
    · exact .inl ⟨plug, s', haround, fun subject hs => Emits.bind hrun (hruns subject hs)⟩
    · refine .inr ⟨e, fun subject hs => ?_⟩
      rw [ReaderT.run_bind, StateT.run_bind, hrun]
      exact hfails subject hs

theorem bindLocal (l : Nat) {next : Option Expr → Emit Expr}
    (h : ∀ s', TestsOnce setting indent s' fun subject => next (some (.assign (patternLocal l) subject))) :
    TestsOnce setting indent s fun subject => bindLocal (patternLocal l) subject >>= next := by
  have hbind (subject : Expr) (hs : IsForeign subject) :
      Emit.bindLocal (patternLocal l) subject >>= next
        = hoist (patternLocal l) >>= fun _ => next (some (.assign (patternLocal l) subject)) := by
    have hname : subject.isName (patternLocal l) = false := by
      cases subject with
      | name other =>
        simp only [Expr.isName, beq_eq_false_iff_ne]
        exact fun heq => hs l (congrArg Expr.name heq)
      | _ => rfl
    simp only [Emit.bindLocal, hname, Bool.false_eq_true, if_false, bind_assoc, pure_bind]
  obtain ⟨plug, s', haround, hruns⟩ | ⟨e, hfails⟩ := bind (hoist (patternLocal l)) fun _ s' => h s'
  · exact .inl ⟨plug, s', haround, fun subject hs => by simpa only [hbind subject hs] using hruns subject hs⟩
  · exact .inr ⟨e, fun subject hs => by simpa only [hbind subject hs] using hfails subject hs⟩

theorem libraryTest (expr : Emit Expr) : TestsOnce setting indent s (libraryTest expr) :=
  bind expr fun matcher _ => bind (library "isMatch") fun id _ => of_pure (around_lastArgument id matcher)

theorem conditionTest (condition : Emit Expr) (l : Nat) :
    TestsOnce setting indent s (conditionTest condition l) :=
  bind condition fun test _ => bindLocal l fun _ => of_pure (around_binding _ test)

theorem nameTest (name : String) (expr : Emit Expr) : TestsOnce setting indent s (nameTest name expr) := by
  refine bind get fun now s' => ?_
  split
  · exact libraryTest expr
  · split
    · exact bind (library _) fun id _ => of_pure (around_argument id)
    · exact libraryTest expr

theorem simpleTest (n : Node) (expr : Emit Expr) (l : Nat) :
    TestsOnce setting indent s (simpleTest n expr l) := by
  refine bind read fun setting' s' => ?_
  dsimp only
  split
  · exact conditionTest _ l
  · split
    · exact nameTest _ expr
    · split
      · exact bind (literal _) fun other _ => of_pure (around_equality other)
      · exact libraryTest expr
    · exact libraryTest expr

theorem collectionTest (n : Node) (elements : List Compiled) (isArray : Bool) (l : Nat) :
    TestsOnce setting indent s (collectionTest n elements isArray l) := by
  refine bind read fun setting' s' => bindLocal _ fun s' => ?_
  refine bind (callLibrary _ _) fun shape s' => bind (elementTests elements _) fun tests s' => ?_
  exact of_pure (around_binding _ _)

end TestsOnce

theorem testsOnce_test (n : Node) (k : Kind Compiled) (l : Nat) (s : State) :
    TestsOnce setting indent s ((compileNode n k).test l) := by
  cases k with
  | objectPattern elements => exact .collectionTest n elements false l
  | arrayPattern elements => exact .collectionTest n elements true l
  | _ => exact .simpleTest n _ l

theorem testsOnce_patternTest (n : Node) : TestsOnce setting indent s (compile n).patternTest := by
  have hlocal {test : Nat → Expr → Emit Expr} (h : ∀ l s', TestsOnce setting indent s' (test l)) :
      TestsOnce setting indent s (patternTest n test) := by
    refine TestsOnce.bind read fun setting' s' => ?_
    split
    · exact TestsOnce.of_fail _
    · exact h _ s'
  have hown : ∀ l s', TestsOnce setting indent s' ((compileNode n (n.kind.map compile)).test l) :=
    testsOnce_test n _
  rw [compile_eq]
  generalize n.kind = k at hown ⊢
  cases k with
  | pattern template => exact hlocal fun l s' => by rw [compile_eq]; exact testsOnce_test template _ l s'
  | _ => exact hlocal hown

/-- The test of a pattern evaluates its subject exactly once. In each state there is one next state and one
    text before and after the subject, for all subjects other than the local of a pattern; or the test fails
    with the same error for all of them. -/
theorem patternTest_around (setting : Setting) (indent : Nat) (s : State) (n : Node) :
    (∃ before after s', ∀ subject, (∀ l, subject ≠ .name (patternLocal l)) →
      ∃ e, Emits setting ((compile n).patternTest subject) s e s' ∧
        e.text indent = before ++ subject.text indent ++ after) ∨
    ∃ error, ∀ subject, (∀ l, subject ≠ .name (patternLocal l)) →
      (((compile n).patternTest subject).run setting).run s = .error error := by
  obtain ⟨plug, s', ⟨before, after, htext⟩, hruns⟩ | hfails := testsOnce_patternTest n
  · exact .inl ⟨before, after, s', fun subject hs => ⟨plug subject, hruns subject hs, htext subject⟩⟩
  · exact .inr hfails

end Motif.Emit
