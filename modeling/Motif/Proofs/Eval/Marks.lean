import Motif.Proofs.Annotation
import Motif.Proofs.Eval.Conclusions
import Motif.Proofs.Eval.Host
import Motif.Proofs.Value.Equality

/-!
# Marks of templates

A template that is a primitive literal may be marked as one that can be tested by plain equality, and a
test of it then neither evaluates the template nor matches it against the value under test. Nothing else
looks at these marks or at how costly a template is said to be. So one layer of rules does the same
whatever is marked, provided that the layer below evaluates literals (`SameButMarks.step`); the test by
evaluation needs one layer more, hence runs are compared up to fuel.
-/

namespace Motif.Eval

def markKeys : List AnnotationKey := [.patternEquality, .patternComplexity]

/-- Hosts with the same functions whose annotations differ in the marks of templates at most. -/
structure Host.SameButMarks (host host' : Host) : Prop where
  natives : host'.natives = host.natives
  annotations : host.annotations.SameExcept markKeys host'.annotations

theorem isMatch_primitive {host : Host} (r : Rules) {d : Value} (hd : d.isPrimitive) (subject : Val) :
    isMatch host r (.data d) subject = pure (subject.data?.any fun w => w.strictlyEqual d) := by
  cases subject with
  | data w => exact congrArg pure (Value.accepts_of_isPrimitive hd w)
  | _ => rfl

def Rules.ReadsLiterals (r : Rules) : Prop :=
  ∀ n e value, n.kind = .literal value → r.eval n e = pure (.data value)

theorem Rules.readsLiterals_upTo_succ (host : Host) (fuel : Nat) :
    (Rules.upTo host (fuel + 1)).ReadsLiterals := by
  intro n e value hkind
  show evalNode host (Rules.upTo host fuel) n e = _
  unfold evalNode
  rw [hkind]

namespace Host.SameButMarks

variable {host host' : Host} (h : host.SameButMarks host')

include h

theorem symm : host'.SameButMarks host := ⟨h.natives.symm, h.annotations.symm⟩

/-! ## Annotations that are read -/

theorem local? (id : Nat) : host'.annotations.local? id = host.annotations.local? id :=
  h.annotations.local? (by decide) id

theorem parent? (id : Nat) : host'.annotations.parent? id = host.annotations.parent? id :=
  h.annotations.parent? (by decide) id

theorem context? (id : Nat) : host'.annotations.context? id = host.annotations.context? id :=
  h.annotations.context? (by decide) id

theorem isShadow (id : Nat) : host'.annotations.isShadow id = host.annotations.isShadow id :=
  h.annotations.isShadow (by decide) id

theorem speaks (id : Nat) :
    host'.annotations.has id .patternContext = host.annotations.has id .patternContext :=
  h.annotations.has (by decide) id

/-! ## Rules that read no marks -/

theorem lookup : Eval.lookup host' = Eval.lookup host := by
  funext name env
  unfold Eval.lookup
  rw [h.natives]

theorem callNative : Eval.callNative host' = Eval.callNative host := by
  funext name args
  unfold Eval.callNative
  rw [h.natives]

theorem matchesPattern (r : Rules) : Eval.matchesPattern host' r = Eval.matchesPattern host r := by
  funext n subject env
  unfold Eval.matchesPattern
  rw [h.local?]

theorem isMatch (r : Rules) : Eval.isMatch host' r = Eval.isMatch host r := by
  funext matcher subject
  unfold Eval.isMatch
  rw [h.matchesPattern]

theorem fitsElement (r : Rules) : Eval.fitsElement host' r = Eval.fitsElement host r := by
  funext collection env position element
  unfold Eval.fitsElement
  simp only [h.local?]

theorem chooseBody (r : Rules) : Eval.chooseBody host' r = Eval.chooseBody host r := by
  funext subject env otherwise clauses
  induction clauses with
  | nil => rfl
  | cons clause rest ih =>
    unfold Eval.chooseBody
    rw [h.matchesPattern, ih]

theorem callVal (r : Rules) : Eval.callVal host' r = Eval.callVal host r := by
  funext f args
  unfold Eval.callVal
  rw [h.callNative, h.isMatch]

theorem binary (r : Rules) : Eval.binary host' r = Eval.binary host r := by
  funext op left right
  unfold Eval.binary
  rw [h.isMatch]

theorem evalNode (r : Rules) : Eval.evalNode host' r = Eval.evalNode host r := by
  funext n env
  unfold Eval.evalNode
  rw [h.lookup, h.context?, h.binary, h.matchesPattern, h.chooseBody]

theorem exportAll : Eval.exportAll host' = Eval.exportAll host := by
  funext env names
  induction names with
  | nil => rfl
  | cons name rest ih =>
    unfold Eval.exportAll
    rw [h.lookup, ih]

theorem execNode (r : Rules) : Eval.execNode host' r = Eval.execNode host r := by
  funext n env
  unfold Eval.execNode
  rw [h.isShadow, h.chooseBody, h.exportAll]

/-! ## The rule that does -/

theorem fitsSimple {r : Rules} (hr : r.ReadsLiterals) : Eval.fitsSimple host' r = Eval.fitsSimple host r := by
  funext template l subject env
  unfold Eval.fitsSimple
  rw [h.speaks, h.isMatch]
  split
  · rfl
  · split
    · rfl
    case h_2 value hkind =>
      -- Both ways of testing a primitive literal come to the same, so it does not matter which of them
      -- the two hosts take.
      cases hprimitive : value.isPrimitive with
      | false => rfl
      | true =>
        have hcompare : (do Eval.isMatch host r (← r.eval template env) subject) =
            pure (subject.data?.any fun d => d.strictlyEqual value) := by
          rw [hr template env value hkind, pure_bind, isMatch_primitive r hprimitive]
        rw [hcompare, ite_self, ite_self]
    · rfl

theorem fitsNode {r : Rules} (hr : r.ReadsLiterals) : Eval.fitsNode host' r = Eval.fitsNode host r := by
  funext template l subject env
  unfold Eval.fitsNode
  rw [h.parent?, h.fitsElement, h.fitsSimple hr]

/-! ## Runs -/

theorem step {r : Rules} (hr : r.ReadsLiterals) : Rules.step host' r = Rules.step host r := by
  unfold Rules.step
  rw [h.evalNode, h.execNode, h.callVal, h.fitsNode hr]

theorem prolongs_upTo (fuel : Nat) : (Rules.upTo host fuel).Prolongs (Rules.upTo host' (fuel + 1)) := by
  induction fuel with
  | zero => exact ⟨fun _ _ => .outOfFuel, fun _ _ => .outOfFuel, fun _ _ => .outOfFuel,
      fun _ _ _ _ => .outOfFuel⟩
  | succ fuel ih =>
    rw [Rules.upTo_succ host fuel, Rules.upTo_succ host' (fuel + 1),
      h.step (Rules.readsLiterals_upTo_succ host' fuel)]
    exact ih.step

theorem prolongs_run (fuel : Nat) (root : Node) :
    Prolongs (run host fuel root) (run host' (fuel + 1) root) := by
  have hrules := h.prolongs_upTo fuel
  unfold run
  dsimp only
  split
  · exact ((hrules.keeps host).blockResult (prolonging.body _) (prolonging.scope [])).1
  · exact hrules.eval root []

theorem concludes_run {root : Node} {m m' : Machine} {result : Except EvalError Val}
    (hrun : Concludes (fun fuel => run host fuel root) m result m') :
    Concludes (fun fuel => run host' fuel root) m result m' :=
  hrun.imp fun fuel => ⟨fuel + 1, h.prolongs_run fuel root⟩

end Host.SameButMarks

/-- Marks of templates cannot be observed. Whatever the tree, the host functions and the state at the
    start, runs under two stores that differ in such marks only end alike: with the same value or the
    same error, and in the same state, so with the same exports and after the same calls of host
    functions. For a test by equality agrees with the match that it stands for. -/
theorem run_under_any_marks (natives : String → Option (List HostCall → List Val → Except EvalError Val))
    {a b : Annotations} (h : a.SameExcept [.patternEquality, .patternComplexity] b) (root : Node) :
    (∀ m result m', Concludes (fun fuel => run { annotations := a, natives } fuel root) m result m' ↔
        Concludes (fun fuel => run { annotations := b, natives } fuel root) m result m') ∧
    ∀ (host : Host) (rules : Rules) (literal : Value) (subject : Val), literal.isPrimitive →
      isMatch host rules (.data literal) subject =
        pure (subject.data?.any fun d => d.strictlyEqual literal) := by
  have hhosts : Host.SameButMarks { annotations := a, natives } { annotations := b, natives } := ⟨rfl, h⟩
  exact ⟨fun m result m' => ⟨hhosts.concludes_run, hhosts.symm.concludes_run⟩,
    fun _ rules _ subject hliteral => isMatch_primitive rules hliteral subject⟩

/-- Tests negative zero against a pattern whose template is zero. -/
def zeroTest : Node :=
  let template := ⟨5, .none, .literal (.number 0)⟩
  let test := ⟨3, .none, .call ⟨4, .none, .pattern template⟩ [⟨6, .none, .literal (.number (-0))⟩]⟩
  ⟨1, .none, .module [⟨2, .none, .ret test⟩]⟩

def zeroNotes : Annotations := ({} : Annotations).annotate 4 (.patternLocal 0)

theorem run_under_any_marks_zero :
    let marked := (zeroNotes.annotate 5 .patternEquality).annotate 4 (.patternComplexity 1)
    Concludes (fun fuel => run (bareHost marked) fuel zeroTest) {} (.ok (.bool true)) {} ∧
      Concludes (fun fuel => run (bareHost zeroNotes) fuel zeroTest) {} (.ok (.bool true)) {} := by
  have hmarked : Concludes (fun fuel => run (bareHost
      ((zeroNotes.annotate 5 .patternEquality).annotate 4 (.patternComplexity 1))) fuel zeroTest)
      {} (.ok (.bool true)) {} := ⟨4, rfl⟩
  have hsame : zeroNotes.SameExcept [.patternEquality, .patternComplexity]
      ((zeroNotes.annotate 5 .patternEquality).annotate 4 (.patternComplexity 1)) :=
    (Annotations.SameExcept.annotate _ _ (by decide)).trans (.annotate _ _ (by decide))
  exact ⟨hmarked, ((run_under_any_marks (fun _ => none) hsame zeroTest).1 _ _ _).mpr hmarked⟩

end Motif.Eval
