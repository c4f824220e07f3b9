import Mathlib.Data.List.Forall2
import Motif.Script.Syntax

/-!
# Names and yields and the functions around them

A name in a program is used inside functions, each of which declares some ids: its parameters and what
its body declares. A yield may stand only directly in a generator function. `Fits` says of a program that
every name in it may be used where it stands, given what the functions around that place declare, and that
every yield may stand there, given whether the innermost of them is a generator. At a function the answer for
what is inside is the function's own.
-/

namespace Motif.Script

/-- What the functions around a place declare, innermost first. -/
abbrev Scopes := List (List String)

def declaredIn (body : List Stmt) : List String :=
  body.flatMap fun
    | .declare ids => ids
    | _ => []

mutual

/-- An expression may stand inside functions that declare the given ids, the innermost of which is a
    generator if the flag says so. -/
def Expr.Fits (ok : Scopes → String → Prop) (may : Bool → Prop) : Expr → Scopes → Bool → Prop
  | .name id, scopes, _ => ok scopes id
  | .literal _, _, _ => True
  | .paren e, scopes, g => e.Fits ok may scopes g
  | .bang e, scopes, g => e.Fits ok may scopes g
  | .minus e, scopes, g => e.Fits ok may scopes g
  | .binary _ left right, scopes, g => left.Fits ok may scopes g ∧ right.Fits ok may scopes g
  | .cond test yes no, scopes, g =>
    test.Fits ok may scopes g ∧ yes.Fits ok may scopes g ∧ no.Fits ok may scopes g
  | .assign id value, scopes, g => ok scopes id ∧ value.Fits ok may scopes g
  | .comma first second, scopes, g => first.Fits ok may scopes g ∧ second.Fits ok may scopes g
  | .all tests, scopes, g => exprsFit ok may tests scopes g
  | .any tests, scopes, g => exprsFit ok may tests scopes g
  | .array items, scopes, g => exprsFit ok may items scopes g
  | .object properties, scopes, g => propertiesFit ok may properties scopes g
  | .member target _, scopes, g => target.Fits ok may scopes g
  | .index target key, scopes, g => target.Fits ok may scopes g ∧ key.Fits ok may scopes g
  | .call callee args, scopes, g => callee.Fits ok may scopes g ∧ exprsFit ok may args scopes g
  | .function isGenerator params body, scopes, _ =>
    bodyFits ok may body ((params ++ declaredIn body) :: scopes) isGenerator
  | .yield e, scopes, g => may g ∧ e.Fits ok may scopes g
  | .yieldAll e, scopes, g => may g ∧ e.Fits ok may scopes g

def exprsFit (ok : Scopes → String → Prop) (may : Bool → Prop) : List Expr → Scopes → Bool → Prop
  | [], _, _ => True
  | e :: es, scopes, g => e.Fits ok may scopes g ∧ exprsFit ok may es scopes g

def Property.Fits (ok : Scopes → String → Prop) (may : Bool → Prop) : Property → Scopes → Bool → Prop
  | .named _ value, scopes, g => value.Fits ok may scopes g
  | .computed key value, scopes, g => key.Fits ok may scopes g ∧ value.Fits ok may scopes g

def propertiesFit (ok : Scopes → String → Prop) (may : Bool → Prop) : List Property → Scopes → Bool → Prop
  | [], _, _ => True
  | p :: ps, scopes, g => p.Fits ok may scopes g ∧ propertiesFit ok may ps scopes g

def Stmt.Fits (ok : Scopes → String → Prop) (may : Bool → Prop) : Stmt → Scopes → Bool → Prop
  | .directive _, _, _ => True
  | .constant .., _, _ => True
  | .declare _, _, _ => True
  | .assign target value, scopes, g => target.Fits ok may scopes g ∧ value.Fits ok may scopes g
  | .expr e, scopes, g => e.Fits ok may scopes g
  | .ret e, scopes, g => e.Fits ok may scopes g
  | .branch arms otherwise, scopes, g =>
    armsFit ok may arms scopes g ∧ bodyFits ok may otherwise scopes g
  | .forOf id iterator body, scopes, g =>
    ok scopes id ∧ iterator.Fits ok may scopes g ∧ bodyFits ok may body scopes g
  | .continueUnless test, scopes, g => test.Fits ok may scopes g
  | .throwError _, _, _ => True

def bodyFits (ok : Scopes → String → Prop) (may : Bool → Prop) : List Stmt → Scopes → Bool → Prop
  | [], _, _ => True
  | s :: body, scopes, g => s.Fits ok may scopes g ∧ bodyFits ok may body scopes g

def armsFit (ok : Scopes → String → Prop) (may : Bool → Prop) : List (Expr × List Stmt) → Scopes → Bool → Prop
  | [], _, _ => True
  | (test, body) :: arms, scopes, g =>
    (test.Fits ok may scopes g ∧ bodyFits ok may body scopes g) ∧ armsFit ok may arms scopes g

end

/-- Every name in the program may be used where it stands. -/
def Expr.Respects (ok : Scopes → String → Prop) (e : Expr) (scopes : Scopes) : Prop :=
  e.Fits ok (fun _ => True) scopes false

/-- Every yield in the program is directly in a generator function. The flag says whether the innermost
    function around the program is one. -/
def Expr.YieldsIn (g : Bool) (e : Expr) : Prop := e.Fits (fun _ _ => True) (· = true) [] g

/-! ## Lists -/

section Lists

variable {ok : Scopes → String → Prop} {may : Bool → Prop} {scopes : Scopes} {g : Bool}

theorem exprsFit_iff {es : List Expr} :
    exprsFit ok may es scopes g ↔ ∀ e ∈ es, e.Fits ok may scopes g := by
  induction es with
  | nil => simp [exprsFit]
  | cons e es ih => simp [exprsFit, ih]

theorem propertiesFit_iff {ps : List Property} :
    propertiesFit ok may ps scopes g ↔ ∀ p ∈ ps, p.Fits ok may scopes g := by
  induction ps with
  | nil => simp [propertiesFit]
  | cons p ps ih => simp [propertiesFit, ih]

theorem bodyFits_iff {body : List Stmt} :
    bodyFits ok may body scopes g ↔ ∀ s ∈ body, s.Fits ok may scopes g := by
  induction body with
  | nil => simp [bodyFits]
  | cons s body ih => simp [bodyFits, ih]

theorem armsFit_iff {arms : List (Expr × List Stmt)} : armsFit ok may arms scopes g ↔
      ∀ arm ∈ arms, arm.1.Fits ok may scopes g ∧ bodyFits ok may arm.2 scopes g := by
  induction arms with
  | nil => simp [armsFit]
  | cons arm arms ih => simp [armsFit, ih]

end Lists

/-! ## More declarations -/

/-- Every scope declares at least what it did. -/
def Widens : Scopes → Scopes → Prop := List.Forall₂ fun scope scope' => scope ⊆ scope'

theorem Widens.refl (scopes : Scopes) : Widens scopes scopes :=
  List.forall₂_same.mpr fun _ _ => List.Subset.refl _

variable {a b : Scopes}

theorem Widens.trans {c : Scopes} (hab : Widens a b) (hbc : Widens b c) : Widens a c := by
  induction hab generalizing c with
  | nil => exact hbc
  | cons h _ ih =>
    cases hbc with
    | cons h' hrest => exact .cons (List.Subset.trans h h') (ih hrest)

theorem Widens.exists_mem (h : Widens a b) {id : String} (hid : ∃ scope ∈ a, id ∈ scope) :
    ∃ scope ∈ b, id ∈ scope := by
  obtain ⟨scope, hscope, hid⟩ := hid
  induction h with
  | nil => cases hscope
  | cons hsub _ ih =>
    rcases List.mem_cons.mp hscope with rfl | hscope
    · exact ⟨_, List.mem_cons_self, hsub hid⟩
    · obtain ⟨scope', hscope', hid'⟩ := ih hscope
      exact ⟨scope', List.mem_cons_of_mem _ hscope', hid'⟩

theorem Widens.head (h : Widens a b) {id : String} (hid : id ∈ a.headD []) : id ∈ b.headD [] := by
  cases h with
  | nil => exact hid
  | cons hsub _ => exact hsub hid

theorem Widens.push (scope : List String) (h : Widens a b) : Widens (scope :: a) (scope :: b) :=
  .cons (List.Subset.refl _) h

/-! ## Other functions around -/

section Transport

variable {W : Scopes → Scopes → Prop} {ok ok' : Scopes → String → Prop} {may may' : Bool → Prop}

/-- A name that may be used goes on to be usable, by another rule and inside other functions, also
    where one more function is around. -/
structure Transports (W : Scopes → Scopes → Prop) (ok ok' : Scopes → String → Prop) : Prop where
  push : ∀ {a b : Scopes} (scope : List String), W a b → W (scope :: a) (scope :: b)
  id : ∀ {a b : Scopes} {id : String}, W a b → ok a id → ok' b id

variable (hok : Transports W ok ok') (hmay : ∀ g, may g → may' g)

include hok hmay

set_option linter.unusedSectionVars false

mutual

theorem fits_transport : ∀ (e : Expr) {a b : Scopes} {g : Bool},
    W a b → e.Fits ok may a g → e.Fits ok' may' b g
  | .name _, _, _, _, hw, h => hok.id hw h
  | .literal _, _, _, _, _, _ => trivial
  | .paren e, _, _, _, hw, h | .bang e, _, _, _, hw, h | .minus e, _, _, _, hw, h
  | .member e _, _, _, _, hw, h => fits_transport e hw h
  | .binary _ e e', _, _, _, hw, h | .comma e e', _, _, _, hw, h | .index e e', _, _, _, hw, h =>
    ⟨fits_transport e hw h.1, fits_transport e' hw h.2⟩
  | .cond test yes no, _, _, _, hw, h =>
    ⟨fits_transport test hw h.1, fits_transport yes hw h.2.1, fits_transport no hw h.2.2⟩
  | .assign _ e, _, _, _, hw, h => ⟨hok.id hw h.1, fits_transport e hw h.2⟩
  | .all es, _, _, _, hw, h | .any es, _, _, _, hw, h | .array es, _, _, _, hw, h =>
    exprsFit_transport es hw h
  | .object ps, _, _, _, hw, h => propertiesFit_transport ps hw h
  | .call e es, _, _, _, hw, h => ⟨fits_transport e hw h.1, exprsFit_transport es hw h.2⟩
  | .function _ _ body, _, _, _, hw, h => bodyFits_transport body (hok.push _ hw) h
  | .yield e, _, _, _, hw, h | .yieldAll e, _, _, _, hw, h => ⟨hmay _ h.1, fits_transport e hw h.2⟩

theorem exprsFit_transport : ∀ (es : List Expr) {a b : Scopes} {g : Bool},
    W a b → exprsFit ok may es a g → exprsFit ok' may' es b g
  | [], _, _, _, _, _ => trivial
  | e :: es, _, _, _, hw, h => ⟨fits_transport e hw h.1, exprsFit_transport es hw h.2⟩

theorem propertiesFit_transport : ∀ (ps : List Property) {a b : Scopes} {g : Bool},
    W a b → propertiesFit ok may ps a g → propertiesFit ok' may' ps b g
  | [], _, _, _, _, _ => trivial
  | .named _ e :: ps, _, _, _, hw, h => ⟨fits_transport e hw h.1, propertiesFit_transport ps hw h.2⟩
  | .computed e e' :: ps, _, _, _, hw, h =>
    ⟨⟨fits_transport e hw h.1.1, fits_transport e' hw h.1.2⟩, propertiesFit_transport ps hw h.2⟩

theorem stmtFits_transport : ∀ (s : Stmt) {a b : Scopes} {g : Bool},
    W a b → s.Fits ok may a g → s.Fits ok' may' b g
  | .directive _, _, _, _, _, _ | .constant .., _, _, _, _, _ | .declare _, _, _, _, _, _
  | .throwError _, _, _, _, _, _ => trivial
  | .assign e e', _, _, _, hw, h => ⟨fits_transport e hw h.1, fits_transport e' hw h.2⟩
  | .expr e, _, _, _, hw, h | .ret e, _, _, _, hw, h | .continueUnless e, _, _, _, hw, h =>
    fits_transport e hw h
  | .branch arms body, _, _, _, hw, h => ⟨armsFit_transport arms hw h.1, bodyFits_transport body hw h.2⟩
  | .forOf _ e body, _, _, _, hw, h =>
    ⟨hok.id hw h.1, fits_transport e hw h.2.1, bodyFits_transport body hw h.2.2⟩

theorem bodyFits_transport : ∀ (body : List Stmt) {a b : Scopes} {g : Bool},
    W a b → bodyFits ok may body a g → bodyFits ok' may' body b g
  | [], _, _, _, _, _ => trivial
  | s :: body, _, _, _, hw, h => ⟨stmtFits_transport s hw h.1, bodyFits_transport body hw h.2⟩

theorem armsFit_transport : ∀ (arms : List (Expr × List Stmt)) {a b : Scopes} {g : Bool},
    W a b → armsFit ok may arms a g → armsFit ok' may' arms b g
  | [], _, _, _, _, _ => trivial
  | (e, body) :: arms, _, _, _, hw, h =>
    ⟨⟨fits_transport e hw h.1.1, bodyFits_transport body hw h.1.2⟩, armsFit_transport arms hw h.2⟩

end

end Transport

section Parts

variable {ok : Scopes → String → Prop} {may : Bool → Prop} {e : Expr} {scopes : Scopes}

theorem Expr.Fits.respects (h : e.Fits ok may scopes false) : e.Respects ok scopes :=
  fits_transport (W := Eq) ⟨fun _ h => congrArg _ h, fun h hid => h ▸ hid⟩ (fun _ _ => trivial) e rfl h

theorem Expr.Fits.yieldsIn {g : Bool} (h : e.Fits ok may scopes g) (hmay : ∀ g, may g → g = true) :
    e.YieldsIn g :=
  fits_transport (W := fun _ _ => True) ⟨fun _ _ => trivial, fun _ _ => trivial⟩ hmay e trivial h

end Parts

end Motif.Script
