import Motif.Emit.Module
import Motif.Proofs.Emit.Declaring
import Motif.Proofs.Pattern.Owners

/-!
# What the forms of the generator keep

Every form of the generator, for expressions, tests and statements, leaves a tidy state if the steps for
its parts do, and its code uses declared ids only if theirs does. `Alike` says so of a compiled node, in
every position; it compares two versions of the node, which do the same from a tidy state.
-/

namespace Motif

open List

def Kind.names {α : Type} : Kind α → List String
  | .assign target _ => target.names
  | .range target _ _ => target.names
  | .function name .. => [name]
  | .param name .. => [name]
  | .ident name => [name]
  | .importAll _ localName => [localName]
  | .importFrom _ items => items.map ModuleItem.visibleName
  | .exported _ items => items.map ModuleItem.name
  | _ => []

namespace Emit

open Script IdAllocator Constants
open Pattern (tested? opens opens_eq collections)

variable {n : Node}

/-- The names at the node are plain. -/
def WellNamed (n : Node) : Prop := ∀ name ∈ n.kind.names, Plain name

instance : DecidablePred WellNamed := fun n => inferInstanceAs (Decidable (∀ name ∈ n.kind.names, _))

theorem plain_declaredNames (h : n.Everywhere WellNamed) : ∀ name ∈ n.declaredNames, Plain name := by
  induction n using Node.ind with
  | step n ih =>
    have hn := h.here
    obtain ⟨i, span, k⟩ := n
    cases k with
    | declare assignments =>
      have hlist : ∀ ns : List Node, (∀ c ∈ ns, c ∈ assignments) →
          ∀ name ∈ Node.declaredNamesOf ns, Plain name := by
        intro ns hns
        induction ns with
        | nil => simp [Node.declaredNamesOf]
        | cons c ns ihns =>
          obtain ⟨hc, hns⟩ := forall_mem_cons.mp hns
          rw [Node.declaredNamesOf, forall_mem_append]
          exact ⟨ih c hc (h.child hc), ihns hns⟩
      rw [Node.declaredNames]
      exact hlist assignments fun c hc => hc
    | _ => first | exact hn | simp [Node.declaredNames]

section Forms

variable {p : Premises} {s s' : State} {k : Nat} {subject : Expr} {frames : List Frame}
  {test test' : Nat → Expr → Emit Expr} {x y : Emit Expr} {key' : Option Compiled} {body' : List Compiled}
  {c c' : Compiled} {α : Type}

/-! ## Later states -/

theorem Premises.ExprFits.later {e : Expr} (h : p.ExprFits s.frames e) (hlater : Follows p.reads k s s') :
    p.ExprFits s'.frames e := stable_expr _ _ e hlater.grows h

theorem Premises.IdFits.later {id : String} (h : p.IdFits s.frames id) (hlater : Follows p.reads k s s') :
    p.IdFits s'.frames id := stable_id _ _ id hlater.grows h

theorem Premises.CodeFits.later {code : List Stmt} (h : p.CodeFits s.frames code)
    (hlater : Follows p.reads k s s') : p.CodeFits s'.frames code :=
  stable_code _ _ code hlater.grows h

theorem codeFits_append {first second : List Stmt} (h₁ : p.CodeFits frames first)
    (h₂ : p.CodeFits frames second) : p.CodeFits frames (first ++ second) :=
  bodyFits_iff.mpr (forall_mem_append.mpr ⟨bodyFits_iff.mp h₁, bodyFits_iff.mp h₂⟩)

theorem codeFits_flatten {codes : List (List Stmt)} (h : ∀ code ∈ codes, p.CodeFits frames code) :
    p.CodeFits frames codes.flatten := by
  refine bodyFits_iff.mpr fun stmt hstmt => ?_
  obtain ⟨code, hcode, hmem⟩ := mem_flatten.mp hstmt
  exact bodyFits_iff.mp (h code hcode) stmt hmem

theorem codeFits_singleton {stmt : Stmt} (h : p.StmtFits frames stmt) : p.CodeFits frames [stmt] :=
  ⟨h, trivial⟩

theorem codeFits_assignId {id : String} {e : Expr} (hid : p.IdFits frames id) (he : p.ExprFits frames e) :
    p.CodeFits frames [assignId id e] := codeFits_singleton ⟨hid, he⟩

/-! ## Compiled nodes -/

section Makes

variable (p)

def Premises.ValueFits (frames : List Frame) (r : List Stmt × Expr) : Prop :=
  p.CodeFits frames r.1 ∧ p.ExprFits frames r.2

def Premises.LevelFits (frames : List Frame) (level : LoopLevel) : Prop :=
  p.IdFits frames level.variableId ∧ p.ExprFits frames level.iterator ∧ p.CodeFits frames level.opening

def Premises.AccumulatorFits (frames : List Frame) (r : List Stmt × List (String × String)) : Prop :=
  p.CodeFits frames r.1 ∧ ∀ entry ∈ r.2, p.IdFits frames entry.2

structure Premises.MakesBranch (b' b : Branch) : Prop where
  terminates : b'.terminates = b.terminates
  code : p.Writes p.CodeFits b'.code b.code

def marked (a : Annotations) (n : Node) : Bool := n.tag == .context || a.has n.id .patternContext

def Binds (l : Nat) (subject : Expr) (frames : List Frame) : Prop :=
  subject = .name (patternLocal l) ∨ DeclaredBy frames (patternLocal l)

/-- The test of a template. It binds its subject if the template speaks of it. -/
structure Premises.TestFits (n : Node) (l : Nat) (subject : Expr) (frames : List Frame) (e : Expr) : Prop where
  expr : p.ExprFits frames e
  binds : opens n = true → marked p.setting.annotations n = true → Binds l subject frames

/-- Two versions of a compiled node do the same in every position, and what they give fits. A test for a
    pattern has to be of one. -/
structure Premises.Makes (c' c : Compiled) : Prop where
  node : c'.node = c.node
  named : p.plain → c.node.Everywhere WellNamed
  expr : p.Always p.ExprFits c'.expr c.expr
  stmt : p.Writes p.CodeFits c'.stmt c.stmt
  effect : p.Writes p.CodeFits c'.effect c.effect
  value : p.Always p.ValueFits c'.value c.value
  resultStmt : p.Writes p.CodeFits c'.resultStmt c.resultStmt
  test : ∀ l subject s, p.ExprFits s.frames subject →
    p.Does 0 (p.TestFits c.node l subject) s (c'.test l subject) (c.test l subject)
  patternTest : (p.ready → c.node.tag = .pattern) → ∀ subject s, p.ExprFits s.frames subject →
    p.Does 0 p.ExprFits s (c'.patternTest subject) (c.patternTest subject)
  entry : p.Always p.PropertyFits c'.entry c.entry
  element : ∀ collection position s, p.IdFits s.frames collection →
    p.Does 0 (fun frames e => c.node.tag = .element ∧ p.ExprFits frames e) s (c'.element collection position)
      (c.element collection position)
  range : p.Writes p.LevelFits c'.range c.range
  accumulator : p.Writes p.AccumulatorFits c'.accumulator c.accumulator
  clauseTest : ∀ subject s, p.ExprFits s.frames subject →
    p.Does 0 p.ExprFits s (c'.clauseTest subject) (c.clauseTest subject)
  clauseBranch : ∀ keepResult, p.MakesBranch (c'.clauseBranch keepResult) (c.clauseBranch keepResult)

end Makes

/-! ## Lists of parts -/

theorem forall₂_zipIdx {β : Type} {R : α → β → Prop} {xs : List α} {ys : List β} (h : Forall₂ R xs ys)
    (i : Nat) : Forall₂ (fun x y => R x.1 y.1 ∧ x.2 = y.2) (xs.zipIdx i) (ys.zipIdx i) := by
  induction h generalizing i with
  | nil => exact .nil
  | cons hxy _ ih => exact .cons ⟨hxy, rfl⟩ (ih (i + 1))

theorem does_exprs {cs' cs : List Compiled} (h : Forall₂ p.Makes cs' cs) :
    p.Does 0 (fun frames es => ∀ e ∈ es, p.ExprFits frames e) s
      (cs'.mapM Compiled.expr) (cs.mapM Compiled.expr) :=
  does_mapM₂ stable_expr h fun _ _ hc s₁ _ => hc.expr s₁

theorem does_statements {body : List Compiled} (h : Forall₂ p.Makes body' body) :
    p.Writes p.CodeFits (statements body') (statements body) :=
  fun _ => (does_mapM₂ stable_code h fun _ _ hc s₁ _ => hc.stmt s₁).map fun _ _ => codeFits_flatten

theorem does_misplaced {P : List Frame → α → Prop} (n : Node) (position : Position) (s : State) :
    p.Does k P s (misplaced n position) (misplaced n position) :=
  does_fail fun _ => ⟨n.tag, position, rfl⟩

/-! ## Conditions and literals -/

theorem does_truth (h : p.Always p.ExprFits x y) : p.Always p.ExprFits (truth n x) (truth n y) := by
  refine fun s => (h s).bind fun e s₁ _ he => ?_
  split
  · exact does_pure he
  · exact does_callLibrary (by decide) (by simpa using he)

theorem Premises.Makes.condition (h : p.Makes c' c) : p.Always p.ExprFits c'.condition c.condition := by
  unfold Compiled.condition
  rw [h.node]
  exact does_truth h.expr

theorem does_literal (value : Value) : p.Always p.ExprFits (literal value) (literal value) := by
  intro s
  have hlarge (isLarge : Bool) : p.Does 0 p.ExprFits s
      (if isLarge then do return .name (← useConstant (·.useLiteral value.script))
        else return .literal value)
      (if isLarge then do return .name (← useConstant (·.useLiteral value.script))
        else return .literal value) := by
    cases isLarge with
    | false => exact does_pure trivial
    | true => exact (does_useLiteral _).map fun _ _ hid => hid
  exact does_read (hlarge _) rfl

/-! ## Tests -/

/-- The local of a pattern or an element is to be declared below it, if its template speaks of the value under
    test. -/
def Premises.below (p : Premises) (n : Node) : Premises :=
  { p with pending := fun id => p.pending id ∨
      ∃ l ∈ p.setting.annotations.local? n.id, id = patternLocal l ∧ ∃ t ∈ tested? n, opens t = true }

theorem Premises.Does.ofBelow {P : List Frame → α → Prop} {x y : Emit α} (h : (p.below n).Does k P s x y) :
    p.Does k P s x y := fun hs => h ⟨hs.tidy, hs.block⟩

theorem Premises.ExprFits.toBelow {e : Expr} (h : p.ExprFits frames e) (n : Node) :
    (p.below n).ExprFits frames e := by
  have htransports : Transports Eq p.Allows (p.below n).Allows := by
    refine ⟨fun _ heq => congrArg _ heq, ?_⟩
    rintro scopes _ id rfl h
    exact ⟨h.1, fun l hl hbound => (h.2 l hl hbound).imp_right (Or.imp_left .inl)⟩
  exact fits_transport htransports (fun _ h => h) e rfl h

/-- Once the local is declared, what may stand below the pattern or element may stand around it too. -/
theorem Premises.ExprFits.ofBelow {e : Expr} (h : (p.below n).ExprFits frames e) (hlocal : ∀ t ∈ tested? n,
    opens t = true → ∀ l ∈ p.setting.annotations.local? n.id, p.IdFits frames (patternLocal l)) :
    p.ExprFits frames e := by
  have htransports : Transports (fun a b => a = b ∧ ∀ t ∈ tested? n, opens t = true →
      ∀ l ∈ p.setting.annotations.local? n.id, p.LocalFits a (patternLocal l))
        (p.below n).Allows p.Allows := by
    constructor
    case push =>
      rintro a _ scope ⟨rfl, hfits⟩
      refine ⟨rfl, fun t ht hopens l hl hbound => (hfits t ht hopens l hl hbound).imp_left ?_⟩
      rintro ⟨other, hother, hmem⟩
      exact ⟨other, mem_cons_of_mem _ hother, hmem⟩
    case id =>
      rintro a _ id ⟨rfl, hfits⟩ h
      refine ⟨h.1, fun m hm hbound => ?_⟩
      rcases h.2 m hm hbound with hdeclared | (hpending | ⟨l, hl, rfl, t, ht, hopens⟩) | hglobal
      · exact .inl hdeclared
      · exact .inr (.inl hpending)
      · exact hfits t ht hopens l hl hbound
      · exact .inr (.inr hglobal)
  exact fits_transport htransports (fun _ h => h) e
    ⟨rfl, fun t ht hopens l hl => (hlocal t ht hopens l hl).2 l rfl⟩ h

theorem Binds.idFits {l : Nat} (h : Binds l subject frames) (hsubject : p.ExprFits frames subject) :
    p.IdFits frames (patternLocal l) := by
  rcases h with rfl | hdeclared
  · exact hsubject
  · exact idFits_patternLocal fun _ => .inl hdeclared

theorem declaredBy_of_head {id : String} (h : id ∈ (scopesOf frames).headD []) : DeclaredBy frames id := by
  cases frames with
  | nil => cases h
  | cons f frames => exact ⟨_, mem_cons_self, h⟩

theorem does_bindLocal (l : Nat) (h : p.ExprFits s.frames subject) :
    p.Does 0 (fun frames binding => Binds l subject frames ∧ ∀ b ∈ binding, p.ExprFits frames b) s
      (bindLocal (patternLocal l) subject) (bindLocal (patternLocal l) subject) := by
  unfold bindLocal
  split
  · next hname =>
    have hsubject : subject = .name (patternLocal l) := by
      cases subject with
      | name id => rw [beq_iff_eq.mp hname]
      | _ => cases hname
    exact does_pure ⟨.inl hsubject, by simp⟩
  · refine (does_hoist fun _ => .patternLocal l).bind fun _ s₁ hlater hmem => does_pure ?_
    have hbinds : Binds l subject s₁.frames := .inr (declaredBy_of_head hmem)
    have hsubject := h.later hlater
    exact ⟨hbinds, by simpa using ⟨hbinds.idFits hsubject, hsubject⟩⟩

theorem does_libraryTest (h : p.Always p.ExprFits x y) (hsubject : p.ExprFits s.frames subject) :
    p.Does 0 p.ExprFits s (libraryTest x subject) (libraryTest y subject) := by
  refine (h s).bind fun matcher s₁ hlater hmatcher => does_callLibrary (by decide) ?_
  simpa using ⟨hmatcher, hsubject.later hlater⟩

theorem does_conditionTest (h : p.Always p.ExprFits x y) (l : Nat) (hsubject : p.ExprFits s.frames subject) :
    p.Does 0 (p.TestFits n l subject) s (conditionTest x l subject) (conditionTest y l subject) := by
  refine (h s).bind fun test s₁ hlater htest => ?_
  refine (does_bindLocal l (hsubject.later hlater)).bind fun binding s₂ hlater₂ hbinding => ?_
  have htest := htest.later hlater₂
  cases binding with
  | none => exact does_pure ⟨htest, fun _ _ => hbinding.1⟩
  | some b => exact does_pure ⟨⟨hbinding.2 b rfl, htest⟩, fun _ _ => hbinding.1⟩

theorem does_nameTest (name : String) (h : p.Always p.ExprFits x y) (hsubject : p.ExprFits s.frames subject) :
    p.Does 0 p.ExprFits s (nameTest name x subject) (nameTest name y subject) := by
  refine does_get ?_
  split
  · exact does_libraryTest h hsubject
  · split
    · exact does_callLibrary (predicate_mem_libraryNames _) (by simpa using hsubject)
    · exact does_libraryTest h hsubject

theorem does_simpleTest (h : p.Always p.ExprFits x y) (l : Nat) (hsubject : p.ExprFits s.frames subject) :
    p.Does 0 (p.TestFits n l subject) s (simpleTest n x l subject) (simpleTest n y l subject) := by
  refine does_read ?_ rfl
  dsimp only
  split
  · exact does_conditionTest (does_truth h) l hsubject
  · next hunmarked =>
    have hfits (frames : List Frame) (e : Expr) (he : p.ExprFits frames e) : p.TestFits n l subject frames e :=
      ⟨he, fun _ hmarked => absurd hmarked hunmarked⟩
    split
    · exact (does_nameTest _ h hsubject).imp hfits
    · split
      · refine (does_literal _ s).bind fun e s₁ hlater he => does_pure (hfits _ _ ?_)
        exact ⟨hsubject.later hlater, he⟩
      · exact (does_libraryTest h hsubject).imp hfits
    · exact (does_libraryTest h hsubject).imp hfits

theorem does_elementKey {key : Option Compiled} (h : Option.Rel p.Makes key' key) (position : Nat) :
    p.Always p.ExprFits (elementKey key' position) (elementKey key position) := by
  intro s
  cases h with
  | none => exact does_pure trivial
  | some hk =>
    unfold elementKey
    dsimp only
    rw [hk.node]
    split
    · exact does_pure trivial
    · exact does_pure trivial
    · exact hk.expr s

theorem opens_collection {n : Node} (htag : n.tag ∈ collections) (h : ∀ c ∈ n.children, c.tag = .element) :
    opens n = false := by
  have hcontext : (n.tag == .context) = false := beq_false_of_ne fun heq => by simp [heq, collections] at htag
  rw [opens_eq, hcontext, Bool.false_or, Bool.and_eq_false_iff]
  refine .inr (any_eq_false.mpr fun c hc => ?_)
  rw [opens_eq, h c hc]
  simp [Pattern.ends, Pattern.boundaries]

theorem does_collectionTest {elements' elements : List Compiled} (htag : n.tag ∈ collections)
    (hchildren : n.children = elements.map Compiled.node) (h : Forall₂ p.Makes elements' elements)
    (isArray : Bool) (l : Nat) (hsubject : p.ExprFits s.frames subject) :
    p.Does 0 (p.TestFits n l subject) s (collectionTest n elements' isArray l subject)
      (collectionTest n elements isArray l subject) := by
  unfold collectionTest
  rw [h.length_eq]
  refine does_read ?_ rfl
  dsimp only
  generalize (p.setting.annotations.parent? n.id).getD l = own
  refine (does_bindLocal own hsubject).bind fun binding s₁ hlater₁ hbinding => ?_
  have hshape : (if isArray then "isArray" else "isObject") ∈ libraryNames := by
    cases isArray <;> decide
  have hid : p.IdFits s₁.frames (patternLocal own) := hbinding.1.idFits (hsubject.later hlater₁)
  have hname : ∀ e ∈ [Expr.name (patternLocal own)], p.ExprFits s₁.frames e := forall_mem_singleton.mpr hid
  refine (does_callLibrary hshape hname).bind fun shape s₂ hlater₂ hshape => ?_
  have hid := hid.later hlater₂
  have htests : p.Does 0 (fun frames es => (∀ c ∈ elements, c.node.tag = .element) ∧
      ∀ e ∈ es, p.ExprFits frames e) s₂
      (elementTests elements' (patternLocal own)) (elementTests elements (patternLocal own)) := by
    refine (does_mapM_known (k := 0) (S := fun e => e.1.node.tag = .element) stable_expr (forall₂_zipIdx h 0)
      ?_).imp fun frames es hes => ⟨fun c hc => ?_, hes.2⟩
    · rintro ⟨e', i⟩ ⟨e, _⟩ ⟨he, rfl⟩ s₃ hlater₃
      exact he.element _ i s₃ (hid.later hlater₃)
    · obtain ⟨i, hi⟩ := getElem?_of_mem hc
      exact hes.1 (c, i) (by simpa [mem_zipIdx_iff_getElem?] using hi)
  refine htests.bind fun tests s₃ hlater₃ htests => does_pure ?_
  have hid := hid.later hlater₃
  have hlength : ∀ e ∈ (if isArray then [Expr.binary "===" (.member (.name (patternLocal own)) "length")
      (.ofNat elements.length)] else []), p.ExprFits s₃.frames e := by
    split
    · simpa using ⟨hid, trivial⟩
    · simp
  have hall : p.ExprFits s₃.frames (.all (shape :: (if isArray then
      [Expr.binary "===" (.member (.name (patternLocal own)) "length") (.ofNat elements.length)] else [])
        ++ tests)) := by
    refine exprsFit_iff.mpr (forall_mem_cons.mpr ⟨hshape.later hlater₃, ?_⟩)
    exact forall_mem_append.mpr ⟨hlength, htests.2⟩
  refine ⟨?_, fun hopens _ => ?_⟩
  · cases binding with
    | none => exact hall
    | some b => exact ⟨((hbinding.2 b rfl).later hlater₂).later hlater₃, hall⟩
  · rw [opens_collection htag (hchildren ▸ forall_mem_map.mpr htests.1)] at hopens
    cases hopens

section Owners

variable {t t' : Compiled} {l : Nat} (htested : tested? n = some t.node)
  (hmarked : p.bound → opens t.node = true → marked p.setting.annotations t.node = true)
  (hn : p.ready → (p.setting.annotations.local? n.id).isSome)

include htested hmarked in
theorem Premises.TestFits.ofBelow {e : Expr} (h : (p.below n).TestFits t.node l subject frames e)
    (hl : p.setting.annotations.local? n.id = some l)
    (hid : Binds l subject frames → p.IdFits frames (patternLocal l)) : p.ExprFits frames e := by
  refine h.expr.ofBelow fun other hother hopens m hm => ?_
  obtain rfl := Option.some.inj (htested.symm.trans hother)
  obtain rfl := Option.some.inj (hl.symm.trans hm)
  exact idFits_patternLocal fun hbound => (hid (h.binds hopens (hmarked hbound hopens))).2 l rfl hbound

include htested hmarked hn in
theorem does_elementTest {key : Option Compiled} (hkey : Option.Rel (p.below n).Makes key' key)
    (ht : (p.below n).Makes t' t) {collection : String} (hcollection : p.IdFits s.frames collection)
    (position : Nat) : p.Does 0 p.ExprFits s (elementTest n key' t' collection position)
      (elementTest n key t collection position) := by
  refine (does_elementKey hkey position s).ofBelow.bind fun e s₁ hlater he => does_read ?_ rfl
  split
  · next hnone => exact does_missing hn hnone
  · next l hl =>
    have hname : p.ExprFits s₁.frames (.name collection) := hcollection.later hlater
    have hpart : (p.below n).ExprFits s₁.frames (.index (.name collection) e) := ⟨hname.toBelow n, he⟩
    refine (ht.test l _ s₁ hpart).ofBelow.imp fun frames e he => ?_
    refine he.ofBelow htested hmarked hl fun hbinds => ?_
    exact idFits_patternLocal fun _ => .inl (hbinds.resolve_left nofun)

include hn in
theorem does_patternTest (h : ∀ l, p.setting.annotations.local? n.id = some l →
      p.Does 0 p.ExprFits s (test' l subject) (test l subject)) :
    p.Does 0 p.ExprFits s (patternTest n test' subject) (patternTest n test subject) := by
  refine does_read ?_ rfl
  split
  · next hnone => exact does_missing hn hnone
  · next l hl => exact h l hl

include htested hmarked hn in
theorem does_ownTest (ht : (p.below n).Makes t' t) (hsubject : p.ExprFits s.frames subject) :
    p.Does 0 p.ExprFits s (patternTest n t'.test subject) (patternTest n t.test subject) := by
  refine does_patternTest hn fun l hl => ?_
  refine (ht.test l subject s (hsubject.toBelow n)).ofBelow.imp_later fun s₁ e hlater he => ?_
  exact he.ofBelow htested hmarked hl fun hbinds => hbinds.idFits (hsubject.later hlater)

include htested hmarked hn in
theorem does_patternValue (ht : ((p.within False).below n).Makes t' t) :
    p.Always p.ExprFits (patternValue n t'.test) (patternValue n t.test) := by
  intro s
  refine does_read ?_ rfl
  split
  · next hnone => exact does_missing hn hnone
  · next l hl =>
    have hlocal {frames : List Frame} (hparams : (frames.headD {}).params = [patternLocal l]) :
        (p.within False).IdFits frames (patternLocal l) := by
      refine idFits_patternLocal fun _ => .inl ?_
      cases frames with
      | nil => cases hparams
      | cons f outer => exact ⟨_, mem_cons_self, mem_append_right _
        (by rw [show f.params = _ from hparams]; simp)⟩
    have htest (s₁ : State) (hframes : s₁.frames = { params := [patternLocal l] } :: s.frames) :
        (p.within False).Does 2 (fun frames e => p.BodyFits frames ([patternLocal l], [.ret e]))
          s₁ (t'.test l (.name (patternLocal l))) (t.test l (.name (patternLocal l))) := by
      have hparams : (s₁.frames.headD {}).params = [patternLocal l] := by
        rw [hframes]
        rfl
      have hname : (p.within False).ExprFits s₁.frames (.name (patternLocal l)) := hlocal hparams
      refine (ht.test l (.name _) s₁ (hname.toBelow n)).ofBelow.params.imp fun frames e he => ?_
      have hparams := he.1.trans hparams
      have hfits : (p.within False).ExprFits frames e :=
        he.2.ofBelow (p := p.within False) htested hmarked hl fun _ => hlocal hparams
      exact ⟨hparams, hfits, trivial⟩
    have hgiven (s : State) : ∀ id ∈ [] ++ [patternLocal l], s.Given id := by
      simpa using State.Given.patternLocal l
    have hnodup : ([] ++ [patternLocal l]).Nodup := nodup_singleton _
    refine (does_inFrame hnodup hgiven (fun _ => False.elim) htest).bind fun r s₁ _ hr => ?_
    have hfunction := hr.2.function
    rw [hr.1] at hfunction
    exact does_callLibrary (by decide) (forall_mem_singleton.mpr hfunction)

end Owners

/-! ## Expressions -/

theorem does_isHostGlobal (name : String) :
    p.Does 0 (fun _ b => b = true → name ∈ p.setting.options.globals) s (isHostGlobal name)
      (isHostGlobal name) := by
  refine does_get (does_read (does_pure fun h => ?_) rfl)
  exact contains_iff_mem.mp (Bool.and_eq_true _ _ ▸ h).2

theorem does_identExpr {name : String} (hname : p.plain → Plain name) (hread : p.reads name) :
    p.Always p.ExprFits (identExpr name) (identExpr name) := by
  intro s
  refine (does_isHostGlobal name).bind fun isGlobal s₁ _ hglobal => ?_
  split
  · next h => exact (does_library (.inr (hglobal h))).map fun _ _ hid => hid
  · exact (does_readName (k := 0) hname fun _ => hread).map fun _ _ hid => hid.idFits

theorem does_contextExpr {id : Nat} (h : p.ready → (p.setting.annotations.context? id).isSome)
    (hbound : p.bound → ∀ l ∈ p.setting.annotations.context? id, p.pending (patternLocal l)) :
    p.Always p.ExprFits (contextExpr id) (contextExpr id) := by
  intro s
  refine does_read ?_ rfl
  split
  · next l hl => exact does_pure (idFits_patternLocal fun hb => .inr (.inl (hbound hb l hl)))
  · next hnone => exact does_missing h hnone

theorem does_unaryExpr (op : UnaryOp) {operand' operand : Compiled} (h : p.Makes operand' operand) :
    p.Always p.ExprFits (unaryExpr op operand') (unaryExpr op operand) := by
  intro s
  unfold unaryExpr
  rw [h.node]
  refine (h.expr s).bind fun e s₁ _ he => ?_
  cases op with
  | neg => exact does_pure he
  | not =>
    dsimp only
    split
    · exact does_pure he
    · exact does_callLibrary (by decide) (by simpa using he)

theorem does_binaryExpr (op : BinaryOp) {left' left right' right : Compiled} (hl : p.Makes left' left)
    (hr : p.Makes right' right) :
    p.Always p.ExprFits (binaryExpr op left' right') (binaryExpr op left right) := by
  intro s
  refine (hl.expr s).bind fun l s₁ _ hl => (hr.expr s₁).bind fun r s₂ hlater hr => ?_
  have hl := hl.later hlater
  split
  · exact does_callLibrary (by decide) (by simpa using ⟨hl, hr⟩)
  · exact (does_callLibrary (by decide) (by simpa using ⟨hl, hr⟩)).map fun _ _ he => he
  · exact does_callLibrary (by decide) (by simpa using ⟨hr, hl⟩)
  · exact does_pure ⟨hl, hr⟩

theorem does_logicalExpr (n : Node) {left' left right' right : Compiled} (hl : p.Makes left' left)
    (hr : p.Makes right' right) {decides : String} (hdecides : decides ∈ libraryNames) (hostOp : String) :
    p.Always p.ExprFits (logicalExpr n left' right' decides hostOp)
      (logicalExpr n left right decides hostOp) := by
  intro s
  refine (hl.expr s).bind fun l s₁ _ hl => (hr.expr s₁).bind fun r s₂ hlater hr => ?_
  have hl := hl.later hlater
  split
  · exact does_pure ⟨hl, hr⟩
  · refine does_temp.bind fun t s₃ hlater₃ ht => ?_
    have hassign : p.ExprFits s₃.frames (.assign t l) := ⟨ht, hl.later hlater₃⟩
    refine (does_callLibrary hdecides (by simpa using hassign)).bind fun test s₄ hlater₄ htest => ?_
    exact does_pure ⟨htest, ht.later hlater₄, (hr.later hlater₃).later hlater₄⟩

theorem does_condExpr {y' y n' n : Compiled} (hc : p.Makes c' c) (hy : p.Makes y' y) (hn : p.Makes n' n) :
    p.Always p.ExprFits (condExpr c' y' n') (condExpr c y n) := by
  intro s
  refine (hc.condition s).bind fun test s₁ _ htest => (hy.expr s₁).bind fun yes s₂ hlater₂ hyes => ?_
  refine (hn.expr s₂).bind fun no s₃ hlater₃ hno => does_pure ?_
  exact ⟨(htest.later hlater₂).later hlater₃, hyes.later hlater₃, hno⟩

theorem does_callee (h : p.Makes c' c) : p.Always p.ExprFits (callee c') (callee c) := by
  intro s
  unfold callee
  rw [h.node]
  refine (h.expr s).bind fun e s₁ _ he => ?_
  split
  · exact does_pure he
  · exact does_pure he
  · exact does_pure he
  · exact does_pure he
  · exact does_pure he
  · refine does_pure ?_
    split <;> exact he

theorem does_memberExpr {object' object property' property : Compiled} (ho : p.Makes object' object)
    (hp : p.Makes property' property) :
    p.Always p.ExprFits (memberExpr object' property') (memberExpr object property) := by
  intro s
  have htarget : p.Does 0 p.ExprFits s (memberTarget object')
      (memberTarget object) := by
    unfold memberTarget
    rw [ho.node]
    refine (does_callee ho s).bind fun e s₁ _ he => ?_
    split
    · refine does_pure ?_
      split <;> exact he
    · exact does_pure he
  unfold memberExpr
  rw [hp.node]
  refine htarget.bind fun target s₁ _ htarget => ?_
  split
  · exact does_pure htarget
  · exact (hp.expr s₁).bind fun e s₂ hlater he => does_pure ⟨htarget.later hlater, he⟩

theorem does_entryProperty {key' key value' value : Compiled} (hk : p.Makes key' key)
    (hv : p.Makes value' value) :
    p.Always p.PropertyFits (entryProperty key' value') (entryProperty key value) := by
  intro s
  unfold entryProperty
  rw [hk.node]
  split
  · exact (hv.expr s).map fun _ _ he => he
  · exact (hv.expr s).map fun _ _ he => he
  · refine (hk.expr s).bind fun e s₁ _ he => (hv.expr s₁).bind fun v s₂ hlater hv => does_pure ?_
    exact ⟨he.later hlater, hv⟩

theorem does_callExpr {function' function : Compiled} {args' args : List Compiled}
    (hf : p.Makes function' function) (hargs : Forall₂ p.Makes args' args) :
    p.Always p.ExprFits (callExpr function' args') (callExpr function args) := by
  intro s
  have hcall : p.Does 0 p.ExprFits s
      (do let target ← callee function'; return .call target (← args'.mapM Compiled.expr))
      (do let target ← callee function; return .call target (← args.mapM Compiled.expr)) := by
    refine (does_callee hf s).bind fun target s₁ _ htarget => ?_
    refine (does_exprs hargs).bind fun es s₂ hlater hes => does_pure ?_
    exact ⟨htarget.later hlater, exprsFit_iff.mpr hes⟩
  unfold callExpr
  rw [hf.node]
  cases hargs with
  | nil => simpa using hcall
  | cons harg hrest =>
    cases hrest with
    | nil =>
      cases hkind : function.node.kind with
      | pattern _ =>
        have htag : function.node.tag = .pattern := congrArg Kind.tag hkind
        exact (harg.expr s).bind fun e s₁ _ he => hf.patternTest (fun _ => htag) e s₁ he
      | _ => exact hcall
    | cons _ _ => simpa using hcall

/-! ## Functions -/

theorem does_param (hn : p.plain → WellNamed n) (position : Nat) {before : List String}
    (hbefore : (s.frames.headD {}).params = before) :
    p.Does 2 (fun frames r => p.BodyFits frames (before ++ r.1, r.2)) s
      (param n position) (param n position) := by
  obtain ⟨i, span, kind⟩ := n
  cases kind with
  | param name pattern isVariadic =>
    have hname (hplain : p.plain) : Plain name := hn hplain name (by simp [Kind.names])
    cases isVariadic with
    | false => refine (does_writeParam hname hbefore).bind fun id s₁ _ hid => does_pure ⟨hid, trivial⟩
    | true =>
      refine (does_writeName hname).params.bind fun id s₁ _ hid => ?_
      have hargs : ∀ e ∈ [Expr.name "arguments", .ofNat position],
          p.ExprFits s₁.frames e := by
        have harguments : p.ExprFits s₁.frames (.name "arguments") := idFits_reserved (by decide) (by decide)
        simpa using ⟨harguments, trivial⟩
      refine (does_callLibrary (by decide) hargs).params.bind fun e s₂ hlater he => does_pure ⟨?_, ?_⟩
      · rw [he.1, hid.1, hbefore, append_nil]
      · exact codeFits_assignId (hid.2.idFits.later hlater) he.2
  | _ => exact does_fail fun _ => ⟨_, _, rfl⟩

theorem does_params {ps' ps : List Compiled} (h : Forall₂ p.Makes ps' ps)
    (hs : (s.frames.headD {}).params = []) : p.Does 2 p.BodyFits s (params ps') (params ps) := by
  have hparts {qs' qs : List (Compiled × Nat)} (h : Forall₂ (fun q' q =>
      p.Makes q'.1 q.1 ∧ q'.2 = q.2) qs' qs) {s : State} {before : List String}
      (hbefore : (s.frames.headD {}).params = before) :
      p.Does 2 (fun frames parts => p.BodyFits frames
        (before ++ parts.flatMap Prod.fst, parts.flatMap Prod.snd)) s
        (qs'.mapM fun q => param q.1.node q.2) (qs.mapM fun q => param q.1.node q.2) := by
    induction h generalizing s before with
    | nil =>
      rw [mapM_nil]
      refine does_pure ⟨?_, trivial⟩
      rw [hbefore, flatMap_nil, append_nil]
    | @cons q' q qs' qs hq _ ih =>
      obtain ⟨p', i⟩ := q'
      obtain ⟨p, _⟩ := q
      obtain ⟨hp, rfl⟩ := hq
      rw [mapM_cons, mapM_cons]
      dsimp only at hp ⊢
      rw [hp.node]
      refine (does_param (fun hplain => (hp.named hplain).here) i hbefore).bind
        fun part s₁ _ hpart => ?_
      refine (ih hpart.1).bind fun parts s₂ hlater hparts => does_pure ⟨?_, ?_⟩
      · rw [hparts.1, flatMap_cons, append_assoc]
      · rw [flatMap_cons]
        exact codeFits_append (hpart.2.later hlater) hparts.2
  exact (hparts (forall₂_zipIdx h 0) hs).map fun _ _ hparts => hparts

theorem does_function {inner : Prop} {frame : Frame} (hframe : frame.hoisted = [] ∧ frame.params = [])
    (hinner : p.Holds s → inner → frame.isGenerator = true) (make : α → List String × List Stmt) {x y : Emit α}
    (h : ∀ s₁ : State, s₁.frames = frame :: s.frames → (s₁.frames.headD {}).params = [] →
      (p.within inner).Does 2 (fun frames a => p.BodyFits frames (make a)) s₁ x y) :
    p.Does 0 (fun frames r => p.ExprFits frames
      (.function frame.isGenerator (make r.1).1 (r.2.wrap (make r.1).2))) s (inFrame frame x)
      (inFrame frame y) := by
  have hnone : frame.hoisted ++ frame.params = [] := by rw [hframe.1, hframe.2, append_nil]
  refine (does_inFrame ?_ ?_ hinner fun s₁ hframes => h s₁ hframes ?_).imp fun frames r hr => ?_
  · rw [hnone]
    exact nodup_nil
  · rw [hnone]
    simp
  · rw [hframes]
    exact hframe.2
  · rw [← hr.1]
    exact hr.2.function

theorem does_block {inner : Prop} (frame : Frame) (hframe : frame.hoisted = [] ∧ frame.params = [])
    (hinner : p.Holds s → inner → frame.isGenerator = true) {x y : Emit (List Stmt)}
    (h : (p.within inner).Writes p.CodeFits x y) :
    p.Does 0 (fun frames r => p.ExprFits frames (.function frame.isGenerator [] (r.2.wrap r.1))) s
      (inFrame frame x) (inFrame frame y) := by
  refine does_function hframe hinner (fun code => ([], code)) fun s₁ _ hs₁ => ?_
  exact (h s₁).params.imp fun frames code hcode => ⟨hcode.1.trans hs₁, hcode.2⟩

theorem does_lambdaExpr {ps' ps : List Compiled} {body' body : Compiled}
    (hps : Forall₂ (p.within False).Makes ps' ps) (hbody : (p.within False).Makes body' body) :
    p.Always p.ExprFits (lambdaExpr ps' body') (lambdaExpr ps body) := by
  intro s
  refine (does_function ⟨rfl, rfl⟩ (fun _ => False.elim) id fun s₁ _ hs₁ => ?_).map fun _ _ hr => hr
  refine (does_params hps hs₁).bind fun r s₂ _ hr => ?_
  refine (hbody.expr s₂).params.bind fun e s₃ hlater he => does_pure ⟨?_, ?_⟩
  · exact he.1.trans hr.1
  · exact codeFits_append (hr.2.later hlater) ⟨he.2, trivial⟩

theorem does_regexExpr (pattern flags : String) :
    p.Always p.ExprFits (regexExpr pattern flags) (regexExpr pattern flags) :=
  fun _ => (does_useBuilder _ _).map fun _ _ hid => hid

theorem does_inGenerator : p.Does 0 (fun frames b => b = generating frames) s inGenerator inGenerator := by
  refine does_get (does_pure ?_)
  unfold generating
  cases s.frames <;> rfl

theorem does_immediate {x y : Emit (List Stmt)} (h : p.Writes p.CodeFits x y) :
    p.Always p.ExprFits (immediate x) (immediate y) := by
  intro s
  refine does_inGenerator.bind fun isGenerator s₁ _ hgenerator => ?_
  have hinner (hs₁ : p.Holds s₁) (hin : p.inBlock) : isGenerator = true := hgenerator.trans (hs₁.block hin)
  refine (does_block { isGenerator } ⟨rfl, rfl⟩ hinner h).bind fun r s₂ hlater hr => does_pure ?_
  split
  · next htrue => exact ⟨fun _ => hlater.grows.generating_eq.trans (hgenerator.symm.trans htrue), hr, trivial⟩
  · exact ⟨hr, trivial⟩

theorem does_generatorBlock {builder : String} (hbuilder : builder ∈ libraryNames) {body : List Compiled}
    (h : Forall₂ (p.within True).Makes body' body) :
    p.Always p.ExprFits (generatorBlock builder body') (generatorBlock builder body) := by
  intro s
  refine (does_block { isGenerator := true } ⟨rfl, rfl⟩ (fun _ _ => rfl)
    (does_statements h)).bind fun r s₁ _ hr => ?_
  exact does_callLibrary hbuilder (forall_mem_singleton.mpr hr)

theorem does_yieldExpr {wrapper : String} (hwrapper : wrapper ∈ libraryNames) {value' value : Compiled}
    (hblock : p.blocks → p.inBlock) (h : p.Makes value' value) :
    p.Always p.ExprFits (yieldExpr wrapper value') (yieldExpr wrapper value) := by
  refine fun s => does_of_holds fun hs => (h.expr s).bind fun e s₁ hlater₁ he => ?_
  refine (does_callLibrary hwrapper (by simpa using he)).bind fun call s₂ hlater₂ hcall => does_pure ?_
  have hgenerating := (hlater₁.trans hlater₂).grows.generating_eq
  exact ⟨fun hblocks => hgenerating.trans (hs.block (hblock hblocks)), hcall⟩

end Forms

end Emit

end Motif
