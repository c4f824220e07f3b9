import Motif.Proofs.Emit.Branches
import Motif.Proofs.Emit.Forms
import Motif.Proofs.Scope.Walk

/-!
# What the statement forms of the generator keep

The forms for statements, which work with several tables of names: every branch has one of its own, and
what branches have written is merged after them. Tables that are put aside stay declared, since functions
do not lose ids. With these forms every node keeps a tidy state if its children do
(`makes_compileNode`).
-/

namespace Motif.Emit

open Script IdAllocator Constants List
open Pattern (tested? opens boundaries ends openContexts openContexts_eq)

section Forms

variable {p : Premises} {s s' : State} {k : Nat}
  {body body' elseBody elseBody' ranges ranges' : List Compiled} {base : NameTable}
  {arms : List (List Stmt × NameTable × Bool)} {frames : List Frame} {items : List ModuleItem}
  {target : Target} {guard guard' : Option Compiled} {branches branches' : List Branch} {α β : Type}
  {name : String}

theorem does_eachStmt {ι : Type} {f : ι → Emit Stmt} {xs : List ι}
    (h : ∀ i ∈ xs, ∀ s₁, Follows p.reads 1 s s₁ → p.Does 1
      (fun frames stmt => p.CodeFits frames [stmt]) s₁ (f i) (f i)) :
    p.Does 1 p.CodeFits s (xs.mapM f) (xs.mapM f) := by
  have hstable : Stable fun frames stmt => p.CodeFits frames [stmt] :=
    fun _ _ stmt hw h => stable_code _ _ [stmt] hw h
  refine (does_mapM hstable h).imp fun frames code hcode => ?_
  exact bodyFits_iff.mpr fun stmt hstmt => (hcode stmt hstmt).1

/-! ## Assignments -/

theorem does_destructure (hnames : p.plain → ∀ name ∈ target.names, Plain name) {source : String}
    (hsource : p.IdFits s.frames source) :
    p.Does 1 p.CodeFits s (destructure target source) (destructure target source) := by
  have hpart {name : String} (hname : name ∈ target.names) (value : Expr) {s₁ : State}
      (hvalue : ∀ frames, p.IdFits frames source → p.ExprFits frames value)
      (hlater : Follows p.reads 1 s s₁) :
      p.Does 1 (fun frames stmt => p.CodeFits frames [stmt]) s₁
        (do return assignId (← writeName name) value) (do return assignId (← writeName name) value) := by
    refine (does_writeName fun hplain => hnames hplain name hname).bind fun id s₂ hlater₂ hid => ?_
    refine does_pure (codeFits_assignId hid.idFits (hvalue _ ?_))
    exact (hsource.later hlater).later hlater₂
  cases target with
  | name name => exact (hpart mem_cons_self (.name source) (fun _ h => h) (.refl s)).map fun _ _ h => h
  | array names =>
    refine does_eachStmt fun p hp s₁ hlater => ?_
    exact hpart (fst_mem_of_mem_zipIdx hp) (.index (.name source) (.ofNat p.2))
      (fun _ h => ⟨h, trivial⟩) hlater
  | object pairs =>
    refine does_eachStmt fun p hp s₁ hlater => ?_
    exact hpart (mem_map_of_mem hp) (.index (.name source) (.ofString p.1))
      (fun _ h => ⟨h, trivial⟩) hlater

theorem does_assignTo (hnames : p.plain → ∀ name ∈ target.names, Plain name) {value : Expr}
    (hvalue : p.ExprFits s.frames value) :
    p.Does 1 p.CodeFits s (assignTo target value) (assignTo target value) := by
  have hparts : p.Does 1 p.CodeFits s
      (do let t ← temp; return assignId t value :: (← destructure target t))
      (do let t ← temp; return assignId t value :: (← destructure target t)) := by
    refine does_temp.bind fun t s₁ hlater₁ ht => ?_
    refine (does_destructure hnames ht).bind fun code s₂ hlater₂ hcode => does_pure ?_
    exact codeFits_append
      (codeFits_assignId (ht.later hlater₂) ((hvalue.later hlater₁).later hlater₂)) hcode
  cases target with
  | name name =>
    refine (does_writeName fun hplain => hnames hplain name mem_cons_self).bind
      fun id s₁ hlater hid => does_pure ?_
    exact codeFits_assignId hid.idFits (hvalue.later hlater)
  | array names => exact hparts
  | object pairs => exact hparts

/-! ## Branches -/

structure Premises.ArmFits (p : Premises) (base : NameTable) (frames : List Frame)
    (arm : List Stmt × NameTable × Bool) : Prop where
  code : p.CodeFits frames arm.1
  table : arm.2.1.Declared p.plain frames
  covers : base.Covers arm.2.1

theorem Premises.ArmFits.later {arm : List Stmt × NameTable × Bool} (h : p.ArmFits base s.frames arm)
    (hlater : Follows p.reads k s s') : p.ArmFits base s'.frames arm :=
  ⟨h.code.later hlater, hlater.declared h.table, h.covers⟩

/-- Runs a step with the given names, which are in place again afterwards. Gives the names that it leaves. -/
def aside {α : Type} (base : NameTable) (step : Emit α) : Emit (α × NameTable) := do
  modify fun s => { s with names := base }
  let a ← step
  let table := (← get).names
  modify fun s => { s with names := base }
  return (a, table)

theorem run_aside {setting : Setting} (base : NameTable) (step : Emit α) (s : State) :
    ((aside base step).run setting).run s = ((step.run setting).run { s with names := base }).bind
      fun r => .ok ((r.1, r.2.names), { r.2 with names := base }) := by
  change ((step.run setting).run _).bind _ = _
  cases (step.run setting).run { s with names := base } with
  | error e => rfl
  | ok r => rfl

theorem names_aside {setting : Setting} {step : Emit α} {r : α × NameTable}
    (h : Emits setting (aside base step) s r s') : s'.names = base := by
  unfold Emits at h
  rw [run_aside] at h
  cases hrun : (step.run setting).run { s with names := base } with
  | error e =>
    rw [hrun] at h
    cases h
  | ok r =>
    rw [hrun] at h
    cases h
    rfl

theorem runBranches_cons (base : NameTable) (b : Branch) (rest : List Branch) :
    runBranches base (b :: rest) = (do
      let r ← aside base b.code
      return (r.1, r.2, b.terminates) :: (← runBranches base rest)) := by
  simp only [runBranches, aside, bind_assoc, pure_bind]

theorem does_aside {x y : Emit (List Stmt)} (h : p.Writes p.CodeFits x y) (hnames : s.names = base)
    (terminates : Bool) :
    p.Does 0 (fun frames r => p.ArmFits base frames (r.1, r.2, terminates)) s (aside base x)
      (aside base y) := by
  subst hnames
  refine (h s).around (fun r => ((r.1, r.2.names), { r.2 with names := s.names }))
    (run_aside s.names x s) (run_aside s.names y s) id fun hs code s₁ hs₁ hlater hcode => ?_
  have hlater' : Follows p.reads 0 s { s₁ with names := s.names } :=
    ⟨⟨hlater.widens, hlater.params, hlater.count⟩, hlater.generators, .refl _, fun _ => .refl _⟩
  exact ⟨hs₁.setNames (hlater'.declared hs.tidy.table), hlater', hcode, hs₁.table, hlater.covers⟩

theorem does_runBranches (h : Forall₂ p.MakesBranch branches' branches) (hnames : s.names = base) :
    p.Does 0 (fun frames arms => ∀ arm ∈ arms, p.ArmFits base frames arm) s
      (runBranches base branches') (runBranches base branches) := by
  induction h generalizing s with
  | nil => exact does_pure (by simp)
  | @cons b' b _ _ hb _ ih =>
    rw [runBranches_cons, runBranches_cons, hb.terminates]
    refine (does_aside hb.code hnames b.terminates).bind_run fun r s₁ hrun _ harm => ?_
    refine (ih (names_aside hrun)).bind fun arms s₂ hlater harms => does_pure ?_
    exact forall_mem_cons.mpr ⟨harm.later hlater, harms⟩

theorem nameFits_current {t : NameTable} {id : String} (ht : t.Declared p.plain frames)
    (h : t.current? name = some id) : p.NameFits frames id := by
  obtain ⟨hname, ⟨k, hk⟩, hdeclared⟩ := ht.current h
  exact ⟨fun hplain => ⟨name, k, hname hplain, hk⟩, hdeclared⟩

theorem does_mergeName (hname : p.plain → Plain name) (harms : ∀ arm ∈ arms, p.ArmFits base s.frames arm) :
    p.Does 1 (fun frames arms => ∀ arm ∈ arms, p.ArmFits base frames arm) s
      (mergeName name arms) (mergeName name arms) := by
  refine (does_readName (k := 1) hname nofun).bind fun before s₁ hlater₁ hbefore => ?_
  refine (does_writeName hname).bind fun merged s₂ hlater₂ hmerged => does_pure ?_
  refine forall_mem_map.mpr fun arm harm => ?_
  obtain ⟨code, table, terminates⟩ := arm
  have harm := ((harms _ harm).later hlater₁).later hlater₂
  refine ⟨?_, harm.table, harm.covers⟩
  dsimp only
  split
  · exact harm.code
  · refine codeFits_append harm.code (codeFits_assignId hmerged.idFits ?_)
    cases hown : table.current? name with
    | none => exact hbefore.idFits.later hlater₂
    | some own => exact (nameFits_current harm.table hown).idFits

theorem does_mergeNames {names : List String} (hnames : p.plain → ∀ name ∈ names, Plain name)
    (harms : ∀ arm ∈ arms, p.ArmFits base s.frames arm) :
    p.Does 1 (fun frames arms => ∀ arm ∈ arms, p.ArmFits base frames arm) s
      (names.foldlM (fun arms name => mergeName name arms) arms)
      (names.foldlM (fun arms name => mergeName name arms) arms) := by
  induction names generalizing s arms with
  | nil => exact does_pure harms
  | cons name names ih =>
    rw [foldlM_cons]
    refine (does_mergeName (fun hplain => hnames hplain name mem_cons_self) harms).bind
      fun arms s₁ _ harms => ih (fun hplain other hother => ?_) harms
    exact hnames hplain other (mem_cons_of_mem _ hother)

theorem does_branchSet (h : Forall₂ p.MakesBranch branches' branches) :
    p.Writes (fun frames bodies => ∀ body ∈ bodies, p.CodeFits frames body)
      (branchSet branches') (branchSet branches) := by
  refine fun s => does_get ((does_runBranches h rfl).bind fun arms s₁ _ harms => ?_)
  refine (does_mergeNames (fun hplain name hname => ?_) harms).map fun frames arms harms => ?_
  · rcases mem_foldl_insertName.mp hname with hname | hname
    · obtain ⟨arm, harm, hmodified⟩ := mem_flatMap.mp hname
      exact (harms arm harm).table.modified hmodified hplain
    · cases hname
  · exact forall_mem_map.mpr fun arm harm => (harms arm harm).code

theorem forall₂_last {R : α → β → Prop} {xs : List α} {ys : List β} (h : Forall₂ R xs ys) :
    Option.Rel R xs.getLast? ys.getLast? ∧ Forall₂ R xs.dropLast ys.dropLast := by
  induction h with
  | nil => exact ⟨.none, .nil⟩
  | cons hxy hrest ih =>
    cases hrest with
    | nil => exact ⟨.some hxy, .nil⟩
    | cons _ _ => exact ⟨by simpa only [getLast?_cons_cons] using ih.1, .cons hxy ih.2⟩

theorem forall₂_and_mem {R : α → β → Prop} {xs : List α} {ys : List β} (h : Forall₂ R xs ys) :
    Forall₂ (fun x y => R x y ∧ y ∈ ys) xs ys := by
  induction h with
  | nil => exact .nil
  | cons hxy _ ih => exact .cons ⟨hxy, mem_cons_self⟩ (ih.imp fun _ _ h => ⟨h.1, mem_cons_of_mem _ h.2⟩)

theorem makesBranch_branch (keepResult : Bool) (h : Forall₂ p.Makes body' body) :
    p.MakesBranch (branch keepResult body') (branch keepResult body) := by
  obtain ⟨hlast, hinit⟩ := forall₂_last h
  constructor
  case terminates =>
    dsimp only [branch, terminates]
    generalize body'.getLast? = last', body.getLast? = last at hlast
    cases hlast with
    | none => rfl
    | some hc => exact congrArg (fun n => n.tag == .ret) hc.node
  case code =>
    intro s
    dsimp only [branch]
    generalize body'.getLast? = last', body.getLast? = last at hlast
    cases keepResult with
    | false => exact does_statements h s
    | true =>
      cases hlast with
      | none => exact does_statements h s
      | some hc =>
        refine (does_statements hinit s).bind fun code s₁ _ hcode => ?_
        exact (hc.resultStmt s₁).bind fun result s₂ hlater hresult =>
          does_pure (codeFits_append (hcode.later hlater) hresult)

theorem does_keepValue {e' e : Compiled} (h : p.Makes e' e) :
    p.Writes p.CodeFits (keepValue e') (keepValue e) := by
  refine fun s => (h.value s).bind fun r s₁ _ hr => ?_
  refine does_setResult.bind fun _ s₂ hlater _ => does_pure ?_
  refine codeFits_append (hr.1.later hlater) (codeFits_assignId ?_ (hr.2.later hlater))
  exact idFits_of_mark Internal.result.not_isVersion (by decide)

theorem codeFits_getElem? {bodies : List (List Stmt)} (h : ∀ body ∈ bodies, p.CodeFits frames body)
    (i : Nat) : p.CodeFits frames (bodies[i]?.getD []) := by
  cases hi : bodies[i]? with
  | none => trivial
  | some body => exact h body (mem_of_getElem? hi)

theorem does_branchStmt {condition' condition : Compiled} {thenBody' thenBody : List Compiled}
    (hc : p.Makes condition' condition) (ht : Forall₂ p.Makes thenBody' thenBody)
    (he : Forall₂ p.Makes elseBody' elseBody) :
    p.Writes p.CodeFits (branchStmt condition' thenBody' elseBody')
      (branchStmt condition thenBody elseBody) := by
  refine fun s => (hc.condition s).bind fun test s₁ _ htest => ?_
  have hbranches : Forall₂ p.MakesBranch
      [branch false thenBody', branch false elseBody'] [branch false thenBody, branch false elseBody] :=
    .cons (makesBranch_branch false ht) (.cons (makesBranch_branch false he) .nil)
  refine (does_branchSet hbranches s₁).bind fun arms s₂ hlater harms => does_pure ?_
  refine codeFits_singleton ⟨⟨⟨htest.later hlater, ?_⟩, trivial⟩, ?_⟩
  · exact codeFits_getElem? harms 0
  · exact codeFits_getElem? harms 1

theorem does_chooseStmt (keepResult : Bool) {value' value : Compiled}
    {clauses' clauses otherwise' otherwise : List Compiled} (hv : p.Makes value' value)
    (hc : Forall₂ p.Makes clauses' clauses) (ho : Forall₂ p.Makes otherwise' otherwise) :
    p.Writes p.CodeFits (chooseStmt keepResult value' clauses' otherwise')
      (chooseStmt keepResult value clauses otherwise) := by
  have hempty {xs ys : List Compiled} (h : Forall₂ p.Makes xs ys) :
      xs.isEmpty = ys.isEmpty := by cases h <;> rfl
  unfold chooseStmt
  rw [hempty hc, hempty ho]
  refine fun s => (hv.value s).bind fun r s₁ _ hr => does_temp.bind fun t s₂ hlater₂ ht => ?_
  have hopening : p.CodeFits s₂.frames (r.1 ++ [assignId t r.2]) :=
    codeFits_append (hr.1.later hlater₂) (codeFits_assignId ht (hr.2.later hlater₂))
  have htests : p.Does 0 (fun frames es => ∀ e ∈ es, p.ExprFits frames e) s₂
      (clauses'.mapM fun c => c.clauseTest (.name t)) (clauses.mapM fun c => c.clauseTest (.name t)) :=
    does_mapM₂ stable_expr hc fun _ _ hclause s₃ hlater₃ => hclause.clauseTest (.name t) s₃ (ht.later hlater₃)
  refine htests.bind fun tests s₃ hlater₃ htests => ?_
  split
  · exact does_pure (hopening.later hlater₃)
  · have hbranches : Forall₂ p.MakesBranch
        (clauses'.map (fun c => c.clauseBranch keepResult) ++ [branch keepResult otherwise'])
        (clauses.map (fun c => c.clauseBranch keepResult) ++ [branch keepResult otherwise]) := by
      refine rel_append ?_ (.cons (makesBranch_branch keepResult ho) .nil)
      rw [forall₂_map_left_iff, forall₂_map_right_iff]
      exact hc.imp fun _ _ hclause => hclause.clauseBranch keepResult
    refine (does_branchSet hbranches s₃).bind fun bodies s₄ hlater₄ hbodies => ?_
    have hopening := (hopening.later hlater₃).later hlater₄
    have hlast : p.CodeFits s₄.frames (bodies.getLast?.getD []) := by
      cases hlast : bodies.getLast? with
      | none => trivial
      | some body => exact hbodies body (mem_of_getLast? hlast)
    dsimp only
    split
    · exact does_pure (codeFits_append hopening hlast)
    · refine does_pure (codeFits_append hopening (codeFits_singleton ⟨?_, hlast⟩))
      refine armsFit_iff.mpr fun arm harm => ⟨?_, ?_⟩
      · exact (htests _ (of_mem_zip harm).1).later hlater₄
      · exact hbodies _ (dropLast_subset _ (of_mem_zip harm).2)

theorem does_clauseTest {patterns' patterns : List Compiled} (h : Forall₂ p.Makes patterns' patterns)
    (htags : p.ready → ∀ c ∈ patterns, c.node.tag = .pattern) {subject : Expr}
    (hsubject : p.ExprFits s.frames subject) :
    p.Does 0 p.ExprFits s (clauseTest patterns' subject) (clauseTest patterns subject) := by
  refine (does_mapM₂ (k := 0) stable_expr (forall₂_and_mem h) fun _ c hp s₁ hlater => ?_).map
    fun _ _ => exprsFit_iff.mpr
  exact hp.1.patternTest (fun hready => htags hready c hp.2) subject s₁ (hsubject.later hlater)

/-! ## Loops -/

theorem does_loopLevel (hnames : p.plain → ∀ name ∈ target.names, Plain name)
    {collection' collection : Compiled} (hc : p.Makes collection' collection)
    (hg : Option.Rel p.Makes guard' guard) :
    p.Writes p.LevelFits (loopLevel target collection' guard') (loopLevel target collection guard) := by
  refine fun s => (hc.expr s).bind fun e s₁ _ he => ?_
  refine (does_callLibrary (by decide) (by simpa using he)).bind fun iterator s₂ _ hiterator => ?_
  have hopen {variableId : String} {opening : List Stmt} {s₃ : State} (hlater : Follows p.reads 1 s₂ s₃)
      (hid : p.IdFits s₃.frames variableId)
      (hopening : p.CodeFits s₃.frames opening) :
      p.LevelFits s₃.frames { variableId, iterator, opening } :=
    ⟨hid, hiterator.later hlater, hopening⟩
  have hguarded {g' g : Compiled} (hg : p.Makes g' g) {variableId : String}
      {opening : List Stmt} {s₃ : State} (hlater : Follows p.reads 1 s₂ s₃)
      (hid : p.IdFits s₃.frames variableId)
      (hopening : p.CodeFits s₃.frames opening) :
      p.Does 1 p.LevelFits s₃
        (do
          let test ← g'.condition
          return { variableId, iterator, opening := opening ++ [Stmt.continueUnless test] })
        (do
          let test ← g.condition
          return { variableId, iterator, opening := opening ++ [Stmt.continueUnless test] }) := by
    refine (hg.condition s₃).bind fun test s₄ hlater₄ htest => does_pure ?_
    exact hopen (hlater.trans (hlater₄.weaken (Nat.zero_le _))) (hid.later hlater₄)
      (codeFits_append (hopening.later hlater₄) (codeFits_singleton htest))
  cases target with
  | name name =>
    refine (does_writeName fun hplain => hnames hplain name mem_cons_self).bind
      fun id s₃ hlater₃ hid => ?_
    cases hg with
    | none => exact does_pure (hopen hlater₃ hid.idFits trivial)
    | some hg => exact hguarded hg hlater₃ hid.idFits trivial
  | array names | object pairs =>
    refine does_temp.bind fun t s₃ hlater₃ ht => ?_
    refine (does_destructure hnames ht).bind fun code s₄ hlater₄ hcode => ?_
    have hlater := hlater₃.trans hlater₄
    cases hg with
    | none => exact does_pure (hopen hlater (ht.later hlater₄) (codeFits_append hcode trivial))
    | some hg => exact hguarded hg hlater (ht.later hlater₄) hcode

theorem codeFits_nest {levels : List LoopLevel} {inner : List Stmt}
    (hlevels : ∀ level ∈ levels, p.LevelFits frames level) (hinner : p.CodeFits frames inner) :
    p.CodeFits frames (nest levels inner) := by
  induction levels with
  | nil => exact hinner
  | cons level levels ih =>
    obtain ⟨⟨hid, hiterator, hopening⟩, hlevels⟩ := forall_mem_cons.mp hlevels
    exact codeFits_singleton ⟨hid, hiterator, codeFits_append hopening (ih hlevels)⟩

theorem stable_level : Stable p.LevelFits := fun _ _ _ hw h =>
  ⟨stable_id _ _ _ hw h.1, stable_expr _ _ _ hw h.2.1, stable_code _ _ _ hw h.2.2⟩

theorem does_ranges (h : Forall₂ p.Makes ranges' ranges) :
    p.Writes (fun frames levels => ∀ level ∈ levels, p.LevelFits frames level)
      (ranges'.mapM Compiled.range) (ranges.mapM Compiled.range) :=
  fun _ => does_mapM₂ stable_level h fun _ _ hc s₁ _ => hc.range s₁

theorem does_loopCode {flag : Option String} (hflag : ∀ t ∈ flag, p.IdFits s.frames t)
    (hr : Forall₂ p.Makes ranges' ranges) (hb : Forall₂ p.Makes body' body) :
    p.Does 0 p.CodeFits s (loopCode flag ranges' body') (loopCode flag ranges body) := by
  refine does_nestedNames fun s₁ hframes => (does_ranges hr s₁).bind fun levels s₂ hlater₂ hlevels => ?_
  refine (does_statements hb s₂).bind fun inner s₃ hlater₃ hinner => does_pure ?_
  refine codeFits_nest (fun level hlevel => stable_level _ _ level hlater₃.grows (hlevels level hlevel)) ?_
  refine codeFits_append hinner ?_
  cases flag with
  | none => trivial
  | some t =>
    have ht : p.IdFits s₁.frames t := hframes ▸ hflag t rfl
    exact codeFits_assignId ((ht.later hlater₂).later hlater₃) trivial

theorem does_loopStmt (hr : Forall₂ p.Makes ranges' ranges) (hb : Forall₂ p.Makes body' body)
    (he : Forall₂ p.Makes elseBody' elseBody) :
    p.Writes p.CodeFits (loopStmt ranges' body' elseBody') (loopStmt ranges body elseBody) := by
  have hempty : elseBody'.isEmpty = elseBody.isEmpty := by cases he <;> rfl
  unfold loopStmt
  rw [hempty]
  intro s
  split
  · exact (does_loopCode (by simp) hr hb).imp fun _ _ h => h
  · refine does_temp.bind fun t s₁ _ ht => ?_
    refine (does_loopCode (by simpa using ht) hr hb).bind fun code s₂ hlater₂ hcode => ?_
    have hbranches : Forall₂ p.MakesBranch [branch false elseBody', branch false []]
        [branch false elseBody, branch false []] :=
      .cons (makesBranch_branch false he) (.cons (makesBranch_branch false .nil) .nil)
    refine (does_branchSet hbranches s₂).bind fun arms s₃ hlater₃ harms => does_pure ?_
    have ht := (ht.later hlater₂).later hlater₃
    have hset : p.CodeFits s₃.frames [assignId t (.literal (.bool false))] := codeFits_assignId ht trivial
    refine codeFits_append (codeFits_append hset (hcode.later hlater₃)) ?_
    refine codeFits_singleton ⟨⟨⟨ht, ?_⟩, trivial⟩, ?_⟩
    · exact codeFits_getElem? harms 0
    · exact codeFits_getElem? harms 1

theorem does_accumulator (hnames : p.plain → ∀ name ∈ target.names, Plain name) {value' value : Compiled}
    (h : p.Makes value' value) :
    p.Writes p.AccumulatorFits (accumulator target value') (accumulator target value) := by
  refine fun s => (h.value s).bind fun r s₁ _ hr => ?_
  refine (does_assignTo hnames hr.2).bind fun code s₂ hlater₂ hcode => ?_
  have hstable : Stable fun frames (entry : String × String) => p.IdFits frames entry.2 :=
    fun _ _ entry hw h => stable_id _ _ entry.2 hw h
  refine (does_mapM (k := 1) hstable fun name hname s₃ _ => ?_).bind fun carried s₄ hlater₄ hcarried => ?_
  · exact (does_readName (k := 1) (fun hplain => hnames hplain name hname) nofun).map
      fun _ _ hid => hid.idFits
  · refine does_pure ⟨?_, hcarried⟩
    exact codeFits_append ((hr.1.later hlater₂).later hlater₄) (hcode.later hlater₄)

theorem does_carryBack {carried : List (String × String)} (h : ∀ entry ∈ carried, p.IdFits s.frames entry.2) :
    p.Does 0 p.CodeFits s (carryBack carried) (carryBack carried) := by
  refine does_of_holds fun hs => does_get (does_pure (bodyFits_iff.mpr fun stmt hstmt => ?_))
  obtain ⟨⟨name, id⟩, hentry, hstmt⟩ := mem_filterMap.mp hstmt
  dsimp only at hstmt
  split at hstmt
  · next own hown =>
    split at hstmt
    · cases hstmt
    · cases hstmt
      exact ⟨h _ hentry, (nameFits_current hs.tidy.table hown).idFits⟩
  · cases hstmt

theorem stable_accumulator : Stable p.AccumulatorFits := fun _ _ _ hw h =>
  ⟨stable_code _ _ _ hw h.1, fun entry hentry => stable_id _ _ _ hw (h.2 entry hentry)⟩

theorem does_reduceCode {accumulators' accumulators : List Compiled}
    (ha : Forall₂ p.Makes accumulators' accumulators) (hr : Forall₂ p.Makes ranges' ranges)
    (hb : Forall₂ p.Makes body' body) :
    p.Always p.ValueFits (reduceCode accumulators' ranges' body') (reduceCode accumulators ranges body) := by
  refine fun s => does_nestedNames fun s₁ _ => ?_
  have haccumulators : p.Does 1
      (fun frames parts => ∀ part ∈ parts, p.AccumulatorFits frames part) s₁
      (accumulators'.mapM Compiled.accumulator) (accumulators.mapM Compiled.accumulator) :=
    does_mapM₂ stable_accumulator ha fun _ _ hc s₂ _ => hc.accumulator s₂
  refine haccumulators.bind fun parts s₂ _ hparts => ?_
  refine (does_ranges hr s₂).bind fun levels s₃ hlater₃ hlevels => ?_
  have hcarried {frames : List Frame} (hg : Grows s₂.frames frames) :
      ∀ entry ∈ parts.flatMap Prod.snd, p.IdFits frames entry.2 := by
    intro entry hentry
    obtain ⟨part, hpart, hmem⟩ := mem_flatMap.mp hentry
    exact stable_id _ _ _ hg ((hparts part hpart).2 entry hmem)
  have hinner : p.Does 0 p.CodeFits s₃
      (nestedNames do let code ← statements body'; return code ++ (← carryBack (parts.flatMap Prod.snd)))
      (nestedNames do let code ← statements body; return code ++ (← carryBack (parts.flatMap Prod.snd))) := by
    refine does_nestedNames fun s₄ hframes => ?_
    refine (does_statements hb s₄).bind fun code s₅ hlater₅ hcode => ?_
    have hgrows : Grows s₂.frames s₄.frames := hframes ▸ hlater₃.grows
    refine (does_carryBack (hcarried (hgrows.trans hlater₅.grows))).bind fun back s₆ hlater₆ hback => ?_
    exact does_pure (codeFits_append (hcode.later hlater₆) hback)
  refine hinner.bind fun inner s₄ hlater₄ hinner => does_pure ⟨?_, ?_⟩
  · refine codeFits_append ?_ (codeFits_nest (fun level hlevel => ?_) hinner)
    · rw [List.flatMap]
      refine codeFits_flatten (forall_mem_map.mpr fun part hpart => ?_)
      exact ((hparts part hpart).1.later hlater₃).later hlater₄
    · exact stable_level _ _ level hlater₄.grows (hlevels level hlevel)
  · have hids := hcarried (hlater₃.grows.trans hlater₄.grows)
    split
    · next id _ heq => exact hids _ (heq ▸ mem_cons_self)
    · trivial

/-! ## Functions and modules -/

theorem codeFits_guardFailure (name : String) {previous : Option String}
    (h : ∀ id ∈ previous, p.NameFits frames id) : p.CodeFits frames [guardFailure name previous] := by
  cases previous with
  | none => exact codeFits_singleton trivial
  | some id =>
    have hthis : p.IdFits frames "this" := idFits_reserved (by decide) (by decide)
    have harguments : p.IdFits frames "arguments" := idFits_reserved (by decide) (by decide)
    exact codeFits_singleton ⟨(h id rfl).idFits, hthis, harguments, trivial⟩

theorem does_functionStmt {n : Node} (hname : p.plain → Plain name) {ps' ps : List Compiled}
    (hps : Forall₂ (p.within False).Makes ps' ps) (hg : Option.Rel (p.within False).Makes guard' guard)
    (hb : Forall₂ (p.within False).Makes body' body) :
    p.Writes p.CodeFits (functionStmt n name ps' guard' body') (functionStmt n name ps guard body) := by
  have hsome : guard'.isSome = guard.isSome := by cases hg <;> rfl
  unfold functionStmt
  rw [hsome]
  intro s
  have hread : p.Does 1 (fun frames previous => ∀ id ∈ previous, p.NameFits frames id)
      s (some <$> readName name) (some <$> readName name) := by
    rw [map_eq_pure_bind]
    exact (does_readName (k := 1) hname nofun).map fun _ _ hid => by simpa using hid
  have hnone : p.Does 1 (fun frames previous => ∀ id ∈ previous, p.NameFits frames id)
      s (pure none) (pure none) := does_pure (by simp)
  refine does_read (.ite (hread.bind fun previous s₁ _ hprevious => ?known)
    (hnone.bind fun previous s₁ _ hprevious => ?new)) rfl
  case known | new =>
    refine (does_writeName hname).bind fun id s₂ hlater₂ hid => ?_
    refine (does_function ⟨rfl, rfl⟩ (fun _ => False.elim) (fun r => r) fun s₃ hframes hs₃ => ?_).bind
      fun r s₃ hlater₃ hr => does_pure (codeFits_assignId (hid.idFits.later hlater₃) hr)
    refine (does_params hps hs₃).bind fun r s₄ hlater₄ hr => ?_
    have hbody {guarding : List Stmt} {s₅ : State} (hlater₅ : Follows p.reads 0 s₄ s₅)
        (hparams : (s₅.frames.headD {}).params = (s₄.frames.headD {}).params)
        (hguarding : p.CodeFits s₅.frames guarding) :
        (p.within False).Does 2 p.BodyFits s₅
          (do return (r.1, r.2 ++ guarding ++ (← statements body')))
          (do return (r.1, r.2 ++ guarding ++ (← statements body))) := by
      refine (does_statements hb s₅).params.bind fun code s₆ hlater₆ hcode => does_pure ⟨?_, ?_⟩
      · exact hcode.1.trans (hparams.trans hr.1)
      · exact codeFits_append
          (codeFits_append ((hr.2.later hlater₅).later hlater₆) (hguarding.later hlater₆)) hcode.2
    cases hg with
    | none => exact hbody (.refl _) rfl trivial
    | some hg =>
      -- The definition before is read outside the function and called inside it.
      have hprevious (id : String) (hid : id ∈ previous) : p.NameFits s₃.frames id := by
        rw [hframes]
        exact Premises.NameFits.push (stable_name _ _ id hlater₂.grows (hprevious id hid)) _
      refine (hg.condition s₄).params.bind fun test s₅ hlater₅ htest => ?_
      have hfailure : p.CodeFits s₅.frames [guardFailure name previous] :=
        codeFits_guardFailure name fun id hid =>
          stable_name _ _ id (hlater₄.grows.trans hlater₅.grows) (hprevious id hid)
      exact hbody hlater₅ htest.1 (codeFits_singleton ⟨⟨⟨htest.2, hfailure⟩, trivial⟩, trivial⟩)

theorem does_importCall (source : String) : p.Always p.ExprFits (importCall source) (importCall source) := by
  intro s
  have hcontext : p.ExprFits s.frames (.name "$c") :=
    idFits_of_mark Internal.context.not_isVersion (by decide)
  exact does_callLibrary (by decide) (by simpa using ⟨hcontext, trivial⟩)

theorem does_importAllStmt (source : String) {localName : String} (hname : p.plain → Plain localName) :
    p.Writes p.CodeFits (importAllStmt source localName) (importAllStmt source localName) := by
  refine fun s => (does_importCall source s).bind fun call s₁ _ hcall => ?_
  refine (does_writeName hname).bind fun id s₂ hlater hid => does_pure ?_
  exact codeFits_assignId hid.idFits (hcall.later hlater)

theorem does_importFromStmt (source : String)
    (hnames : p.plain → ∀ name ∈ items.map ModuleItem.visibleName, Plain name) :
    p.Writes p.CodeFits (importFromStmt source items) (importFromStmt source items) := by
  refine fun s => (does_importCall source s).bind fun call s₁ _ hcall => ?_
  refine does_temp.bind fun t s₂ hlater₂ ht => ?_
  refine (does_eachStmt fun item hitem s₃ hlater₃ => ?_).bind fun parts s₃ hlater₃ hparts => ?_
  · have hname (hplain : p.plain) : Plain item.visibleName :=
      hnames hplain _ (mem_map_of_mem hitem)
    refine (does_writeName hname).bind fun id s₄ hlater₄ hid => does_pure ?_
    exact codeFits_assignId hid.idFits ⟨(ht.later hlater₃).later hlater₄, trivial⟩
  · have hcall := (hcall.later hlater₂).later hlater₃
    exact does_pure (codeFits_append (codeFits_assignId (ht.later hlater₃) hcall) hparts)

theorem does_exportStmts (hnames : p.plain → ∀ name ∈ items.map ModuleItem.name, Plain name) :
    p.Writes p.CodeFits (exportStmts items) (exportStmts items) := by
  refine fun s => does_eachStmt fun item hitem s₁ _ => ?_
  have hname (hplain : p.plain) : Plain item.name := hnames hplain _ (mem_map_of_mem hitem)
  refine (does_readName (k := 1) hname nofun).bind fun id s₂ _ hid => does_pure (codeFits_singleton ?_)
  have hexports : p.IdFits s₂.frames "$x" := idFits_of_mark Internal.exports.not_isVersion (by decide)
  exact ⟨⟨hexports, trivial⟩, hid.idFits⟩

theorem does_exportedStmt {decl' decl : Option Compiled} (hdecl : Option.Rel p.Makes decl' decl)
    (hnames : p.plain → ∀ name ∈ items.map ModuleItem.name, Plain name) :
    p.Writes p.CodeFits (exportedStmt decl' items) (exportedStmt decl items) := by
  cases hdecl with
  | none => exact does_exportStmts hnames
  | some hd =>
    unfold exportedStmt
    dsimp only
    rw [hd.node]
    refine fun s => (hd.stmt s).bind fun code s₁ _ hcode => ?_
    refine (does_exportStmts (fun hplain => ?_) s₁).bind fun exports s₂ hlater hexports => ?_
    · rw [map_append, forall_mem_append]
      refine ⟨hnames hplain, ?_⟩
      simpa using plain_declaredNames (hd.named hplain)
    · exact does_pure (codeFits_append (hcode.later hlater) hexports)

/-! ## Whole nodes -/

def Ready (a : Annotations) (n : Node) : Prop :=
  match n.kind with
  | .context => (a.context? n.id).isSome
  | .pattern _ => (a.local? n.id).isSome
  | .element .. => (a.local? n.id).isSome
  | .clause patterns _ => ∀ p ∈ patterns, p.tag = .pattern
  | _ => True

/-- The functions in which the code of a node's children may stand, given the one for the node: the body of a
    block is in a generator, and what is below a function, a lambda or a pattern can also be in a function
    that is none. -/
inductive Enters (inBlock : Prop) (tag : Tag) : Prop → Prop where
  | same (h : tag ∉ blockTags) : Enters inBlock tag inBlock
  | barrier (h : tag ∈ Scope.barriers) : Enters inBlock tag False
  | block (h : tag ∈ blockTags) : Enters inBlock tag True

theorem exists_enters (inBlock : Prop) (tag : Tag) : ∃ inner, Enters inBlock tag inner := by
  by_cases hblock : tag ∈ blockTags
  · exact ⟨True, .block hblock⟩
  · exact ⟨inBlock, .same hblock⟩

structure Premises.Layer (p : Premises) (n : Node) (kind' kind : Kind Compiled) : Prop where
  nodes : n.kind = kind.map Compiled.node
  named : p.plain → n.Everywhere WellNamed
  names : p.plain → ∀ name ∈ kind.names, Plain name
  context : p.ready → kind.tag = .context → (p.setting.annotations.context? n.id).isSome
  locals : p.ready → kind.tag ∈ [.pattern, .element] → (p.setting.annotations.local? n.id).isSome
  clause : p.ready → ∀ patterns body, kind = .clause patterns body → ∀ c ∈ patterns, c.node.tag = .pattern
  yields : p.blocks → kind.tag ∈ yieldTags → p.inBlock
  reads : ∀ name, kind = .ident name → p.reads name
  pending : p.bound → kind.tag = .context → ∀ l ∈ p.setting.annotations.context? n.id,
    p.pending (patternLocal l)
  marked : p.bound → ∀ t ∈ tested? n, opens t = true → marked p.setting.annotations t = true
  children : ∀ inner, Enters p.inBlock kind.tag inner → Kind.Rel ((p.within inner).below n).Makes
    ((p.within inner).below n).Makes (Forall₂ ((p.within inner).below n).Makes) kind' kind

section Nodes

variable {n : Node} {kind' kind : Kind Compiled}

theorem tag_map (f : α → β) (k : Kind α) : (k.map f).tag = k.tag := by
  cases k <;> rfl

theorem below_eq (h : n.tag ∉ boundaries) : p.below n = p := by
  have hnone (t : Node) : t ∉ tested? n := fun ht => h (Pattern.tag_of_tested? ht)
  simp [Premises.below, hnone]

theorem Premises.Layer.enter (h : p.Layer n kind' kind) (htag : kind.tag ∉ boundaries) {inner : Prop}
    (henters : Enters p.inBlock kind.tag inner) : Kind.Rel (p.within inner).Makes (p.within inner).Makes
      (Forall₂ (p.within inner).Makes) kind' kind := by
  have hn : n.tag ∉ boundaries := by
    rwa [Node.tag, h.nodes, tag_map]
  have hchildren := h.children inner henters
  rwa [below_eq hn] at hchildren

/-- The nodes whose children are in another place than the node, or have a local to declare. -/
def placing : List Tag := blockTags ++ boundaries

theorem Premises.Layer.same (h : p.Layer n kind' kind) (htag : kind.tag ∉ placing) :
    Kind.Rel p.Makes p.Makes (Forall₂ p.Makes) kind' kind :=
  h.enter (fun hmem => htag (mem_append_right _ hmem)) (.same fun hmem => htag (mem_append_left _ hmem))

theorem Premises.Layer.tested (h : p.Layer n kind' kind) :
    tested? n = tested? { n with kind := kind.map Compiled.node } := by
  unfold tested?
  rw [h.nodes]

theorem does_exprCode (h : p.Layer n kind' kind) :
    p.Always p.ExprFits (exprCode n kind') (exprCode n kind) := by
  by_cases hplacing : kind.tag ∈ placing
  · obtain ⟨inner, henters⟩ := exists_enters p.inBlock kind.tag
    cases h.children inner henters with
    | doBlock =>
      cases h.enter (of_decide_eq_true rfl) (.block (of_decide_eq_true rfl)) with
      | doBlock hb => exact does_generatorBlock (by decide) hb
    | generator =>
      cases h.enter (of_decide_eq_true rfl) (.block (of_decide_eq_true rfl)) with
      | generator hb => exact does_generatorBlock (by decide) hb
    | pattern =>
      cases h.children False (.barrier (of_decide_eq_true rfl)) with
      | pattern ht =>
        exact does_patternValue h.tested (fun hbound => h.marked hbound _ h.tested)
          (fun hready => h.locals hready mem_cons_self) ht
    | element => exact does_misplaced n _
    | _ => exact absurd hplacing (of_decide_eq_true rfl)
  cases h.same hplacing with
  | literal => exact does_literal _
  | ident => exact does_identExpr (fun hplain => h.names hplain _ mem_cons_self) (h.reads _ rfl)
  | context => exact does_contextExpr (fun hready => h.context hready rfl) fun hbound => h.pending hbound rfl
  | unary hx => exact does_unaryExpr _ hx
  | binary hl hr => exact does_binaryExpr _ hl hr
  | conj hl hr => exact does_logicalExpr n hl hr (by decide) _
  | disj hl hr => exact does_logicalExpr n hl hr (by decide) _
  | cond hc hy hn => exact does_condExpr hc hy hn
  | array he => exact fun s => (does_exprs he).map fun _ _ => exprsFit_iff.mpr
  | object he =>
    intro s
    refine (does_mapM₂ (k := 0) stable_property he fun _ _ hc s₁ _ => ?_).map fun _ _ => propertiesFit_iff.mpr
    exact hc.entry s₁
  | member ho hp => exact does_memberExpr ho hp
  | call hf ha => exact does_callExpr hf ha
  | lambda =>
    cases h.enter (of_decide_eq_true rfl) (.barrier (of_decide_eq_true rfl)) with
    | lambda hp hb => exact does_lambdaExpr hp hb
  | regex => exact does_regexExpr _ _
  | choose hv hc he => exact does_immediate (does_chooseStmt true hv hc he)
  | reduce ha hr hb =>
    refine does_immediate fun s => (does_reduceCode ha hr hb s).map fun _ _ hr => ?_
    exact codeFits_append hr.1 (codeFits_singleton hr.2)
  | doBlock | generator | pattern | element => exact absurd (of_decide_eq_true rfl) hplacing
  | @await resolver _ _ hv =>
    exact does_yieldExpr (by cases resolver <;> decide)
      (fun hblocks => h.yields hblocks (of_decide_eq_true rfl)) hv
  | emit hv => exact does_yieldExpr (by decide) (fun hblocks => h.yields hblocks (of_decide_eq_true rfl)) hv
  | _ => exact does_misplaced n _

theorem does_stmtCode (h : p.Layer n kind' kind) :
    p.Writes p.CodeFits (stmtCode n kind') (stmtCode n kind) := by
  by_cases hplacing : kind.tag ∈ placing
  · obtain ⟨inner, henters⟩ := exists_enters p.inBlock kind.tag
    cases h.children inner henters with
    | doBlock | generator | pattern | element => exact does_misplaced n _
    | _ => exact absurd hplacing (of_decide_eq_true rfl)
  cases h.same hplacing with
  | declare ha => exact does_statements ha
  | assign hv =>
    refine fun s => (hv.value s).bind fun r s₁ _ hr => ?_
    refine (does_assignTo h.names hr.2).bind fun code s₂ hlater hcode => does_pure ?_
    exact codeFits_append (hr.1.later hlater) hcode
  | branch hc ht he => exact does_branchStmt hc ht he
  | loop hr hb he => exact does_loopStmt hr hb he
  | ret hv => exact fun s => (hv.value s).map fun _ _ hr => codeFits_append hr.1 (codeFits_singleton hr.2)
  | exprStmt he => exact he.effect
  | function =>
    cases h.enter (of_decide_eq_true rfl) (.barrier (of_decide_eq_true rfl)) with
    | function hp hg hb => exact does_functionStmt (fun hplain => h.names hplain _ mem_cons_self) hp hg hb
  | importAll => exact does_importAllStmt _ fun hplain => h.names hplain _ mem_cons_self
  | importFrom => exact does_importFromStmt _ h.names
  | exported hd => exact does_exportedStmt hd h.names
  | _ => exact does_misplaced n _

theorem Premises.Layer.makes (h : p.Layer n kind' kind) :
    p.Makes (compileNode n kind') (compileNode n kind) := by
  have hexpr := does_exprCode h
  have hstmt := does_stmtCode h
  -- The children of a block count in the place of an expression only.
  obtain ⟨inner, henters⟩ := exists_enters p.inBlock kind.tag
  have hrel := h.children inner henters
  have hchildren : n.children = kind.children.map Compiled.node := by
    rw [Node.children, h.nodes, Kind.children_map]
  have htag : n.tag = kind.tag := by
    rw [Node.tag, h.nodes, tag_map]
  have htest : ∀ l subject s, p.ExprFits s.frames subject →
      p.Does 0 (p.TestFits n l subject) s ((compileNode n kind').test l subject)
        ((compileNode n kind).test l subject) := by
    intro l subject s hsubject
    cases hrel with
    | objectPattern =>
      cases h.same (of_decide_eq_true rfl) with
      | objectPattern he => exact does_collectionTest (htag ▸ mem_cons_self) hchildren he false l hsubject
    | arrayPattern =>
      cases h.same (of_decide_eq_true rfl) with
      | arrayPattern he =>
        exact does_collectionTest (htag ▸ of_decide_eq_true rfl) hchildren he true l hsubject
    | _ => exact does_simpleTest hexpr l hsubject
  constructor
  case node => rfl
  case named => exact h.named
  case expr => exact hexpr
  case stmt => exact hstmt
  case effect =>
    cases hrel with
    | choose =>
      cases h.same (of_decide_eq_true rfl) with
      | choose hv hc he => exact does_chooseStmt false hv hc he
    | reduce =>
      cases h.same (of_decide_eq_true rfl) with
      | reduce ha hr hb => exact fun s => (does_reduceCode ha hr hb s).map fun _ _ hr => hr.1
    | _ => exact fun s => (hexpr s).map fun _ _ he => codeFits_singleton he
  case value =>
    cases hrel with
    | reduce =>
      cases h.same (of_decide_eq_true rfl) with
      | reduce ha hr hb => exact does_reduceCode ha hr hb
    | _ => exact fun s => (hexpr s).map fun _ _ he => ⟨trivial, he⟩
  case resultStmt =>
    cases hrel with
    | exprStmt =>
      cases h.same (of_decide_eq_true rfl) with
      | exprStmt he => exact does_keepValue he
    | _ => exact hstmt
  case test => exact htest
  case patternTest =>
    intro hpattern subject s hsubject
    have hlocal (hready : p.ready) : (p.setting.annotations.local? n.id).isSome := by
      refine h.locals hready ?_
      rw [← htag, show n.tag = .pattern from hpattern hready]
      exact mem_cons_self
    cases hrel with
    | pattern =>
      cases h.children p.inBlock (.same (of_decide_eq_true rfl)) with
      | pattern ht => exact does_ownTest h.tested (fun hbound => h.marked hbound _ h.tested) hlocal ht hsubject
    | _ => exact does_patternTest hlocal fun l _ => (htest l subject s hsubject).imp fun _ _ he => he.expr
  case entry =>
    cases hrel with
    | entry =>
      cases h.same (of_decide_eq_true rfl) with
      | entry hk hv => exact does_entryProperty hk hv
    | _ => exact does_misplaced n _
  case element =>
    intro collection position s hcollection
    cases hrel with
    | element =>
      cases h.children p.inBlock (.same (of_decide_eq_true rfl)) with
      | element hk ht =>
        refine (does_elementTest h.tested (fun hbound => h.marked hbound _ h.tested)
          (fun hready => h.locals hready (of_decide_eq_true rfl)) hk ht hcollection position).imp ?_
        exact fun _ _ he => ⟨htag, he⟩
    | _ => exact does_misplaced n _ s
  case range =>
    cases hrel with
    | range =>
      cases h.same (of_decide_eq_true rfl) with
      | range hc hg => exact does_loopLevel h.names hc hg
    | _ => exact does_misplaced n _
  case accumulator =>
    cases hrel with
    | assign =>
      cases h.same (of_decide_eq_true rfl) with
      | assign hv => exact does_accumulator h.names hv
    | _ => exact does_misplaced n _
  case clauseTest =>
    intro subject s hsubject
    cases hrel with
    | clause =>
      cases h.same (of_decide_eq_true rfl) with
      | clause hp hb => exact does_clauseTest hp (fun hready => h.clause hready _ _ rfl) hsubject
    | _ => exact does_misplaced n _ s
  case clauseBranch =>
    intro keepResult
    cases hrel with
    | clause =>
      cases h.same (of_decide_eq_true rfl) with
      | clause hp hb => exact makesBranch_branch keepResult hb
    | _ => exact ⟨rfl, does_misplaced n _⟩

end Nodes

/-! ## Whole trees -/

theorem names_map (f : α → β) (k : Kind α) : (k.map f).names = k.names := by
  cases k <;> rfl

def untested (n : Node) : List Node :=
  match n.kind with
  | .pattern _ => []
  | .element key _ => key.toList
  | _ => n.children

/-- Every context reference below a pattern or an element, with no other one between them, stands in what is
    tested and reads the local of the value under test. The template says that it has one. -/
structure Bound (a : Annotations) (n : Node) : Prop where
  closed : n.tag ∈ ends → ∀ c ∈ untested n, openContexts c = []
  reads : ∀ t ∈ tested? n, ∀ id ∈ openContexts t, a.context? id = a.local? n.id
  marked : ∀ t ∈ tested? n, opens t = true → marked a t = true

structure Premises.Grants (p : Premises) (n : Node) (path : Path) : Prop where
  named : p.plain → n.Everywhere WellNamed
  ready : p.ready → n.Everywhere (Ready p.setting.annotations)
  blocks : p.blocks → n.InBlocks path
  reads : n.Everywhere fun m => ∀ name, m.kind = .ident name → p.reads name
  bound : p.bound → n.Everywhere (Bound p.setting.annotations)
  pending : p.bound → ∀ id ∈ openContexts n, ∀ l ∈ p.setting.annotations.context? id,
    p.pending (patternLocal l)

theorem layer_map {f : Node → Compiled} {n : Node} {path : Path} (hn : p.Grants n path)
    (hyield : p.blocks → n.tag ∈ yieldTags → p.inBlock)
    (h : ∀ c ∈ n.children, ∀ inner, Enters p.inBlock n.tag inner →
      ((p.within inner).below n).Makes (f c) (compile c)) : p.Layer n (n.kind.map f) (n.kind.map compile) where
  nodes := by cases n.kind <;> simp [Kind.map, Function.comp_def, compile_node]
  named := hn.named
  names hplain := by
    rw [names_map]
    exact (hn.named hplain).here
  context h htag := by
    have hn := (hn.ready h).here
    obtain ⟨i, span, k⟩ := n
    rw [tag_map] at htag
    cases k <;> first | exact hn | cases htag
  locals h htag := by
    have hn := (hn.ready h).here
    obtain ⟨i, span, k⟩ := n
    rw [tag_map] at htag
    cases k <;> first | exact hn | exact absurd htag (of_decide_eq_true rfl)
  clause h patterns body hkind := by
    have hn := (hn.ready h).here
    obtain ⟨i, span, k⟩ := n
    cases k with
    | clause nodes _ =>
      cases hkind
      refine forall_mem_map.mpr fun c hc => ?_
      rw [compile_node]
      exact hn c hc
    | _ => cases hkind
  yields := by
    rw [tag_map]
    exact hyield
  reads name hkind := by
    refine hn.reads.here name ?_
    cases h : n.kind <;> rw [h] at hkind <;> cases hkind
    rfl
  pending hbound htag := by
    rw [tag_map, ← Node.tag] at htag
    refine hn.pending hbound n.id ?_
    rw [openContexts_eq, if_pos htag]
    exact mem_singleton_self _
  marked hbound := (hn.bound hbound).here.marked
  children inner henters := by
    rw [tag_map] at henters
    exact Kind.rel_map fun c hc => h c hc inner henters

end Forms

end Motif.Emit
