import Motif.Proofs.Dict
import Motif.Proofs.Emit.Plain
import Motif.Proofs.Eval.Host
import Motif.Proofs.Tree.Layer

/-!
# Branches are merged

Each branch is generated on a copy of the table of names from before the branches, so each has ids of
its own. The names that some branch has written are then given one more id, and each branch that goes
on assigns its own to it (`Merges`). After that the code of every branch leads to the same table, and
does what its body does (`ArmMerged.mirrors`).
-/

namespace Motif.Emit

open Script Eval List

variable {names : List String} {name : String} {t : NameTable}

/-! ## Merging -/

section Merging

variable {setting : Setting} {s s₁ s₂ : State}

def TableIssued (s : State) (table : NameTable) : Prop :=
  ∀ name id, table.current? name = some id → Issued s name id

theorem TableIssued.of_extends {table : NameTable} (h : TableIssued s table)
    (hs : Extends s s₁) : TableIssued s₁ table :=
  fun name id hid => hs.issued (h name id hid)

/-- Code that gives the merged ids of names the values that the ids in a table have. -/
def Merges (s s' : State) (table : NameTable) (names : List String) (code : List Stmt) : Prop :=
  ∀ ⦃store⦄, Declares s' store → ∃ store', execBody store code = some (.next store') ∧
    Spares s store store' ∧ ∀ name ∈ names, ∀ id, table.current? name = some id →
      ∃ merged, s'.names.current? name = some merged ∧ Dict.get? merged store' = Dict.get? id store

/-- A branch before and after names are merged. A branch that returns is left as it is. -/
structure ArmMerged (s s' : State) (names : List String) (arm arm' : List Stmt × NameTable × Bool) : Prop where
  same : arm'.2 = arm.2
  returns : arm.2.2 = true → arm'.1 = arm.1
  continues : arm.2.2 = false → ∃ code, arm'.1 = arm.1 ++ code ∧ Merges s s' arm.2.1 names code

/-- One name is merged, then the others. The own id is that from the table, or else some id that is
    declared. -/
theorem Merges.cons {table : NameTable} {own : String} {code : List Stmt} (hs₁ : Extends s s₁)
    (hwritten : Written s₁ name s₂) {s' : State} (hs' : Extends s₂ s') (htable : TableIssued s table)
    (hown : own ∈ s₁.hoisted) (hid : ∀ id, table.current? name = some id → own = id)
    (hnames : ∀ other, other ∉ names → s'.names.current? other = s₂.names.current? other)
    (h : Merges s₂ s' table names code) :
    Merges s s' table (name :: names) (assignId (s₁.nextId name) (.name own) :: code) := by
  intro store hdeclares
  have hs₂ : Extends s s₂ := hs₁.trans hwritten.later
  obtain ⟨d, hd⟩ := hdeclares.get? (hs'.hoisted own (hwritten.later.hoisted own hown))
  have hdeclared := hdeclares _ (hs'.hoisted _ hwritten.issued.hoisted)
  have hspares : Spares s store (Dict.set (s₁.nextId name) d store) :=
    .set hdeclared fun other id hissued => (hs₁.issued hissued).ne_nextId hwritten.issued.undecorated
  obtain ⟨store', hrun, hspares', hmerged⟩ := h (hspares.declares hdeclares)
  have hassign : execBody store [assignId (s₁.nextId name) (.name own)] =
      some (.next (Dict.set (s₁.nextId name) d store)) := by
    simp [execBody, assignId, Stmt.exec, Expr.value?, hd, hdeclared]
  refine ⟨store', ?_, .trans hs₂ hspares hspares', ?_⟩
  · rw [← singleton_append, execBody_append_next hassign, hrun]
  intro other hother id hcurrent
  by_cases hmem : other ∈ names
  · obtain ⟨merged, hnew, hvalue⟩ := hmerged other hmem id hcurrent
    exact ⟨merged, hnew, hvalue.trans (hspares.value other id (htable other id hcurrent))⟩
  · -- A name that is not merged once more keeps the id that it has been given here.
    obtain rfl : other = name := (mem_cons.mp hother).resolve_right hmem
    obtain rfl := hid id hcurrent
    refine ⟨s₁.nextId other, ?_, ?_⟩
    · rw [hnames other hmem, hwritten.current, if_pos rfl]
    · rw [hspares'.value other _ hwritten.issued, Dict.get?_set, if_pos rfl, hd]

theorem emits_merge (setting : Setting) (hs : Sound s) (hnames : ∀ name ∈ names, Undecorated name)
    {arms : List (List Stmt × NameTable × Bool)} (harms : ∀ arm ∈ arms, TableIssued s arm.2.1) :
    ∃ arms' s', Emits setting (names.foldlM (fun arms name => mergeName name arms) arms) s arms' s' ∧
      Sound s' ∧ Extends s s' ∧ (∀ name, name ∉ names → s'.names.current? name = s.names.current? name) ∧
      Forall₂ (ArmMerged s s' names) arms arms' := by
  induction names generalizing s arms with
  | nil =>
    refine ⟨arms, s, emits_pure arms, hs, .refl s, fun _ _ => rfl, ?_⟩
    refine forall₂_same.mpr fun arm _ => ⟨rfl, fun _ => rfl, fun _ => ⟨[], by simp, ?_⟩⟩
    exact fun store _ => ⟨store, rfl, .refl s store, by simp⟩
  | cons name names ih =>
    rw [forall_mem_cons] at hnames
    obtain ⟨before, s₁, hread, hknown⟩ := emits_readName setting hs hnames.1
    obtain ⟨s₂, hwrite, hwritten⟩ := emits_writeName setting hknown.sound hnames.1
    -- An arm that does not write the name passes on the version from before the branches.
    let own (table : NameTable) : String := (table.current? name).getD before
    let merge (arm : List Stmt × NameTable × Bool) : List Stmt × NameTable × Bool :=
      (if arm.2.2 then arm.1 else arm.1 ++ [assignId (s₁.nextId name) (.name (own arm.2.1))],
        arm.2.1, arm.2.2)
    have hstep : Emits setting (mergeName name arms) s (arms.map merge) s₂ :=
      hread.bind (hwrite.bind (emits_pure _))
    have hs₂ := hknown.later.trans hwritten.later
    have hmap : ∀ arm ∈ arms.map merge, TableIssued s₂ arm.2.1 := by
      intro arm' harm'
      obtain ⟨arm, harm, rfl⟩ := mem_map.mp harm'
      exact (harms arm harm).of_extends hs₂
    obtain ⟨arms', s', hfold, hs', hlater, hcurrent, hmerged⟩ := ih hwritten.sound hnames.2 hmap
    refine ⟨arms', s', ?_, hs', hs₂.trans hlater, fun other hother => ?_, ?_⟩
    · rw [foldlM_cons]
      exact hstep.bind hfold
    · rw [mem_cons, not_or] at hother
      rw [hcurrent other hother.2, hwritten.current, if_neg hother.1, hknown.others other hother.1]
    · rw [forall₂_map_left_iff] at hmerged
      refine Kind.forall₂_imp_mem hmerged fun arm harm arm' h => ⟨h.same, ?_, fun hterm => ?_⟩
      · intro hterm
        rw [h.returns hterm]
        exact if_pos hterm
      · obtain ⟨code, hcode, hmerges⟩ := h.continues hterm
        have hown : own arm.2.1 ∈ s₁.hoisted := by
          show (arm.2.1.current? name).getD before ∈ _
          cases hid : arm.2.1.current? name with
          | some id => exact hknown.later.hoisted id (harms arm harm name id hid).hoisted
          | none => exact (hknown.sound.table name before hknown.current).hoisted
        refine ⟨assignId (s₁.nextId name) (.name (own arm.2.1)) :: code, ?_, ?_⟩
        · rw [hcode]
          simp [merge, hterm]
        · refine .cons hknown.later hwritten hlater (harms arm harm) hown ?_ hcurrent hmerges
          intro id hid
          show (arm.2.1.current? name).getD before = id
          rw [hid]
          rfl

end Merging

/-! ## Arms -/

section Arms

variable {setting : Setting} {host : Host} {s s₁ s₂ : State}

theorem Mirrors.mono {t : State} {run : Env → Run (Flow × Env)} {code : List Stmt}
    (h : Mirrors s₁ s₂ run code) (hs : Extends s s₁) (hnames : s₁.names = s.names)
    (ht : Extends s₂ t) (htable : t.names = s₂.names) : Mirrors s t run code := by
  intro e store hm hdeclares m x m₁ hx
  have hm₁ : Matches s₁ e store := hm.imp fun name id hid => by rw [hnames, hid]
  have hreach := h hm₁ (hdeclares.of_extends ht) hx
  obtain ⟨f, e₁⟩ := x
  cases hreach with
  | next hrun he hspares =>
    refine .next hrun (he.imp fun name id hid => ?_) (hspares.mono hs)
    rw [htable, hid]
  | returned hrun => exact .returned hrun

/-- The code of a branch before names are merged: it does what the body does, and leads to the
    branch's own table. -/
structure ArmMirrors (host : Host) (s s' : State) (body : List Node)
    (arm : List Stmt × NameTable × Bool) : Prop where
  terminates : arm.2.2 = terminates (body.map compile)
  issued : TableIssued s' arm.2.1
  mirrors : ∀ j, Mirrors s { s' with names := arm.2.1 } (bodyRun host body j) arm.1

theorem emits_runBranches {bodies : List (List Node)}
    (hbodies : ∀ b ∈ bodies, Compiles setting (statements (b.map compile)) (bodyRun host b)) (hs : Sound s) :
    ∃ arms s', Emits setting
        (runBranches s.names (bodies.map fun b => branch false (b.map compile))) s arms s' ∧
      s'.names = s.names ∧ Sound s' ∧ Extends s s' ∧ Forall₂ (ArmMirrors host s s') bodies arms := by
  induction bodies generalizing s with
  | nil => exact ⟨[], s, emits_pure [], rfl, hs, .refl s, .nil⟩
  | cons b bodies ih =>
    rw [forall_mem_cons] at hbodies
    obtain ⟨code, s₁, hcode, hs₁, hlater₁, hmirrors⟩ := hbodies.1 hs
    let s₂ : State := { s₁ with names := s.names }
    have hlater₂ : Extends s s₂ := ⟨hlater₁.count, hlater₁.hoisted⟩
    have hs₂ : Sound s₂ := ⟨hs₁.frame, fun name id hid => hlater₂.issued (hs.table name id hid)⟩
    obtain ⟨arms, s', harms, hnames, hs', hlater, hrest⟩ := ih hbodies.2 hs₂
    have hlater₁' : Extends s₁ s' := ⟨hlater.count, hlater.hoisted⟩
    refine ⟨(code, s₁.names, terminates (b.map compile)) :: arms, s', ?_, hnames, hs',
      hlater₂.trans hlater, .cons ⟨rfl, ?_, fun j => ?_⟩ ?_⟩
    · refine (emits_modify _).bind (Emits.bind hcode ?_)
      exact emits_get.bind ((emits_modify _).bind (Emits.bind harms (emits_pure _)))
    · exact fun name id hid => hlater₁'.issued (hs₁.table name id hid)
    · exact (hmirrors j).mono (.refl s) rfl ⟨hlater₁'.count, hlater₁'.hoisted⟩ rfl
    · refine hrest.imp fun body arm h => ⟨h.terminates, h.issued, fun j => ?_⟩
      exact (h.mirrors j).mono hlater₂ rfl (.refl _) rfl

theorem not_gives_next_of_terminates {body : List Node} {j : Nat} {e e' : Env} {m m' : Machine}
    (hterm : terminates (body.map compile) = true) : ¬ Gives (bodyRun host body j e) m (.next, e') m' := by
  intro hgives
  rcases eq_nil_or_concat' body with rfl | ⟨front, last, rfl⟩
  · cases hterm
  · rw [terminates, map_append, map_singleton, getLast?_concat] at hterm
    dsimp only at hterm
    rw [compile_node, beq_iff_eq] at hterm
    unfold bodyRun at hgives
    rw [block_append] at hgives
    obtain ⟨⟨f, e₁⟩, m₁, -, hrest⟩ := hgives.bind_inv
    cases f with
    | returned v =>
      obtain ⟨h, -⟩ := gives_pure_inv hrest
      cases h
    | next =>
      dsimp only at hrest
      rw [block_singleton] at hrest
      obtain ⟨j', rfl, hexec⟩ := exec_upTo_inv hrest
      obtain ⟨i, span, k⟩ := last
      cases k <;> cases hterm
      obtain ⟨w, m₂, -, hpure⟩ := hexec.bind_inv
      obtain ⟨h, -⟩ := gives_pure_inv hpure
      cases h

/-- With the merged ids, the code of a branch leads to the table after all branches. A name that is
    not merged has the same id in the table of the branch as in the one before. -/
theorem ArmMerged.mirrors {s' : State} {body : List Node} {arm arm' : List Stmt × NameTable × Bool}
    (h : ArmMerged s₁ s' names arm arm') (harm : ArmMirrors host s s₁ body arm) (hs : Extends s s₁)
    (hs₁ : Extends s₁ s')
    (hkept : ∀ name id, name ∉ names → arm.2.1.current? name = some id → s'.names.current? name = some id)
    (j : Nat) : Mirrors s s' (bodyRun host body j) arm'.1 := by
  intro e store hm hdeclares m x m₁ hx
  have hreach := harm.mirrors j hm (fun id hid => hdeclares id (hs₁.hoisted id hid)) hx
  obtain ⟨f, e₁⟩ := x
  cases hterm : arm.2.2 with
  | true =>
    rw [h.returns hterm]
    cases hreach with
    | next =>
      rw [harm.terminates] at hterm
      exact absurd hx (not_gives_next_of_terminates hterm)
    | returned hrun => exact .returned hrun
  | false =>
    obtain ⟨code, hcode, hmerges⟩ := h.continues hterm
    rw [hcode]
    cases hreach with
    | returned hrun => exact .returned (execBody_append_returned hrun code)
    | @next store₁ _ hrun he hspares =>
      obtain ⟨store₂, hrun', hspares', hmerged⟩ := hmerges (hspares.declares hdeclares)
      refine .next ?_ ?_ (hspares.trans hs hspares')
      · rw [execBody_append_next hrun, hrun']
      · intro name v hv
        obtain ⟨d, id, rfl, hid, hd⟩ := he name v hv
        by_cases hname : name ∈ names
        · obtain ⟨merged, hcurrent, hvalue⟩ := hmerged name hname id hid
          exact ⟨d, merged, rfl, hcurrent, hvalue.trans hd⟩
        · refine ⟨d, id, rfl, hkept name id hname hid, ?_⟩
          rw [hspares'.value name id (harm.issued name id hid), hd]

end Arms

/-! ## The names to merge -/

theorem mem_insertName {other : String} : other ∈ insertName name names ↔ other = name ∨ other ∈ names := by
  induction names with
  | nil => simp [insertName]
  | cons first rest ih =>
    unfold insertName
    split
    · rename_i heq
      simp [heq]
    · split
      · simp
      · simp [ih, or_left_comm]

theorem mem_foldl_insertName {other : String} {sorted : List String} :
    other ∈ names.foldl (fun names name => insertName name names) sorted ↔ other ∈ names ∨ other ∈ sorted := by
  induction names generalizing sorted with
  | nil => simp
  | cons name names ih => simp [ih, mem_insertName, or_assoc, or_left_comm]

theorem NameTable.mem_keys {id : String} (h : t.current? name = some id) : name ∈ t.versions.map Prod.fst := by
  unfold NameTable.current? at h
  obtain ⟨ids, hids, -⟩ := Option.bind_eq_some_iff.mp h
  exact Dict.contains_iff.mp (Option.isSome_of_eq_some hids)

theorem NameTable.current?_of_not_modified {base : NameTable} {id : String}
    (h : name ∉ t.modifiedSince base) (hid : t.current? name = some id) : base.current? name = some id := by
  by_contra hne
  refine h (mem_filter.mpr ⟨mem_keys hid, ?_⟩)
  rw [hid, bne_iff_ne]
  exact Ne.symm hne

theorem NameTable.exists_of_modified {base : NameTable} (h : name ∈ t.modifiedSince base) :
    ∃ id, t.current? name = some id ∨ base.current? name = some id := by
  obtain ⟨-, hne⟩ := mem_filter.mp h
  rw [bne_iff_ne] at hne
  cases ht : t.current? name with
  | some id => exact ⟨id, .inl rfl⟩
  | none =>
    rw [ht] at hne
    obtain ⟨id, hid⟩ := Option.ne_none_iff_exists'.mp (Ne.symm hne)
    exact ⟨id, .inr hid⟩

/-! ## Branches -/

section Branches

variable {setting : Setting} {host : Host} {s : State}

theorem emits_branchSet {t f : List Node} (ht : Compiles setting (statements (t.map compile)) (bodyRun host t))
    (hf : Compiles setting (statements (f.map compile)) (bodyRun host f)) (hs : Sound s) :
    ∃ yes no s', Emits setting
        (branchSet [branch false (t.map compile), branch false (f.map compile)]) s [yes, no] s' ∧
      Sound s' ∧ Extends s s' ∧ (∀ j, Mirrors s s' (bodyRun host t j) yes) ∧
      ∀ j, Mirrors s s' (bodyRun host f j) no := by
  have hbodies : ∀ b ∈ [t, f],
      Compiles setting (statements (b.map compile)) (bodyRun host b) := by simp [ht, hf]
  obtain ⟨arms, s₁, hruns, hnames, hs₁, hlater₁, harms⟩ := emits_runBranches hbodies hs
  let modified := (arms.flatMap fun arm => arm.2.1.modifiedSince s.names).foldl
    (fun names name => insertName name names) []
  have hmodified {name : String} : name ∈ modified ↔
      ∃ arm ∈ arms, name ∈ arm.2.1.modifiedSince s.names := by
    unfold modified
    rw [mem_foldl_insertName, mem_flatMap]
    simp
  have hissued : ∀ arm ∈ arms, TableIssued s₁ arm.2.1 := by
    intro arm harm
    obtain ⟨b, -, h⟩ := Kind.exists_of_mem_right harms harm
    exact h.issued
  have hundecorated : ∀ name ∈ modified, Undecorated name := by
    intro name hname
    obtain ⟨arm, harm, hmem⟩ := hmodified.mp hname
    obtain ⟨id, hid | hid⟩ := NameTable.exists_of_modified hmem
    · exact (hissued arm harm name id hid).undecorated
    · exact (hs.table name id hid).undecorated
  obtain ⟨arms', s', hmerge, hs', hlater, hcurrent, hmerged⟩ := emits_merge setting hs₁ hundecorated hissued
  have hkept : ∀ arm ∈ arms, ∀ name id, name ∉ modified → arm.2.1.current? name = some id →
      s'.names.current? name = some id := by
    intro arm harm name id hname hid
    rw [hcurrent name hname, hnames]
    exact NameTable.current?_of_not_modified (fun h => hname (hmodified.mpr ⟨arm, harm, h⟩)) hid
  have hemits : Emits setting (branchSet [branch false (t.map compile), branch false (f.map compile)])
      s (arms'.map Prod.fst) s' :=
    emits_get.bind (Emits.bind hruns (Emits.bind hmerge (emits_pure _)))
  rcases harms with _ | ⟨hyes, _ | ⟨hno, _ | _⟩⟩
  rcases hmerged with _ | ⟨hyes', _ | ⟨hno', _ | _⟩⟩
  refine ⟨_, _, s', hemits, hs', hlater₁.trans hlater, ?_, ?_⟩
  · exact hyes'.mirrors hyes hlater₁ hlater (hkept _ (by simp))
  · exact hno'.mirrors hno hlater₁ hlater (hkept _ (by simp))

theorem compiles_branch {i : Nat} {span : Span} {c : Node} {t f : List Node}
    (hhost : Apart setting.options host) (hc : PlainExpr setting.options c)
    (ht : Compiles setting (statements (t.map compile)) (bodyRun host t))
    (hf : Compiles setting (statements (f.map compile)) (bodyRun host f)) :
    Compiles setting (compile ⟨i, span, .branch c t f⟩).stmt (stmtRun host ⟨i, span, .branch c t f⟩) := by
  intro s hs
  obtain ⟨test, s₁, htest, hs₁, hlater₁, hkeeps, houtcome⟩ := emits_condition hhost hs hc
  obtain ⟨yes, no, s', harms, hs', hlater, hyes, hno⟩ := emits_branchSet ht hf hs₁
  refine ⟨[.branch [(test, yes)] no], s', ?_, hs', hlater₁.trans hlater, ?_⟩
  · rw [compile_stmt]
    exact htest.bind (Emits.bind harms (emits_pure _))
  intro j e store hm hdeclares m x m₁ hx
  obtain ⟨j', rfl, hexec⟩ := exec_upTo_inv hx
  obtain ⟨v, m₂, hv, hrest⟩ := hexec.bind_inv
  have htaken := houtcome hm hv
  have hm₁ : Matches s₁ e store := hm.imp hkeeps
  -- The test decides as the condition does, so both go on with the same branch.
  cases htruth : v.isTruthy with
  | true =>
    rw [htruth] at htaken hrest
    have hbranch : execBody store [.branch [(test, yes)] no] = execBody store yes := by
      rw [execBody_singleton, Stmt.exec, execArms, htaken]
    exact ((hyes j' hm₁ hdeclares hrest).of_execBody_eq hbranch).mono hlater₁
  | false =>
    rw [htruth] at htaken hrest
    have hbranch : execBody store [.branch [(test, yes)] no] = execBody store no := by
      rw [execBody_singleton, Stmt.exec, execArms, htaken]
      rfl
    exact ((hno j' hm₁ hdeclares hrest).of_execBody_eq hbranch).mono hlater₁

theorem compiles_stmt {n : Node} (hhost : Apart setting.options host)
    (hn : PlainStmt setting.options n) : Compiles setting (compile n).stmt (stmtRun host n) := by
  induction hn with
  | declare _ ih => exact compiles_declare ih
  | assign hname hv => exact compiles_assign hhost hname hv
  | branch hc _ _ iht ihf => exact compiles_branch hhost hc (compiles_body iht) (compiles_body ihf)
  | ret hv => exact compiles_ret hhost hv

end Branches

/-! ## Modules -/

/-- The statements of the function that is the module. -/
def moduleBody? : Expr → Option (List Stmt)
  | .paren (.function false ["$r"] body) =>
    match body.getLast? with
    | some (.ret (.function false ["$c", "$x"] code)) => some code
    | _ => none
  | _ => none

theorem exists_declared {s : State} (hs : Sound s) (code : List Stmt) :
    ∃ store, Declares s store ∧ execBody [] ((s.frames.head?.getD {}).wrap code) = execBody store code := by
  obtain ⟨f, hframes, -, hresult⟩ := hs.frame
  have hhoisted : s.hoisted = f.hoisted := by rw [State.hoisted, hframes]; rfl
  rw [hframes]
  show ∃ store, Declares s store ∧ execBody [] (f.wrap code) = execBody store code
  unfold Frame.wrap
  rw [hresult]
  simp only [Bool.false_eq_true, if_false, append_nil]
  cases hids : f.hoisted with
  | nil =>
    refine ⟨[], fun id hid => ?_, rfl⟩
    rw [hhoisted, hids] at hid
    cases hid
  | cons id ids =>
    refine ⟨Dict.setAll ((id :: ids).map fun id => (id, .nothing)) [], fun other hother => ?_, ?_⟩
    · rw [hhoisted, hids] at hother
      refine Dict.contains_iff.mpr (Dict.mem_keys_setAll.mpr (.inl ?_))
      simpa using hother
    · refine execBody_append_next ?_ code
      rw [isEmpty_cons, if_neg Bool.false_ne_true, execBody_singleton, Stmt.exec]

/-- Generation succeeds for modules of plain statements, and what the generated body returns is what a
    run of the module gives. -/
theorem result_generated (options : Options) (annotations : Annotations) (host : Host)
    (root : Node) {body : List Node} (hroot : root.kind = .module body)
    (hhost : Apart options host) (hbody : ∀ n ∈ body, PlainStmt options n) : ∃ program imports s code,
      ((Emit.program root).run { options, annotations }).run {} = .ok ((program, imports), s) ∧
      generate options annotations root = .ok { text := program.text options.indent, imports } ∧
      moduleBody? program = some code ∧ ∀ fuel m v m', Gives (Eval.run host fuel root) m v m' →
        ∃ d, v = .data d ∧ Script.result? code = some d := by
  obtain ⟨i, span, k⟩ := root
  cases hroot
  let setting : Setting := { options, annotations }
  let s₀ : State := { frames := [{}] }
  have hs₀ : Sound s₀ := ⟨⟨{}, rfl, rfl, rfl⟩, fun name id hid => by cases hid⟩
  have hstmts : ∀ n ∈ body, Compiles setting (compile n).stmt (stmtRun host n) :=
    fun n hn => compiles_stmt hhost (hbody n hn)
  obtain ⟨code, s, hcode, hs, -, hmirrors⟩ := compiles_body hstmts hs₀
  let frame := s.frames.head?.getD {}
  let s' : State := { s with names := {}, frames := s.frames.tail }
  have hframe : Emits setting (inFrame {} (statements (body.map compile))) {} (code, frame) s' :=
    emits_inFrame hcode
  let strict := if options.strictMode then [Stmt.directive "use strict"] else []
  let main := Expr.function false ["$c", "$x"] (frame.wrap code)
  let program := Expr.paren (.function false ["$r"] (strict ++ s.constants.declarations ++ [.ret main]))
  have hprogram : Emits setting (Emit.program ⟨i, span, .module body⟩) {}
      (program, s.constants.imports) s' :=
    Emits.bind hframe (emits_get.bind (emits_read.bind (emits_pure _)))
  refine ⟨program, s.constants.imports, s', frame.wrap code, hprogram, ?_, ?_, ?_⟩
  · unfold generate
    rw [hprogram]
    rfl
  · simp only [program, moduleBody?, getLast?_concat]
    rfl
  intro fuel m v m' hv
  obtain ⟨⟨f, e⟩, m₁, hblock, hrest⟩ := hv.bind_inv
  obtain ⟨store, hdeclares, hwrap⟩ := exists_declared hs code
  have hmatches : Matches s₀ [] store := fun name v hv => by cases hv
  have hreach := hmirrors fuel hmatches hdeclares hblock
  unfold Script.result?
  cases hreach with
  | next hrun =>
    obtain ⟨rfl, -⟩ := gives_pure_inv hrest
    refine ⟨.nothing, rfl, ?_⟩
    rw [hwrap, hrun]
  | @returned d _ hrun =>
    obtain ⟨rfl, -⟩ := gives_pure_inv hrest
    refine ⟨d, rfl, ?_⟩
    rw [hwrap, hrun]

/-! ### A module whose branches write different names -/

def branchingBody : List Node :=
  let text (s : String) : Node := .ofKind (.literal (.string s))
  let name (s : String) : Node := .ofKind (.ident s)
  let write (x : String) (v : Node) : Node := .ofKind (.assign (.name x) v)
  [ .ofKind (.declare [write "flag" (.ofKind (.literal (.bool true))), write "x" (text "a")]),
    .ofKind (.branch (name "flag")
      [.ofKind (.branch (name "x") [write "y" (name "x"), write "x" (text "b")]
        [.ofKind (.ret (text "early"))])] []),
    .ofKind (.branch (name "y") [write "flag" (name "x")] [write "x" (text "c")]),
    .ofKind (.ret (name "flag"))]

theorem branchingBody_plain : ∀ n ∈ branchingBody, PlainStmt {} n := by
  have hflag : OwnName {} "flag" := by decide
  have hx : OwnName {} "x" := by decide
  have hy : OwnName {} "y" := by decide
  have htext (t : String) (ht : t.length ≤ 32) :
      PlainExpr {} (.ofKind (.literal (.string t))) := .literal ht
  have hnone : ∀ n ∈ ([] : List Node), PlainStmt {} n := by simp
  have hinner : PlainStmt {} (.ofKind (.branch (.ofKind (.ident "x"))
      [.ofKind (.assign (.name "y") (.ofKind (.ident "x"))),
        .ofKind (.assign (.name "x") (.ofKind (.literal (.string "b"))))]
      [.ofKind (.ret (.ofKind (.literal (.string "early"))))])) := by
    refine .branch (.ident hx) (forall_mem_cons.mpr ⟨.assign hy (.ident hx), ?_⟩) ?_
    · exact forall_mem_singleton.mpr (.assign hx (htext "b" (by decide)))
    · exact forall_mem_singleton.mpr (.ret (htext "early" (by decide)))
  unfold branchingBody
  rw [forall_mem_cons, forall_mem_cons, forall_mem_cons, forall_mem_singleton]
  refine ⟨.declare ?_, .branch (.ident hflag) ?_ hnone, .branch (.ident hy) ?_ ?_,
    .ret (.ident hflag)⟩
  · refine forall_mem_cons.mpr ⟨.assign hflag (.literal rfl), ?_⟩
    exact forall_mem_singleton.mpr (.assign hx (htext "a" (by decide)))
  · exact forall_mem_singleton.mpr hinner
  · exact forall_mem_singleton.mpr (.assign hflag (.ident hx))
  · exact forall_mem_singleton.mpr (.assign hx (htext "c" (by decide)))

theorem branchingBody_value :
    Gives (Eval.run (bareHost {}) 4 (.ofKind (.module branchingBody))) {} (.data (.string "b")) {} := rfl

theorem result_generated_branching :
    ∃ program imports s code,
      ((Emit.program (.ofKind (.module branchingBody))).run { options := {}, annotations := {} }).run
        {} = .ok ((program, imports), s) ∧
      moduleBody? program = some code ∧ Script.result? code = some (.string "b") := by
  have hhost : Apart {} (bareHost {}) := fun _ _ => rfl
  obtain ⟨program, imports, s, code, hrun, -, hcode, hresult⟩ :=
    result_generated {} {} (bareHost {}) (.ofKind (.module branchingBody)) rfl hhost branchingBody_plain
  obtain ⟨d, hd, hvalue⟩ := hresult 4 {} _ {} branchingBody_value
  cases hd
  exact ⟨program, imports, s, code, hrun, hcode, hvalue⟩

end Motif.Emit
