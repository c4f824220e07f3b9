import Motif.Proofs.Emit.Statements

/-!
# Generated code uses declared ids

At every point of code generation the ids in the table of names are declared by the functions around, and
no function declares an id twice (`State.Covered`). To speak of every point, the generator is watched: a
look at the state, which may do anything, is put before and after the code of every node in every
position. Looks that do nothing in covered states leave the program as it is, so all states looked at are
covered. The program then uses no id of a name that is not declared, and every temporary is declared by
the function in which it is used.
-/

namespace Motif.Emit

open Script IdAllocator Constants List
open Pattern (tested? ends openContexts openContexts_child opens_iff)

/-! ## Watching -/

/-- A step with a look at the state before and after it. -/
def watch {α : Type} (look : Emit Unit) (step : Emit α) : Emit α := do
  look
  let a ← step
  look
  return a

def Compiled.watched (look : Emit Unit) (c : Compiled) : Compiled where
  node := c.node
  expr := watch look c.expr
  stmt := watch look c.stmt
  effect := watch look c.effect
  value := watch look c.value
  resultStmt := watch look c.resultStmt
  test l subject := watch look (c.test l subject)
  patternTest subject := watch look (c.patternTest subject)
  entry := watch look c.entry
  element collection position := watch look (c.element collection position)
  range := watch look c.range
  accumulator := watch look c.accumulator
  clauseTest subject := watch look (c.clauseTest subject)
  clauseBranch keepResult :=
    { c.clauseBranch keepResult with code := watch look (c.clauseBranch keepResult).code }

/-- The compiler with such a look at every step. -/
def compileWatched (look : Emit Unit) : Node → Compiled := Node.fold fun n k => (compileNode n k).watched look

theorem compileWatched_eq (look : Emit Unit) (n : Node) :
    compileWatched look n = (compileNode n (n.kind.map (compileWatched look))).watched look :=
  Node.fold_eq _ n

theorem programBy_compile (root : Node) : programBy compile root = program root := rfl

section Watching

variable {p : Premises} {s : State} {look : Emit Unit} {path : Path} {inner : Prop}

def Premises.Idle (p : Premises) (look : Emit Unit) : Prop := ∀ s, p.Holds s → Emits p.otherSetting look s () s

theorem Premises.Does.watched {α : Type} {P : List Frame → α → Prop} {k : Nat} {x y : Emit α}
    (h : p.Does k P s x y) (hlook : p.Idle look) : p.Does k P s (watch look x) y := by
  intro hs
  obtain ⟨heq, hpost⟩ := h hs
  refine ⟨?_, hpost⟩
  have hbefore : ((watch look x).run p.otherSetting).run s =
      ((do let a ← x; look; return a : Emit α).run p.otherSetting).run s := by
    rw [watch, ReaderT.run_bind, StateT.run_bind, hlook s hs]
    rfl
  rw [hbefore, ReaderT.run_bind, StateT.run_bind, heq]
  cases hrun : (y.run p.setting).run s with
  | error e => rfl
  | ok result =>
    obtain ⟨a, s'⟩ := result
    rw [hrun] at hpost
    have hblock (hin : p.inBlock) : generating s'.frames = true :=
      hpost.2.1.grows.generating_eq.trans (hs.block hin)
    have hafter := hlook s' ⟨hpost.1, hblock⟩
    change ((do look; return a : Emit α).run p.otherSetting).run s' = _
    rw [ReaderT.run_bind, StateT.run_bind, hafter]
    rfl

theorem Premises.Makes.watched {c' c : Compiled} (h : p.Makes c' c) (hlook : p.Idle look) :
    p.Makes (c'.watched look) c where
  node := h.node
  named := h.named
  expr s := (h.expr s).watched hlook
  stmt s := (h.stmt s).watched hlook
  effect s := (h.effect s).watched hlook
  value s := (h.value s).watched hlook
  resultStmt s := (h.resultStmt s).watched hlook
  test l subject s hsubject := (h.test l subject s hsubject).watched hlook
  patternTest htag subject s hsubject := (h.patternTest htag subject s hsubject).watched hlook
  entry s := (h.entry s).watched hlook
  element collection position s hid := (h.element collection position s hid).watched hlook
  range s := (h.range s).watched hlook
  accumulator s := (h.accumulator s).watched hlook
  clauseTest subject s hsubject := (h.clauseTest subject s hsubject).watched hlook
  clauseBranch keepResult := ⟨(h.clauseBranch keepResult).terminates,
    fun s => ((h.clauseBranch keepResult).code s).watched hlook⟩

/-! ## Whole trees -/

theorem mem_tested_or_untested {n c : Node} (hc : c ∈ n.children) : c ∈ tested? n ∨ c ∈ untested n := by
  obtain ⟨i, span, k⟩ := n
  cases k with
  | pattern template => exact .inl (mem_singleton.mp hc ▸ rfl)
  | element key template =>
    rcases mem_append.mp hc with hc | hc
    · exact .inr hc
    · exact .inl (mem_singleton.mp hc ▸ rfl)
  | _ => exact .inr hc

theorem Premises.Grants.child {n c : Node} (h : p.Grants n path) (hc : c ∈ n.children) :
    (p.below n).Grants c (n.frame :: path) where
  named hplain := (h.named hplain).child hc
  ready hready := (h.ready hready).child hc
  blocks hblocks := (Node.inBlocks_iff.mp (h.blocks hblocks)).2 c hc
  reads := h.reads.child hc
  bound hbound := (h.bound hbound).child hc
  pending hbound id hid l hl := by
    have hn := (h.bound hbound).here
    by_cases hend : n.tag ∈ ends
    · rcases mem_tested_or_untested hc with htested | huntested
      · have hopens := (opens_iff c).mpr (ne_nil_of_mem hid)
        exact .inr ⟨l, hn.reads c htested id hid ▸ hl, rfl, c, htested, hopens⟩
      · rw [hn.closed hend c huntested] at hid
        cases hid
    · exact .inl (h.pending hbound id (openContexts_child hend hc hid) l hl)

theorem Enters.inBlock {outer : Prop} {n : Node} (henters : Enters outer n.tag inner)
    (houter : path.InBlock → outer) (h : Path.InBlock (n.frame :: path)) : inner := by
  rw [Path.inBlock_cons] at h
  cases henters with
  | same hblock => exact houter (h.resolve_left hblock).2
  | barrier hbarrier =>
    rcases h with hblock | h
    · exact absurd hblock (barrier_not_block hbarrier)
    · exact absurd hbarrier h.1
  | block => trivial

/-- A tree is compiled alike if some of its nodes are watched, by a look that does nothing there. A block
    around a node means that the innermost function is a generator. -/
theorem makes_compile (look : Emit Unit) (watched : Node → Prop) {f : Node → Compiled}
    (hf : ∀ n, f n = compileNode n (n.kind.map f) ∨
      watched n ∧ f n = (compileNode n (n.kind.map f)).watched look)
    (hlook : ∀ n inner, watched n → (p.blocks → n.tag ∈ yieldTags → inner) → (p.within inner).Idle look)
    (n : Node) (hn : p.Grants n path) (hinner : path.InBlock → inner) :
    (p.within inner).Makes (f n) (compile n) := by
  induction n using Node.ind generalizing p path inner with
  | step n ih =>
    have hyield (hblocks : p.blocks) (htag : n.tag ∈ yieldTags) : inner :=
      hinner ((Node.inBlocks_iff.mp (hn.blocks hblocks)).1 htag)
    have hnode : (p.within inner).Makes (compileNode n (n.kind.map f)) (compile n) := by
      rw [compile_eq]
      have hlayer : (p.within inner).Layer n (n.kind.map f) (n.kind.map compile) :=
        layer_map ⟨hn.named, hn.ready, hn.blocks, hn.reads, hn.bound, hn.pending⟩ hyield fun c hc _ henters =>
          ih (p := p.below n) c hc (fun m inner hm hyield s hs =>
            hlook m inner hm hyield s ⟨hs.tidy, hs.block⟩)
            (hn.child hc) (henters.inBlock hinner)
      exact hlayer.makes
    rcases hf n with h | ⟨hwatched, h⟩
    · rw [h]
      exact hnode
    · rw [h]
      exact hnode.watched (hlook n inner hwatched hyield)

theorem makes_compile_self (n : Node) (hn : p.Grants n path) (hinner : path.InBlock → inner) :
    (p.within inner).Makes (compile n) (compile n) :=
  makes_compile (pure ()) (fun _ => False) (fun n => .inl (compile_eq n)) (fun _ _ h => h.elim) n hn hinner

theorem makes_compileWatched (hlook : ∀ inner, (p.within inner).Idle look) (n : Node) (hn : p.Grants n path)
    (hinner : path.InBlock → inner) : (p.within inner).Makes (compileWatched look n) (compile n) :=
  makes_compile look (fun _ => True) (fun n => .inr ⟨trivial, compileWatched_eq look n⟩)
    (fun _ inner _ _ => hlook inner) n hn hinner

/-! ## Modules -/

theorem tidy_start {plain : Prop} {setting : Setting} : Tidy plain setting { frames := [{}] } where
  inside := cons_ne_nil _ _
  stocked := ⟨nodup_nil, by simp⟩
  table := by simp [NameTable.Declared]
  distinct _ := by simp
  given _ := by simp

theorem transports_allows_outer (p : Premises) :
    Transports (fun a b => ∃ outer, b = a ++ outer) p.Allows p.Allows where
  push := by
    rintro a _ scope ⟨outer, rfl⟩
    exact ⟨outer, rfl⟩
  id := by
    rintro a _ id ⟨outer, rfl⟩ ⟨husable, hlocal⟩
    have houter (h : ∃ scope ∈ a, id ∈ scope) : ∃ scope ∈ a ++ outer, id ∈ scope := by
      obtain ⟨scope, hscope, hmem⟩ := h
      exact ⟨scope, mem_append_left _ hscope, hmem⟩
    refine ⟨fun hplain => ⟨fun hid => houter ((husable hplain).1 hid), fun n hn => ?_⟩, fun l hl hbound => ?_⟩
    · refine ((husable hplain).2 n hn).imp_left fun hhead => ?_
      cases a with
      | nil => cases hhead
      | cons scope a => exact hhead
    · exact (hlocal l hl hbound).imp_left houter

def enclose (setting : Setting) (constants : Constants) (code : List Stmt) (frame : Frame) : Expr :=
  .paren (.function false ["$r"] ((if setting.options.strictMode then [.directive "use strict"] else [])
    ++ constants.declarations ++ [.ret (.function false ["$c", "$x"] (frame.wrap code))]))

theorem run_programBy (setting : Setting) (f : Node → Compiled) (i : Nat) (span : Span)
    (body : List Node) : ((programBy f ⟨i, span, .module body⟩).run setting).run {} =
      (((inFrame {} (statements (body.map f))).run setting).run {}).bind fun r =>
        .ok ((enclose setting r.2.constants r.1.1 r.1.2, r.2.constants.imports), r.2) := rfl

theorem fits_enclose {code : List Stmt} {made : Frame} (hmade : made.params = [] ∧ made.isGenerator = false)
    (hcode : p.CodeFits [made] code) (constants : Constants) :
    (enclose p.setting constants code made).Fits p.Allows p.MayYield [] false := by
  have hmain : p.ExprFits [] (.function false ["$c", "$x"] (made.wrap code)) := by
    rw [← hmade.2]
    exact exprFits_function (by simp [hmade.1]) hcode
  refine bodyFits_iff.mpr (forall_mem_append.mpr ⟨fun stmt hstmt => ?_, ?_⟩)
  · simp only [Constants.declarations, mem_append, mem_map, mem_mapIdx] at hstmt
    rcases hstmt with hstmt | (⟨_, _, rfl⟩ | ⟨_, _, rfl⟩) | ⟨_, _, rfl⟩
    · split at hstmt
      · rw [mem_singleton.mp hstmt]
        trivial
      · cases hstmt
    all_goals trivial
  · refine forall_mem_singleton.mpr ?_
    exact fits_transport (transports_allows_outer p) (fun _ h => h) _ ⟨_, (nil_append _).symm⟩ hmain

theorem programBy_does (p : Premises) {f : Node → Compiled} {root : Node}
    (h : ∀ n ∈ root.children, (p.within False).Makes (f n) (compile n)) :
    ((programBy f root).run p.otherSetting).run {} = ((program root).run p.setting).run {} ∧
      match ((program root).run p.setting).run {} with
      | .ok ((e, _), s) => e.Fits p.Allows p.MayYield [] false ∧ s.constants.Stocked p.setting
      | .error e => p.ready → root.tag = .module → ∃ tag position, e = .unexpected tag position := by
  obtain ⟨i, span, k⟩ := root
  cases k with
  | module body =>
    have hbody : Forall₂ (p.within False).Makes (body.map f) (body.map compile) := by
      rw [forall₂_map_left_iff, forall₂_map_right_iff]
      exact forall₂_same.mpr h
    have hstart : ({} : State).names.derive = {} := rfl
    have hstatements := (does_statements hbody { frames := [{}] }).params
    obtain ⟨heq, hpost⟩ := hstatements ⟨tidy_start, False.elim⟩
    change ((statements (body.map f)).run p.otherSetting).run _ =
      ((statements (body.map compile)).run p.setting).run _ at heq
    dsimp only [Premises.within] at hpost
    rw [← programBy_compile, run_programBy, run_programBy, run_inFrame, run_inFrame, hstart, heq]
    cases hrun : ((statements (body.map compile)).run p.setting).run { frames := [{}] } with
    | error e =>
      rw [hrun] at hpost
      exact ⟨rfl, fun hready _ => hpost hready⟩
    | ok result =>
      obtain ⟨code, s₁⟩ := result
      rw [hrun] at hpost
      obtain ⟨hs₁, hlater, hparams, hcode⟩ := hpost
      obtain ⟨made, outer, hframes⟩ := hs₁.exists_frame
      have hgenerators := hlater.generators
      rw [hframes] at hparams hcode hgenerators
      obtain ⟨hgenerator, houter⟩ := List.cons.inj hgenerators
      obtain rfl := map_eq_nil_iff.mp houter
      refine ⟨rfl, ?_⟩
      change (enclose p.setting s₁.constants code (s₁.frames.head?.getD {})).Fits _ _ _ _ ∧ _
      rw [hframes]
      exact ⟨fits_enclose ⟨hparams, hgenerator⟩ hcode _, hs₁.stocked⟩
  | _ => exact ⟨rfl, fun _ htag => by cases htag⟩

end Watching

/-! ## Names alone -/

/-- Nothing is asked of yields, of the locals of patterns or of where code stands, and of names only if
    they are to be plain. -/
def namesOnly (plain : Prop) (setting : Setting) : Premises :=
  { setting, plain, blocks := False, ready := False, inBlock := False }

theorem namesOnly_grants {plain : Prop} {setting : Setting} {n : Node} (hn : plain → n.Everywhere WellNamed)
    (path : Path) : (namesOnly plain setting).Grants n path :=
  ⟨hn, False.elim, False.elim, fun _ _ _ _ => trivial, False.elim, False.elim⟩

theorem namesOnly_allows {plain : Prop} {setting : Setting} :
    (namesOnly plain setting).Allows = Usable plain setting := by
  funext scopes id
  exact propext (and_iff_left fun _ _ => False.elim)

/-! ## Every point of code generation -/

/-- The ids in the table of names are declared, as ids to declare or as parameters, by the functions
    around, and within a function the ids to declare are distinct and none of them is a parameter. -/
structure State.Covered (s : State) : Prop where
  declared : ∀ entry ∈ s.names.versions, ∀ id ∈ entry.2, ∃ f ∈ s.frames, id ∈ f.hoisted ∨ id ∈ f.params
  distinct : ∀ f ∈ s.frames, f.hoisted.Nodup ∧ ∀ id ∈ f.hoisted, id ∉ f.params

theorem Tidy.covered {setting : Setting} {s : State} (h : Tidy True setting s) : s.Covered where
  declared entry hentry id hid := by
    obtain ⟨-, scope, hscope, hmem⟩ := (h.table entry hentry).2 id hid
    obtain ⟨f, hf, rfl⟩ := mem_map.mp hscope
    exact ⟨f, hf, mem_append.mp hmem⟩
  distinct f hf := by
    obtain ⟨hhoisted, -, hdisjoint⟩ := nodup_append.mp (h.distinct trivial f hf)
    exact ⟨hhoisted, fun id hid hparam => hdisjoint id hid id hparam rfl⟩

/-- Where the names of a tree are plain, all states of code generation are covered: a look at the state
    before and after the code of every node changes nothing if it does nothing in covered states. The code
    of every node, in whatever position it is asked for, leaves a tidy state if it is begun in one, and uses
    ids that may be used there. The code of the program uses no id of a name that no
    function around declares, and no temporary that the function it is used in does not declare. -/
theorem covered_throughout (setting : Setting) (root : Node) (hroot : root.Everywhere WellNamed) :
    (∀ look : Emit Unit, (∀ s : State, s.Covered → Emits setting look s () s) →
      ((programBy (compileWatched look) root).run setting).run {} = ((program root).run setting).run {}) ∧
      (∀ n ∈ root.preorder, (namesOnly True setting).Makes (compile n) (compile n)) ∧
      ∀ e imports s, Emits setting (program root) {} (e, imports) s → e.Respects (Usable True setting) [] := by
  have hgrants (n : Node) (hn : n ∈ root.children) (path : Path) : (namesOnly True setting).Grants n path :=
    namesOnly_grants (fun _ => hroot.child hn) path
  refine ⟨fun look hlook => ?_, fun n hn => ?_, fun e imports s hrun => ?_⟩
  · refine (programBy_does (namesOnly True setting) fun n hn => ?_).1
    refine makes_compileWatched (fun inner s hs => ?_) n (hgrants n hn []) nofun
    exact hlook s (Tidy.covered hs.tidy)
  · exact makes_compile_self n (namesOnly_grants (fun _ => hroot.everywhere n hn) []) nofun
  · have hfits := (programBy_does (namesOnly True setting) fun n hn =>
      makes_compile_self n (hgrants n hn []) nofun).2
    rw [namesOnly_allows] at hfits
    dsimp only [namesOnly] at hfits
    rw [hrun] at hfits
    exact hfits.1.respects

/-! ### A module that declares ids in several functions -/

/-- A name that is written before a branch, in one arm of it and in a function, a reduction in the place
    of an expression, and a test that needs a temporary. -/
def versionsModule : Node :=
  let num (x : Float) : Node := .ofKind (.literal (.number x))
  let name (s : String) : Node := .ofKind (.ident s)
  let write (x : String) (v : Node) : Node := .ofKind (.assign (.name x) v)
  let total : Node := .ofKind (.reduce [write "total" (num 0)]
    [.ofKind (.range (.name "n") (name "rest") none)]
    [write "total" (.ofKind (.binary .add (name "total") (name "n")))])
  .ofKind (.module [
    write "n" (num 1),
    .ofKind (.function "sum" [.ofKind (.param "n" none false), .ofKind (.param "rest" none true)] none
      [.ofKind (.branch (name "n") [write "n" (num 2)] []),
        .ofKind (.ret (.ofKind (.binary .add (name "n") total)))]),
    .ofKind (.ret (.ofKind (.disj (name "n") (.ofKind (.call (name "sum") [name "n"])))))])

theorem covered_throughout_versions : versionsModule.Everywhere WellNamed ∧
      (∀ look : Emit Unit, (∀ s : State, s.Covered → Emits ⟨{}, {}⟩ look s () s) →
        ((programBy (compileWatched look) versionsModule).run ⟨{}, {}⟩).run {} =
          ((program versionsModule).run ⟨{}, {}⟩).run {}) ∧
      ∃ e imports s, Emits ⟨{}, {}⟩ (program versionsModule) {} (e, imports) s ∧
        e.Respects (Usable True ⟨{}, {}⟩) [] := by
  have hnames : versionsModule.Everywhere WellNamed := by decide
  obtain ⟨hlook, -, hcode⟩ := covered_throughout ⟨{}, {}⟩ versionsModule hnames
  have hok : (((program versionsModule).run ⟨{}, {}⟩).run {}).isOk = true := by decide +kernel
  refine ⟨hnames, hlook, ?_⟩
  cases hrun : ((program versionsModule).run ⟨{}, {}⟩).run {} with
  | error e =>
    rw [hrun] at hok
    cases hok
  | ok result => exact ⟨_, _, _, hrun, hcode _ _ _ hrun⟩

end Motif.Emit
