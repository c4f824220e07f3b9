import Motif.Pass.Scope.Visitors
import Motif.Proofs.Pipeline.Passes
import Motif.Proofs.Visit

/-!
# Visitors that only look

The visitors of scopes do what the walk over scopes does, and what they make of a tree is the tree. A visitor
that takes children out of a node puts them all back, whatever the walk in between has met (`Mirrors`). The
marks that it leaves for the walk are used up before the next node is visited, so it does not matter which
nodes have which ids.
-/

namespace Motif

open List

variable {n : Node}

namespace Scope

open Visit (Walk Walker skip)

def walking (marks : List Nat) (t : State) : Visit.State Unit :=
  { session := t.session, own := (), walked := marks, aborted := t.aborted }

abbrev Mirrors {α : Type} (before after : List Nat) (x : Walk Unit α) (a : α) (y : Check Unit) : Prop :=
  Visit.Mirrors (fun s t => s = walking before t) (fun s t => s = walking after t) x a y

section Mirrors

variable {α β : Type} {before between after : List Nat} {n : Node} {path : Path} {w : Walker Unit}
  {x : Walk Unit α} {a : α} {y z : Check Unit}

theorem mirrors_pure (marks : List Nat) (a : α) : Mirrors marks marks (pure a) a (pure ()) :=
  Visit.mirrors_pure _ a

theorem mirrors_observe (marks : List Nat) (y : Check Unit) : Mirrors marks marks (observe y) () y :=
  ⟨fun _ => rfl, fun _ _ h => h ▸ rfl⟩

theorem mirrors_marked {x : Walk Unit Node} (hx : Mirrors [] [] x n y) :
    Mirrors [] [n.id] (do let n ← x; Visit.markWalked n.id; return n) n y := by
  have hmark : Mirrors [] [n.id] (do Visit.markWalked n.id; return n) n (pure ()) :=
    ⟨fun _ => rfl, fun _ _ h => h ▸ rfl⟩
  have hboth := hx.bind (f := fun n => do Visit.markWalked n.id; return n) hmark
  rwa [bind_pure_unit] at hboth

theorem mirrors_guarded {x : Walk Unit Node} (hx : Mirrors [] [] x n y) :
    Mirrors [] [] (do if ← Visit.isAborted then return n else x) n
      (do if (← get).aborted.isSome then pure () else y) where
  returns s := by
    show (StateT.run (if s.aborted.isSome then pure n else x : Walk Unit Node) s).1 = n
    split
    · rfl
    · exact hx.returns s
  acts s t hst := by
    subst hst
    show (StateT.run (if t.aborted.isSome then pure n else x : Walk Unit Node) _).2 =
      walking [] (StateT.run (if t.aborted.isSome then pure () else y : Check Unit) t).2
    split
    · rfl
    · exact hx.acts _ t rfl

/-! ## Children that are taken out -/

theorem mirrors_walkAt {index : Nat} {child : Node} {held : Kind Node}
    (hout : exchange n.kind index placeholder = (some child, held))
    (hback : { n with kind := (exchange held index child).2 } = n)
    (hwalk : Mirrors [] [] (w.walk child (n.frame :: path)) child y) :
    Mirrors [] [] (walkAt w index n path) n y := by
  have hreturn := hwalk.return fun c => ({ n with kind := (exchange held index c).2 } : Node)
  rw [hback] at hreturn
  unfold walkAt
  rw [hout]
  exact hreturn

theorem mirrors_walkUnlessName {index : Nat} {child : Node} {held : Kind Node}
    (hout : exchange n.kind index placeholder = (some child, held))
    (hback : { n with kind := (exchange held index child).2 } = n) (hchild : n.children[index]? = some child)
    (hwalk : Mirrors [] [] (w.walk child (n.frame :: path)) child y) :
    Mirrors [] [] (walkUnlessName w index n path) n (if child.isIdent then pure () else y) := by
  unfold walkUnlessName
  rw [hchild, Option.any_some]
  split
  · exact mirrors_pure [] n
  · exact mirrors_walkAt hout hback hwalk

/-! ## The walk -/

theorem mirrors_skip (h : Mirrors [] [] (w.descend n path) n y) : Mirrors [] [] (skip w n path) n y := by
  refine ⟨fun s => ?_, fun s t hst => hst ▸ h.acts _ t rfl⟩
  show (StateT.run (if s.walked.contains n.id then pure n else w.descend n path : Walk Unit Node) _).1 = n
  split
  · rfl
  · exact h.returns _

theorem mirrors_skip_marked (h : Mirrors [] [] (w.descend n path) n y) :
    Mirrors [n.id] [] (skip w n path) n (pure ()) := by
  refine ⟨(mirrors_skip h).returns, fun s t hst => ?_⟩
  subst hst
  show (StateT.run (if [n.id].contains n.id then pure n else w.descend n path : Walk Unit Node)
    (walking ([n.id].filter (· != n.id)) t)).2 = _
  rw [if_pos (by simp), filter_cons_of_neg (by simp)]
  rfl

theorem applyGroups_visitors (w : Walker Unit) (body : List Node) (path : Path) :
    Visit.applyGroups visitors w body path = pure body := by
  funext ⟨session, own, walked, aborted⟩
  cases aborted <;> rfl

theorem applyAll_depth (w : Walker Unit) (n : Node) (path : Path) :
    Visit.applyAll visitors w .depth n path = pure n := by
  funext ⟨session, own, walked, aborted⟩
  cases aborted <;> rfl

theorem visit_visitors (w : Walker Unit) (n : Node) (path : Path) :
    Visit.visit visitors w n path = (do
      if ← Visit.isAborted then return n
      else
        let n ← Visit.applyOne w .breadth path n (.byTag .breadth handlers)
        skip w n path) := by
  rw [Visit.visit_eq]
  simp only [applyAll_depth]
  funext ⟨session, own, walked, aborted⟩
  cases aborted <;> rfl

theorem mirrors_visit
    (hhandler : Mirrors [] [] (Visit.applyOne w .breadth path n (.byTag .breadth handlers)) n y)
    (hdescend : Mirrors [] [] (w.descend n path) n z) :
    Mirrors [] [] (Visit.visit visitors w n path) n
      (do if (← get).aborted.isSome then pure () else do y; z) := by
  rw [visit_visitors]
  exact mirrors_guarded (hhandler.bind (mirrors_skip hdescend))

theorem mirrors_visit_marked
    (hhandler : Mirrors [] [n.id] (Visit.applyOne w .breadth path n (.byTag .breadth handlers)) n y)
    (hdescend : Mirrors [] [] (w.descend n path) n z) :
    Mirrors [] [] (Visit.visit visitors w n path) n (do if (← get).aborted.isSome then pure () else y) := by
  have hboth := hhandler.bind (f := fun n => skip w n path) (mirrors_skip_marked hdescend)
  rw [bind_pure_unit] at hboth
  rw [visit_visitors]
  exact mirrors_guarded hboth

end Mirrors

def handWalked : List Tag := [.member, .entry, .assign, .range]

theorem check_of_notMem (hn : n.tag ∉ handWalked) (path : Path) :
    check n path = (do
      if (← get).aborted.isSome then pure ()
      else
        checkNode n path
        n.children.forM fun c => check c (n.frame :: path)) := by
  have hchildren : ((n.kind.map check).children.forM fun visit => visit (n.frame :: path)) =
      n.children.forM fun c => check c (n.frame :: path) := by
    rw [Kind.children_map, forM_eq_forM, forM_map]
    rfl
  rw [← hchildren]
  conv_lhs => unfold check
  rw [Node.fold_eq]
  obtain ⟨i, span, k⟩ := n
  cases k
  case member | entry | assign | range => exact absurd (of_decide_eq_true rfl) hn
  all_goals rfl

theorem mirrors_observer (hn : n.tag ∉ handWalked) (w : Walker Unit) (path : Path) :
    Mirrors [] [] (Visit.applyOne w .breadth path n (.byTag .breadth handlers)) n (checkNode n path) := by
  have hobserver : Mirrors [] [] (observer checkNode w n path) n (checkNode n path) :=
    (mirrors_observe [] _).return fun _ => n
  have hpure := mirrors_pure [] n
  obtain ⟨i, span, k⟩ := n
  cases k
  case member | entry | assign | range => exact absurd (of_decide_eq_true rfl) hn
  all_goals first | exact hpure | exact hobserver

theorem mirrors_check {levels : Nat} (hlevels : n.height < levels) (path : Path) :
    Mirrors [] [] (Visit.visit visitors (Visit.walker visitors levels) n path) n (check n path) := by
  induction n using Node.ind generalizing levels path with
  | step n ih =>
    obtain ⟨levels, rfl⟩ := Nat.exists_eq_add_one_of_ne_zero (Nat.ne_zero_of_lt hlevels)
    have hchild (c : Node) (hc : c ∈ n.children) : Mirrors [] []
        ((Visit.walker visitors (levels + 1)).walk c (n.frame :: path)) c (check c (n.frame :: path)) :=
      ih c hc (Nat.lt_of_lt_of_le (Node.height_lt_of_child hc) (Nat.le_of_lt_succ hlevels)) _
    have hdescend : Mirrors [] [] ((Visit.walker visitors (levels + 1)).descend n path) n
        (n.children.forM fun c => check c (n.frame :: path)) :=
      Visit.mirrors_descend applyGroups_visitors hchild
    -- A handler that walks the children itself marks the node, and the walk passes over it.
    by_cases hn : n.tag ∈ handWalked
    · obtain ⟨i, span, k⟩ := n
      cases k
      case member object property =>
        have hobject := hchild object (by simp)
        have hproperty := hchild property (by simp)
        exact mirrors_visit_marked ((mirrors_walkAt rfl rfl hobject).bind
          (mirrors_marked (mirrors_walkUnlessName rfl rfl rfl hproperty))) hdescend
      case entry key value =>
        have hkey := hchild key (by simp)
        have hvalue := hchild value (by simp)
        have hentry := mirrors_visit_marked ((mirrors_walkUnlessName rfl rfl rfl hkey).bind
          (mirrors_marked (mirrors_walkAt rfl rfl hvalue))) hdescend
        have hjoin (x y : Check Unit) : (do (if key.isIdent then pure () else x); y) =
            if key.isIdent then y else (do x; y) := by split <;> rfl
        rw [hjoin] at hentry
        exact hentry
      case assign target value =>
        exact mirrors_visit_marked ((mirrors_marked hdescend).bind
          ((mirrors_observe _ (declareNames _ path target.names)).return _)) hdescend
      case range target collection guard =>
        have hcollection := hchild collection (by simp)
        cases guard with
        | none =>
          exact mirrors_visit_marked ((mirrors_walkAt rfl rfl hcollection).bind
            ((mirrors_observe [] (declareNames _ path target.names)).bind
              (mirrors_marked (mirrors_pure [] _)))) hdescend
        | some g =>
          have hguard := hchild g (by simp)
          exact mirrors_visit_marked ((mirrors_walkAt rfl rfl hcollection).bind
            ((mirrors_observe [] (declareNames _ path target.names)).bind
              (mirrors_marked (mirrors_walkAt rfl rfl hguard)))) hdescend
      all_goals exact absurd hn (of_decide_eq_true rfl)
    · rw [check_of_notMem hn]
      exact mirrors_visit (mirrors_observer hn _ path) hdescend

/-! ## The pass -/

theorem runVisitors_eq (options : Options) (root : Node) (session : Session) :
    runVisitors options root session = run options root session := by
  have hwalk := @mirrors_check root (root.height + 2) (by omega) []
  have hrun (start : Session) : (Visit.run visitors root).run { session := start, own := () } =
      (root, walking [] ((check root []).run { session := start }).2) :=
    Prod.ext (hwalk.returns _) (hwalk.acts _ { session := start } rfl)
  unfold runVisitors
  dsimp only
  rw [hrun]
  rfl

/-- Over a tree that has been built the pass only observes. The visitors give the tree back as it was, with
    every child in its place; no id is drawn, only annotations of scopes are made, and what has been told
    before stays told. -/
theorem visitors_only_observe {t : Tree} (ht : t.Built) (options : Options) (session : Session) :
    ∃ session', runVisitors options t.root session = (.ok t.root, session') ∧
      run options t.root session = (.ok t.root, session') ∧ session'.nextId = session.nextId ∧
      session.annotations.SameExcept [.scopeDeclarations, .functionShadow] session'.annotations ∧
      ∃ told, session'.diagnostics = session.diagnostics ++ told := by
  obtain ⟨root, rfl⟩ := ht.exists_root
  obtain ⟨session', hrun, hspares⟩ := run_spares options (Tree.tag_root root) session
  exact ⟨session', (runVisitors_eq ..).trans hrun, hrun, hspares.nextId, hspares.notes, hspares.told⟩

/-- All the nodes whose visitors take children out: `for x in a.b if x { y = {k: x} }`. -/
def handWalkedBody : List Node :=
  let name (s : String) : Node := .ofKind (.ident s)
  let range : Node := .ofKind (.range (.name "x") (.ofKind (.member (name "a") (name "b"))) (some (name "x")))
  let object : Node := .ofKind (.object [.ofKind (.entry (name "k") (name "x"))])
  [.ofKind (.loop [range] [.ofKind (.assign (.name "y") object)] [])]

theorem visitors_only_observe_hand_walked : (Tree.ofBody handWalkedBody).Built ∧
      ∃ session', runVisitors {} (Tree.ofBody handWalkedBody).root {} =
          (.ok (Tree.ofBody handWalkedBody).root, session') ∧
        run {} (Tree.ofBody handWalkedBody).root {} = (.ok (Tree.ofBody handWalkedBody).root, session') ∧
        session'.nextId = 1 ∧
        Annotations.SameExcept [.scopeDeclarations, .functionShadow] {} session'.annotations ∧
        ∃ told, session'.diagnostics = [] ++ told :=
  ⟨.body handWalkedBody, visitors_only_observe (.body handWalkedBody) {} {}⟩

end Scope

end Motif
