import Motif.Proofs.Pipeline.Passes
import Motif.Proofs.Simplify.Steady

/-!
# Tests in simplified programs

After the patterns of a program have been elaborated it can be simplified. A pattern then tests as it
did before, a computed key names what it named, and a choice between patterns is worth what it was
worth, if the pattern, the key or the choice is steady. None of the three holds of all programs: each is
followed by a program that shows it.
-/

namespace Motif

open Eval List

variable {n root : Node} {host : Host}

/-! ## Nodes that simplification leaves in place -/

theorem Node.eq_of_id_eq {m : Node} (hids : root.ids.Nodup) (hn : n ∈ root.preorder)
    (hm : m ∈ root.preorder) (h : n.id = m.id) : n = m :=
  inj_on_of_nodup_map hids hn hm h

namespace Simplify

theorem Becomes.origin {root' : Node} (h : Becomes root root') :
    root'.Everywhere fun m => m.tag ∈ [Tag.pattern, .choose] →
      ∃ n ∈ root.preorder, Becomes n m ∧ m.id = n.id := by
  refine h.everywhere (p := (· ∈ root.preorder)) (fun m hmade htag => ?_) (fun _ _ _ htag => ?_)
    (fun {n n' k} hn h hrel hrw htag => ?_) fun _ hx => hx
  · exact absurd hmade ((by decide : ∀ tag ∈ [Tag.pattern, .choose], tag ∉ madeTags) _ htag)
  · exact absurd htag (of_decide_eq_false rfl)
  · have hkeep : n' = ⟨n.id, n.span, k⟩ := hrw.eq_of_tag (by
      generalize Node.tag ⟨n.id, n.span, k⟩ = tag at htag
      revert tag
      decide)
    exact ⟨n, hn.here, hkeep ▸ h, rfl⟩

end Simplify

open Simplify

/-- A tree with its patterns elaborated, and the same one simplified: where the id of a pattern or a choice
    is still in use, its node is what the pattern or choice became. -/
theorem runPasses_pattern_simplify {t : Tree} (ht : t.Built) (options : Options) :
    ∃ tree session tree' session', runPasses options [.pattern] t = .ok (tree, session) ∧
      runPasses options [.pattern, .simplify] t = .ok (tree', session') ∧
      session'.annotations = session.annotations ∧ Desugar.WrappedIn tree.root ∧
      ∀ n ∈ tree.root.preorder, ∀ n' ∈ tree'.root.preorder, n'.tag ∈ [Tag.pattern, .choose] →
        n'.id = n.id → Becomes n n' := by
  obtain ⟨root, rfl⟩ := ht.exists_root
  have hstart := Tree.intact root
  obtain ⟨root₁, nextId, s, hshape, hpattern, hids, -⟩ := Pattern.run_visits hstart.ids
  have hshaped := Desugar.inShape_of_shapes (.of_run hshape)
  obtain ⟨root₂, nextId₂, hsimplify⟩ : ∃ root₂ nextId₂,
      (simplify root₁).run s.session.nextId = (root₂, nextId₂) := ⟨_, _, rfl⟩
  refine ⟨{ root := root₁, nextId := s.session.nextId }, s.session,
    { root := root₂, nextId := nextId₂ }, { s.session with nextId := nextId₂ }, ?_, ?_, rfl,
    hshaped.wrapped, fun n hn n' hn' htag hid => ?_⟩
  · simp only [runPasses, runFrom, Pass.run, hpattern]
    rfl
  · simp only [runPasses, runFrom, Pass.run, hpattern, Simplify.run, hsimplify]
    rfl
  · have hbecomes : Becomes root₁ root₂ := .of_run hsimplify
    obtain ⟨m, hm, hmn', hid'⟩ := hbecomes.origin n' hn' htag
    rwa [Node.eq_of_id_eq hids.nodup hn hm (hid.symm.trans hid')]

theorem firm_of_steady (hwrapped : Desugar.WrappedIn n) (h : n.Everywhere (Steady host)) :
    n.Everywhere (Firm (Eq host)) := by
  refine SteadyTree.firm ?_
  rintro _ rfl
  exact fun m hm => ⟨h m hm, hwrapped m hm⟩

theorem Simplify.Becomes.eq_of_run {n' r : Node} (h : Becomes n n')
    (hrun : ∀ next, ((simplify n).run next).1 = r) : n' = r := by
  obtain ⟨next, next', hnext⟩ := h
  rw [← hrun next, hnext]

theorem steady_leaf (hchildren : n.children = []) (hn : Steady host n) : n.Everywhere (Steady host) := by
  refine .mk hn fun c hc => ?_
  rw [hchildren] at hc
  cases hc

/-! ## Patterns -/

/-- A steady pattern tests as it did before it was simplified. Whatever value is tested, in whatever scope
    and state: if the test has an answer, then with the same fuel, the same annotations and the same host
    functions the test of the simplified pattern has that answer, and leaves an interchangeable state. -/
theorem matchesPattern_simplified {t : Tree} (ht : t.Built) (options : Options) :
    ∃ tree session tree' session', runPasses options [.pattern] t = .ok (tree, session) ∧
      runPasses options [.pattern, .simplify] t = .ok (tree', session') ∧ ∀ host : Host, host.Opaque →
        ∀ p ∈ tree.root.preorder, p.tag = .pattern → p.Everywhere (Steady host) →
          ∀ p' ∈ tree'.root.preorder, p'.tag = .pattern → p'.id = p.id → ∀ fuel subject env m b m₁,
              Gives (matchesPattern host (Rules.upTo host fuel) p subject env) m b m₁ →
                ∃ R m₁', Interchangeable host R ∧
                  Gives (matchesPattern host (Rules.upTo host fuel) p' subject env) m b m₁' ∧
                  Machine.Alike R m₁ m₁' := by
  obtain ⟨tree, session, tree', session', hpattern, hsimplify, -, hwrapped, horigin⟩ :=
    runPasses_pattern_simplify ht options
  refine ⟨tree, session, tree', session', hpattern, hsimplify, ?_⟩
  intro host hhost p hp htag hsteady p' hp' htag' hid fuel subject env m b m₁ h
  have hbecomes := horigin p hp p' hp' (htag' ▸ mem_cons_self) hid
  have htests := rewritten_tests (firm_of_steady (hwrapped.everywhere p hp) hsteady).here htag hbecomes
  have hrespects := hhost _ (Val.Alike.discreet (rewritten (Eq host)))
  obtain ⟨b', m₁', hgives, rfl, hm⟩ := (sim_rewritten rfl hrespects fuel).matchesPattern htests
    (rewritten_reflexive.val subject) (rewritten_reflexive.env env) (rewritten_reflexive.machine m) h
  exact ⟨_, m₁', interchangeable_rewritten rfl hrespects, hgives, hm⟩

def testing (template subject : Kind Node) : List Node :=
  [.ofKind (.ret (.ofKind (.call (.ofKind (.pattern (.ofKind template))) [.ofKind subject])))]

/-- The template `not true` is folded to `false`, and `false` fits it before and after. -/
theorem matchesPattern_simplified_negation :
    let body := testing (.unary .not (.ofKind (.literal (.bool true)))) (.literal (.bool false))
    ∃ tree session tree' session', runPasses {} [.pattern] (.ofBody body) = .ok (tree, session) ∧
      runPasses {} [.pattern, .simplify] (.ofBody body) = .ok (tree', session') ∧
      let host := bareHost session.annotations
      ∃ p ∈ tree.root.preorder, p.tag = .pattern ∧ p.Everywhere (Steady host) ∧
        ∃ p' ∈ tree'.root.preorder, p'.tag = .pattern ∧ p'.id = p.id ∧
          ∃ m, Gives (matchesPattern host (Rules.upTo host 3) p' (.bool false) []) {} true m := by
  intro body
  obtain ⟨tree, session, tree', session', hpattern, hsimplify, hmatches⟩ :=
    matchesPattern_simplified (.body body) {}
  refine ⟨tree, session, tree', session', hpattern, hsimplify, ?_⟩
  cases (hpattern : Except.ok _ = Except.ok _)
  cases (hsimplify : Except.ok _ = Except.ok _)
  intro host
  have hsteady : Node.Everywhere (Steady host) ⟨4, .none, .pattern ⟨5, .none, .unary .not
      ⟨6, .none, .literal (.bool true)⟩⟩⟩ := by
    refine .mk ?_ (forall_mem_singleton.mpr (.mk ?_ (forall_mem_singleton.mpr
      (steady_leaf rfl trivial))))
    · intro t' ht'
      obtain rfl := ht'.eq_of_run (r := ⟨5, .none, .literal (.bool false)⟩) fun _ => rfl
      exact ⟨rfl, nofun⟩
    · show Node.Everywhere _ _
      decide
  obtain ⟨-, m, -, hgives, -⟩ := hmatches host (opaque_bareHost _) _
    (.tail _ (.tail _ (.tail _ (.head _)))) rfl hsteady _ (.tail _ (.tail _ (.tail _ (.head _)))) rfl rfl
    3 (.bool false) [] {} true _ rfl
  exact ⟨_, .tail _ (.tail _ (.tail _ (.head _))), rfl, hsteady, _,
    .tail _ (.tail _ (.tail _ (.head _))), rfl, rfl, m, hgives⟩

/-- A template that is false before the value under test is looked at becomes the literal `false`, which
    is a template that `false` fits. -/
theorem matchesPattern_not_simplified :
    let body := testing (.conj (.ofKind (.literal (.bool false))) (.ofKind .context))
      (.literal (.bool false))
    ∃ tree session tree' session', runPasses {} [.pattern] (.ofBody body) = .ok (tree, session) ∧
      runPasses {} [.pattern, .simplify] (.ofBody body) = .ok (tree', session') ∧
      session.hasErrors = false ∧
      ∃ p ∈ tree.root.preorder, ∃ p' ∈ tree'.root.preorder, p.tag = .pattern ∧ p'.tag = .pattern ∧
        p'.id = p.id ∧ (p.Everywhere fun m => ¬ m.IsOrder) ∧
        let host := bareHost session.annotations
        ∃ m m', Gives (matchesPattern host (Rules.upTo host 3) p (.bool false) []) {} false m ∧
          Gives (matchesPattern host (Rules.upTo host 3) p' (.bool false) []) {} true m' :=
  ⟨_, _, _, _, rfl, rfl, rfl, _, .tail _ (.tail _ (.tail _ (.head _))), _,
    .tail _ (.tail _ (.tail _ (.head _))), rfl, rfl, rfl, by decide, _, _, rfl, rfl⟩

/-! ## Choices -/

theorem eval_becomes {host : Host} (hhost : host.Opaque) {n n' : Node} (hwrapped : Desugar.WrappedIn n)
    (hsteady : n.Everywhere (Steady host)) (hbecomes : Becomes n n') {fuel : Nat} {env : Env}
    {m m₁ : Machine} {v : Val} (h : Gives ((Rules.upTo host fuel).eval n env) m v m₁) :
    ∃ R v' m₁', Interchangeable host R ∧ Gives ((Rules.upTo host fuel).eval n' env) m v' m₁' ∧ R v v' ∧
      Machine.Alike R m₁ m₁' := by
  have hrespects := hhost _ (Val.Alike.discreet (rewritten (Eq host)))
  obtain ⟨v', m₁', hgives, hv, hm⟩ := (sim_rewritten rfl hrespects fuel).eval
    (.inr ⟨firm_of_steady hwrapped hsteady, hbecomes⟩) (rewritten_reflexive.env env)
    (rewritten_reflexive.machine m) h
  exact ⟨_, v', m₁', interchangeable_rewritten rfl hrespects, hgives, hv, hm⟩

/-- A steady choice between patterns is worth what it was worth before it was simplified. -/
theorem eval_choose_simplified {t : Tree} (ht : t.Built) (options : Options) :
    ∃ tree session tree' session', runPasses options [.pattern] t = .ok (tree, session) ∧
      runPasses options [.pattern, .simplify] t = .ok (tree', session') ∧ ∀ host : Host, host.Opaque →
        ∀ n ∈ tree.root.preorder, n.tag = .choose → n.Everywhere (Steady host) →
          ∀ n' ∈ tree'.root.preorder, n'.tag = .choose → n'.id = n.id →
            ∀ fuel env m v m₁, Gives ((Rules.upTo host fuel).eval n env) m v m₁ →
              ∃ R v' m₁', Interchangeable host R ∧
                Gives ((Rules.upTo host fuel).eval n' env) m v' m₁' ∧ R v v' ∧ Machine.Alike R m₁ m₁' := by
  obtain ⟨tree, session, tree', session', hpattern, hsimplify, -, hwrapped, horigin⟩ :=
    runPasses_pattern_simplify ht options
  refine ⟨tree, session, tree', session', hpattern, hsimplify, ?_⟩
  intro host hhost n hn _ hsteady n' hn' htag' hid fuel env m v m₁ h
  exact eval_becomes hhost (hwrapped.everywhere n hn) hsteady
    (horigin n hn n' hn' (by rw [htag']; decide) hid) h

def choosing (body : List Node) : List Node :=
  let yes : Node := .ofKind (.literal (.bool true))
  [.ofKind (.ret (.ofKind (.choose yes [.ofKind (.clause [.ofKind (.pattern yes)] body)] [])))]

def negationChoice : Node :=
  let yes (i : Nat) : Node := ⟨i, .none, .literal (.bool true)⟩
  ⟨3, .none, .choose (yes 4) [⟨5, .none, .clause [⟨6, .none, .pattern (yes 7)⟩]
    [⟨8, .none, .exprStmt ⟨9, .none, .unary .not (yes 10)⟩⟩]⟩] []⟩

theorem steady_negationChoice (host : Host) : negationChoice.Everywhere (Steady host) := by
  have hliteral (i : Nat) : Node.Everywhere (Steady host) ⟨i, .none, .literal (.bool true)⟩ :=
    steady_leaf rfl trivial
  have htest : Node.Everywhere (Steady host) ⟨6, .none, .pattern ⟨7, .none, .literal (.bool true)⟩⟩ := by
    refine .mk ?_ (forall_mem_singleton.mpr (hliteral 7))
    intro t' ht'
    obtain rfl := ht'.eq_of_run (r := ⟨7, .none, .literal (.bool true)⟩) fun _ => rfl
    exact ⟨rfl, nofun⟩
  have hstatement : Node.Everywhere (Steady host) ⟨8, .none, .exprStmt ⟨9, .none, .unary .not
      ⟨10, .none, .literal (.bool true)⟩⟩⟩ := by
    refine .mk ?_ (forall_mem_singleton.mpr (.mk ?_ (forall_mem_singleton.mpr (hliteral 10))))
    · intro x hx htag
      obtain rfl := hx.eq_of_run (r := ⟨9, .none, .literal (.bool false)⟩) fun _ => rfl
      cases htag
    · show Node.Everywhere _ _
      decide
  refine .mk ?_ (forall_mem_cons.mpr ⟨hliteral 4, forall_mem_singleton.mpr (.mk ?_
    (forall_mem_cons.mpr ⟨htest, forall_mem_singleton.mpr hstatement⟩))⟩)
  · intro b hb hend
    rw [bodyBecomes_nil hb] at hend
    cases hend
  · exact fun _ _ _ => rfl

theorem eval_choose_simplified_negation :
    let body := choosing [.ofKind (.exprStmt (.ofKind (.unary .not (.ofKind (.literal (.bool true))))))]
    ∃ tree session tree' session', runPasses {} [.pattern] (.ofBody body) = .ok (tree, session) ∧
      runPasses {} [.pattern, .simplify] (.ofBody body) = .ok (tree', session') ∧
      let host := bareHost session.annotations
      negationChoice ∈ tree.root.preorder ∧ negationChoice.Everywhere (Steady host) ∧
        ∃ n' ∈ tree'.root.preorder, n'.tag = .choose ∧ n'.id = negationChoice.id ∧
          ∃ m, Gives ((Rules.upTo host 5).eval n' []) {} (.bool false) m := by
  intro body
  obtain ⟨tree, session, tree', session', hpattern, hsimplify, hchoices⟩ :=
    eval_choose_simplified (.body body) {}
  refine ⟨tree, session, tree', session', hpattern, hsimplify, ?_⟩
  cases (hpattern : Except.ok _ = Except.ok _)
  cases (hsimplify : Except.ok _ = Except.ok _)
  intro host
  have hsteady := steady_negationChoice host
  obtain ⟨R, v, m, hR, hgives, hv, -⟩ := hchoices host (opaque_bareHost _) negationChoice
    (.tail _ (.tail _ (.head _))) rfl hsteady _ (.tail _ (.tail _ (.head _))) rfl rfl 5 [] {}
    (.bool false) _ rfl
  obtain rfl : .bool false = v := hR.sameFace hv
  exact ⟨.tail _ (.tail _ (.head _)), hsteady, _, .tail _ (.tail _ (.head _)), rfl, rfl, m, hgives⟩

/-- A branch that is not taken is the last statement of a clause. Without it the clause ends in an
    expression, and is worth that. -/
theorem eval_choose_not_simplified :
    let number (x : Float) : Node := .ofKind (.exprStmt (.ofKind (.literal (.number x))))
    let body := choosing
      [number 5, .ofKind (.branch (.ofKind (.literal (.bool false))) [number 6] [])]
    ∃ tree session tree' session', runPasses {} [.pattern] (.ofBody body) = .ok (tree, session) ∧
      runPasses {} [.pattern, .simplify] (.ofBody body) = .ok (tree', session') ∧
      session.hasErrors = false ∧
      ∃ n ∈ tree.root.preorder, ∃ n' ∈ tree'.root.preorder, n.tag = .choose ∧ n'.tag = .choose ∧
        n'.id = n.id ∧
        let host := bareHost session.annotations
        ∃ m m', Gives ((Rules.upTo host 5).eval n []) {} .nothing m ∧
          Gives ((Rules.upTo host 5).eval n' []) {} (.data (.number 5)) m' :=
  ⟨_, _, _, _, rfl, rfl, rfl, _, .tail _ (.tail _ (.head _)), _, .tail _ (.tail _ (.head _)), rfl, rfl,
    rfl, _, _, rfl, rfl⟩

/-! ## Keys -/

theorem eval_keyed_inv {fuel : Nat} {env : Env} {m m₁ : Machine} {v : Val}
    (htag : n.tag ∈ [Tag.member, .object]) (h : Gives ((Rules.upTo host fuel).eval n env) m v m₁) :
    ∃ d, v = .data d := by
  obtain ⟨j, rfl, heval⟩ := eval_upTo_inv h
  obtain ⟨i, s, k⟩ := n
  cases k with
  | member o p =>
    obtain ⟨target, _, -, hrest⟩ := heval.bind_inv
    obtain ⟨d, _, -, hrest⟩ := hrest.bind_inv
    obtain ⟨key, _, -, hresult⟩ := hrest.bind_inv
    exact ⟨_, (gives_pure_inv hresult).1.symm⟩
  | object es =>
    obtain ⟨ds, _, -, hresult⟩ := heval.bind_inv
    exact ⟨_, (gives_pure_inv hresult).1.symm⟩
  | _ => exact absurd htag (of_decide_eq_false rfl)

/-- Member expressions and objects with computed keys are worth what they were worth before they were
    simplified, if they are steady and the clauses in them, if any, have patterns as alternatives. -/
theorem eval_keyed_simplified {host : Host} (hhost : host.Opaque) {n : Node}
    (htag : n.tag ∈ [Tag.member, .object]) (hwrapped : Desugar.WrappedIn n)
    (hsteady : n.Everywhere (Steady host)) (session : Session) (fuel : Nat) (env : Env) (m : Machine)
    (v : Val) (m₁ : Machine) (h : Gives ((Rules.upTo host fuel).eval n env) m v m₁) :
    ∃ n' R m₁', (Simplify.run n session).1 = .ok n' ∧ Interchangeable host R ∧
      Gives ((Rules.upTo host fuel).eval n' env) m v m₁' ∧ Machine.Alike R m₁ m₁' := by
  have hbecomes : Becomes n ((simplify n).run session.nextId).1 := .of_run rfl
  obtain ⟨R, v', m₁', hR, hgives, hv, hm⟩ := eval_becomes hhost hwrapped hsteady hbecomes h
  obtain ⟨d, rfl⟩ := eval_keyed_inv htag h
  obtain rfl : .data d = v' := hR.sameFace hv
  exact ⟨_, R, m₁', rfl, hR, hgives, hm⟩

def memberAt (key : Node) : Node :=
  ⟨1, .none, .member ⟨2, .none, .object [⟨3, .none, .entry ⟨4, .none, .ident "a"⟩
    ⟨5, .none, .literal (.number 1)⟩⟩]⟩ key⟩

theorem eval_keyed_simplified_literal :
    let key : Node := ⟨6, .none, .conj ⟨7, .none, .literal (.bool true)⟩
      ⟨8, .none, .literal (.string "a")⟩⟩
    (memberAt key).Everywhere (Steady (bareHost {})) ∧
      ∃ n' m, (Simplify.run (memberAt key) (.startingAt 9)).1 = .ok n' ∧
        Gives ((Rules.upTo (bareHost {}) 3).eval n' []) {} (.data (.number 1)) m := by
  intro key
  have hsteady : (memberAt key).Everywhere (Steady (bareHost {})) := by
    have hname : KeepsName ⟨4, .none, .ident "a"⟩ := by
      intro n' hn'
      rw [hn'.eq_of_run (r := ⟨4, .none, .ident "a"⟩) fun _ => rfl]
    have hkey : KeepsName key := by
      intro n' hn'
      rw [hn'.eq_of_run (r := ⟨8, .none, .literal (.string "a")⟩) fun _ => rfl]
      rfl
    refine .mk hkey (forall_mem_cons.mpr ⟨.mk trivial ?_, forall_mem_singleton.mpr
      (.mk trivial ?_)⟩)
    · refine forall_mem_singleton.mpr (.mk hname (forall_mem_cons.mpr ⟨?_, ?_⟩))
      · exact steady_leaf rfl trivial
      · exact forall_mem_singleton.mpr (steady_leaf rfl trivial)
    · refine forall_mem_cons.mpr ⟨?_, forall_mem_singleton.mpr ?_⟩
      · exact steady_leaf rfl trivial
      · exact steady_leaf rfl trivial
  have hclauses : (memberAt key).Everywhere fun n => n.tag ≠ .clause := by decide
  obtain ⟨n', -, m, hrun, -, hgives, -⟩ := eval_keyed_simplified (opaque_bareHost {})
    (by decide) (hclauses.imp fun _ => Desugar.wrapped_of_tag) hsteady (.startingAt 9) 3
    [] {} (.data (.number 1)) {} rfl
  exact ⟨hsteady, n', m, hrun, hgives⟩

/-- The key `true and k` becomes the bare name `k`, which is read as it stands. -/
theorem eval_keyed_not_simplified :
    let key : Node := ⟨6, .none, .conj ⟨7, .none, .literal (.bool true)⟩ ⟨8, .none, .ident "k"⟩⟩
    let env : Env := [("k", .data (.string "a"))]
    Gives ((Rules.upTo (bareHost {}) 3).eval (memberAt key) env) {} (.data (.number 1)) {} ∧
      ∃ n', (Simplify.run (memberAt key) (.startingAt 9)).1 = .ok n' ∧
        Gives ((Rules.upTo (bareHost {}) 3).eval n' env) {} .nothing {} :=
  ⟨rfl, _, rfl, rfl⟩

end Motif
