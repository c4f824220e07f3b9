import Motif.Proofs.Eval.Conclusions
import Motif.Proofs.Pattern.Clauses
import Motif.Proofs.Pattern.Walk

/-!
# Guards from the patterns of parameters

Where a tree is brought into shape, the patterns of a function's parameters go into its guard. `Guards`
says what the function is like afterwards, and it relates the functions of the tree with those of the tree in
shape, both ways. A guard of this form tests the patterns in the order of the parameters, and then the
guard that was there.
-/

namespace Motif

open List

namespace Desugar

open Eval (Conjunction Joined IsApplication)
open Pattern (mem_preorder_of_child)

variable {terms : List Node} {explicit guard : Option Node} {n n' : Node}

/-! ## Templates without patterns around them -/

def core : Node → Node :=
  Node.fold fun n below =>
    match below with
    | .pattern inner => inner
    | _ => n

theorem core_pattern (i : Nat) (span : Span) (expr : Node) : core ⟨i, span, .pattern expr⟩ = core expr := rfl

theorem core_of_tag (h : n.tag ≠ .pattern) : core n = n := by
  obtain ⟨i, span, k⟩ := n
  cases k with
  | pattern => exact absurd rfl h
  | _ => rfl

theorem shapes_pattern (htag : n.tag = .pattern) (h : Shapes n n') :
    ∃ i span template, n' = ⟨i, span, .pattern template⟩ ∧ Shapes (core n) template ∧
      template.tag ≠ .pattern := by
  induction n using Node.ind generalizing n' with
  | step n ih =>
    cases layer_of_shapes h with
    | @same _ _ k _ hsame _ =>
      have hk : k.tag = .pattern := htag
      rw [hk] at hsame
      exact absurd hsame (by decide)
    | pattern hother hexpr =>
      rw [core_pattern, core_of_tag hother]
      exact ⟨_, _, _, rfl, hexpr, (inShape_of_shapes hexpr).tag ▸ hother⟩
    | @inner _ _ expr _ hpattern hexpr =>
      rw [core_pattern]
      exact ih expr (mem_singleton.mpr rfl) hpattern hexpr
    | _ => cases htag

theorem shapes_of_wraps {t p : Node} (h : Wraps Shapes t p) :
    ∃ i span template, p = ⟨i, span, .pattern template⟩ ∧ Shapes (core t) template ∧
      template.tag ≠ .pattern := by
  cases h with
  | already htag h => exact shapes_pattern htag h
  | around htag h =>
    rw [core_of_tag htag]
    exact ⟨_, _, _, rfl, h, (inShape_of_shapes h).tag ▸ htag⟩

/-! ## Guards -/

theorem conjunction_conjoin {left : Node} {span : Span} {ids : List Nat} {rest : List (Span × Node)}
    (h : Conjunction terms left) (hids : ids.length = rest.length) :
    Conjunction (terms ++ rest.map Prod.snd) (conjoin left span ids rest) := by
  induction rest generalizing terms left span ids with
  | nil =>
    have hnil : conjoin left span ids [] = left := by cases ids <;> rfl
    rwa [hnil, map_nil, append_nil]
  | cons term rest ih =>
    cases ids with
    | nil => cases hids
    | cons id ids =>
      rw [map_cons, append_cons]
      exact ih (.join term.2 h) (Nat.succ.inj hids)

theorem joined_guardOf {ids : List Nat} {terms : List (Span × Node)}
    (hids : ids.length = terms.length - 1) : Joined (terms.map Prod.snd) (guardOf ids terms) := by
  cases terms with
  | nil => exact .none
  | cons term terms =>
    refine .some (conjunction_conjoin (.single term.2) ?_)
    rw [hids, length_cons, Nat.add_sub_cancel]

theorem mem_preorder_of_conjunction {g term : Node} (h : Conjunction terms g) (hterm : term ∈ terms) :
    term ∈ g.preorder := by
  induction h with
  | single n =>
    rw [mem_singleton.mp hterm, Node.preorder_eq]
    exact mem_cons_self
  | @join i span terms left right h ih =>
    rw [Node.preorder_eq]
    refine mem_cons_of_mem _ ?_
    rcases mem_append.mp hterm with hterm | hterm
    · exact mem_flatMap.mpr ⟨left, mem_cons_self, ih hterm⟩
    · rw [mem_singleton.mp hterm]
      refine mem_flatMap.mpr ⟨right, mem_cons_of_mem _ mem_cons_self, ?_⟩
      rw [Node.preorder_eq]
      exact mem_cons_self

theorem mem_preorder_of_joined {term : Node} (h : Joined terms guard) (hterm : term ∈ terms) :
    ∃ g ∈ guard, term ∈ g.preorder := by
  cases h with
  | none => cases hterm
  | @some _ g h => exact ⟨g, rfl, mem_preorder_of_conjunction h hterm⟩

inductive TestOf : Node → Node × String → Prop where
  | mk {i j : Nat} {span span' : Span} {name : String} {template template' : Node} {variadic : Bool}
      (h : Shapes (core template) template') (htag : template'.tag ≠ .pattern) :
      TestOf ⟨i, span, .param name (some template) variadic⟩
        (⟨j, span', .pattern template'⟩, name)

/-- A guard that applies patterns to names, and has an expression last if there is one. -/
def IsGuard (tests : List (Node × String)) (explicit guard : Option Node) : Prop :=
  ∃ terms, Forall₂ IsApplication tests terms ∧ Joined (terms ++ explicit.toList) guard

theorem ne_nil_of_conjunction {g : Node} (h : Conjunction terms g) : terms ≠ [] := by
  cases h <;> simp

theorem eq_of_conjunction {g : Node} (h : Conjunction [n] g) : g = n := by
  generalize hterms : [n] = terms at h
  cases h with
  | single =>
    cases hterms
    rfl
  | join right hleft =>
    have hlength := length_pos_of_ne_nil (ne_nil_of_conjunction hleft)
    have := congrArg List.length hterms
    simp only [length_append, length_singleton] at this
    omega

theorem IsGuard.eq_explicit (h : IsGuard [] explicit guard) : guard = explicit := by
  obtain ⟨terms, hterms, hjoined⟩ := h
  cases hterms
  cases explicit with
  | none =>
    cases hjoined with
    | none => rfl
    | some h => exact absurd rfl (ne_nil_of_conjunction h)
  | some e =>
    have hjoined : Joined [e] guard := hjoined
    cases hjoined with
    | some h => rw [eq_of_conjunction h]

/-- A function, and the function with the patterns of its parameters in its guard. If there are none,
    its guard is the one that it had. -/
inductive Guards : Node → Node → Prop where
  | mk {i : Nat} {span : Span} {name : String} {params params' body body' : List Node}
      {guard guard' explicit : Option Node} {tests : List (Node × String)}
      (hparams : Forall₂ (Unpatterned Shapes) params params')
      (hplain : ∀ q ∈ params', template? q = none)
      (htests : Forall₂ TestOf (typed params) tests)
      (hexplicit : Option.Rel Shapes guard explicit) (hguard : IsGuard tests explicit guard')
      (hsame : typed params = [] → guard' = explicit)
      (hbody : Forall₂ Shapes body body') :
      Guards ⟨i, span, .function name params guard body⟩ ⟨i, span, .function name params' guard' body'⟩

theorem template?_of_tag (h : n.tag ≠ .param) : template? n = none := by
  obtain ⟨i, span, k⟩ := n
  cases k with
  | param => exact absurd rfl h
  | _ => rfl

theorem template?_of_unpatterned {p q : Node} (h : Unpatterned Shapes p q) : template? q = none := by
  cases h with
  | plain h =>
    obtain ⟨i, span, name, template, variadic, rfl, rfl⟩ := plainParam_eq_some h
    rfl
  | other hnone h =>
    by_cases htag : p.tag = .param
    · obtain ⟨i, span, k⟩ := p
      cases k with
      | param name template variadic =>
        cases hnone
        have hq : q = ⟨i, span, .param name none variadic⟩ := Yields.pure_eq h
        rw [hq]
        rfl
      | _ => cases htag
    · exact template?_of_tag ((inShape_of_shapes h).tag ▸ htag)

theorem tests_of_terms {params : List Node} (h : Forall₂ (IsTest Shapes) params terms) :
    ∃ tests, Forall₂ TestOf params tests ∧ Forall₂ IsApplication tests terms := by
  induction h with
  | nil => exact ⟨[], .nil, .nil⟩
  | cons hterm _ ih =>
    obtain ⟨tests, hparams, hterms⟩ := ih
    cases hterm with
    | @mk i span name template pattern variadic ids hwraps =>
      obtain ⟨j, span', template', rfl, hshapes, htag⟩ := shapes_of_wraps hwraps
      exact ⟨(⟨j, span', .pattern template'⟩, name) :: tests, .cons (.mk hshapes htag) hparams,
        .cons .mk hterms⟩

theorem explicit_of_terms (h : Forall₂ Shapes guard.toList terms) :
    ∃ explicit, Option.Rel Shapes guard explicit ∧ terms = explicit.toList := by
  cases guard with
  | none =>
    cases h
    exact ⟨none, .none, rfl⟩
  | some g =>
    cases h with
    | @cons _ g' _ _ hg hnil =>
      cases hnil
      exact ⟨some g', .some hg, rfl⟩

theorem guards_of_shapes {f f' : Node} (htag : f.tag = .function) (h : Shapes f f') : Guards f f' := by
  cases layer_of_shapes h with
  | @same _ _ k _ hsame _ =>
    have hk : k.tag = .function := htag
    rw [hk] at hsame
    exact absurd hsame (by decide)
  | @function _ _ _ _ _ _ _ _ joins terms given hparams htests hexplicit hjoins hbody =>
    obtain ⟨tests, hparams', hterms⟩ := tests_of_terms htests
    obtain ⟨explicit, hguard, heq⟩ := explicit_of_terms hexplicit
    have hisGuard : IsGuard tests explicit (guardOf joins (terms ++ given)) := by
      refine ⟨_, hterms, ?_⟩
      rw [← heq, ← map_append]
      exact joined_guardOf hjoins
    refine .mk hparams (fun q hq => ?_) hparams' hguard hisGuard (fun hnone => ?_) hbody
    · obtain ⟨p, -, hp⟩ := Kind.exists_of_mem_right hparams hq
      exact template?_of_unpatterned hp
    · rw [hnone] at hparams'
      cases hparams'
      exact hisGuard.eq_explicit
  | _ => cases htag

/-! ## The functions of a tree -/

theorem mem_preorder_self (n : Node) : n ∈ n.preorder := by
  rw [Node.preorder_eq]
  exact mem_cons_self

theorem mem_preorder_trans {a b c : Node} (hab : b ∈ a.preorder) (hbc : c ∈ b.preorder) : c ∈ a.preorder := by
  have hself : a.Everywhere fun x => x ∈ a.preorder := fun _ hx => hx
  exact hself.everywhere b hab c hbc

variable {S T : Node → Node → Prop}

theorem Wraps.image {t p : Node} (h : Wraps S t p) (hp : p ∈ n'.preorder) : ∃ t' ∈ n'.preorder, S t t' := by
  cases h with
  | already _ h => exact ⟨p, hp, h⟩
  | @around _ _ _ t' _ h => exact ⟨t', mem_preorder_of_child hp (mem_singleton.mpr rfl), h⟩

/-- Nothing below a node is lost: a child has become something in the tree in shape, or it is a
    parameter whose template has. -/
theorem Layer.image {c : Node} (h : Layer S T n n') (hc : c ∈ n.children) :
    (∃ c' ∈ n'.preorder, S c c' ∨ T c c') ∨ ∃ t ∈ template? c, ∃ t' ∈ n'.preorder, S t t' := by
  have hself := mem_preorder_self n'
  have hlist {ns ns' : List Node} (h : Forall₂ S ns ns') (hns : ∀ m ∈ ns', m ∈ n'.children)
      (hc : c ∈ ns) : ∃ c' ∈ n'.preorder, S c c' ∨ T c c' := by
    obtain ⟨c', hc', hS⟩ := Kind.exists_of_mem_right h.flip hc
    exact ⟨c', mem_preorder_of_child hself (hns c' hc'), .inl hS⟩
  cases h with
  | same _ h => exact .inl (hlist h.forall₂_children (fun _ hm => hm) hc)
  | @function i span name params params' body body' guard joins tests explicit hparams htests hexplicit
      hjoins hbody =>
    have hterm {term : Node} (hterm : term ∈ (tests ++ explicit).map Prod.snd) :
        term ∈ Node.preorder
          ⟨i, span, .function name params' (guardOf joins (tests ++ explicit)) body'⟩ := by
      obtain ⟨g, hg, hmem⟩ := mem_preorder_of_joined (joined_guardOf hjoins) hterm
      refine mem_preorder_trans (mem_preorder_of_child (mem_preorder_self _) ?_) hmem
      exact mem_append_left _ (mem_append_right _ (Option.mem_toList.mpr hg))
    rcases mem_append.mp hc with hc | hc
    · rcases mem_append.mp hc with hc | hc
      · obtain ⟨q, hq, hplain⟩ := Kind.exists_of_mem_right hparams.flip hc
        cases hplain with
        | other _ h =>
          refine .inl ⟨q, mem_preorder_of_child hself ?_, .inl h⟩
          simp [hq]
        | plain h =>
          -- The pattern of the parameter stands in the test for it.
          obtain ⟨j, span', x, template, variadic, rfl, rfl⟩ := plainParam_eq_some h
          have htyped : _ ∈ typed params := mem_filter.mpr ⟨hc, rfl⟩
          obtain ⟨term, hmem, htest⟩ := Kind.exists_of_mem_right htests.flip htyped
          cases htest with
          | mk hwraps =>
            have hpattern := mem_preorder_of_child
              (hterm (map_append ▸ mem_append_left _ hmem)) mem_cons_self
            exact .inr ⟨template, rfl, hwraps.image hpattern⟩
      · obtain ⟨g, hg, h⟩ := Kind.exists_of_mem_right hexplicit.flip hc
        exact .inl ⟨g, hterm (map_append ▸ mem_append_right _ hg), .inl h⟩
    · exact .inl (hlist hbody (fun m hm => mem_append_right _ hm) hc)
  | clause hpatterns hbody =>
    rcases mem_append.mp hc with hc | hc
    · obtain ⟨p', hp', hwraps⟩ := Kind.exists_of_mem_right hpatterns.flip hc
      obtain ⟨t', ht', hS⟩ := hwraps.image (mem_preorder_of_child hself (mem_append_left _ hp'))
      exact .inl ⟨t', ht', .inl hS⟩
    · exact .inl (hlist hbody (fun m hm => mem_append_right _ hm) hc)
  | pattern _ h =>
    rw [mem_singleton.mp hc]
    exact .inl ⟨_, mem_preorder_of_child hself (mem_singleton.mpr rfl), .inl h⟩
  | inner _ h =>
    rw [mem_singleton.mp hc]
    exact .inl ⟨_, hself, .inl h⟩
  | element hkey hvalue =>
    rcases mem_append.mp hc with hc | hc
    · cases hkey with
      | none => cases hc
      | some hkey =>
        rw [mem_singleton.mp hc]
        exact .inl ⟨_, mem_preorder_of_child hself (mem_append_left _ mem_cons_self), .inl hkey⟩
    · rw [mem_singleton.mp hc]
      exact .inl ⟨_, mem_preorder_of_child hself (mem_append_right _ mem_cons_self), .inr hvalue⟩

structure FunctionsShaped (n n' : Node) : Prop where
  kept : ∀ f ∈ n.preorder, f.tag = .function → ∃ f' ∈ n'.preorder, Shapes f f'
  origin : ∀ f' ∈ n'.preorder, f'.tag = .function → ∃ f ∈ n.preorder, Shapes f f'

theorem functionsShaped_of_layer (hshapes : Shapes n n') (h : Layer FunctionsShaped FunctionsShaped n n') :
    FunctionsShaped n n' := by
  constructor
  · intro f hf htag
    rw [Node.preorder_eq] at hf
    rcases mem_cons.mp hf with rfl | hf
    · exact ⟨n', mem_preorder_self n', hshapes⟩
    · obtain ⟨c, hc, hf⟩ := mem_flatMap.mp hf
      rcases h.image hc with ⟨c', hc', hshaped⟩ | ⟨t, ht, t', ht', hshaped⟩
      · obtain ⟨f', hf', h⟩ := (or_self_iff.mp hshaped).kept f hf htag
        exact ⟨f', mem_preorder_trans hc' hf', h⟩
      · -- A parameter is no function, so the function stands in its template.
        have hbelow : f ∈ t.preorder := by
          obtain ⟨i, span, k⟩ := c
          cases k with
          | param name template variadic =>
            cases ht
            rw [Node.preorder_eq] at hf
            rcases mem_cons.mp hf with rfl | hf
            · cases htag
            · simpa using hf
          | _ => cases ht
        obtain ⟨f', hf', h⟩ := hshaped.kept f hbelow htag
        exact ⟨f', mem_preorder_trans ht' hf', h⟩
  · have hbelow {c c' : Node} (hc : c ∈ n.preorder) (hshaped : FunctionsShaped c c') :
        c'.Everywhere fun f' => f'.tag = .function → ∃ f ∈ n.preorder, Shapes f f' := by
      intro f' hf' htag
      obtain ⟨f, hf, h⟩ := hshaped.origin f' hf' htag
      exact ⟨f, mem_preorder_trans hc hf, h⟩
    refine everywhere_of_layer (fun _ _ h => h) (fun m hm htag => ?_) (fun _ _ _ _ _ _ htag => ?_)
      (fun _ _ h => h) (h.imp ?_ ?_ ?_) fun _ => ⟨n, mem_preorder_self n, hshapes⟩
    · rw [htag] at hm
      exact absurd hm (by decide)
    · cases htag
    · exact fun c hc c' => hbelow (mem_preorder_of_child (mem_preorder_self n) hc)
    · exact fun c hc d hd d' =>
        hbelow (mem_preorder_of_child (mem_preorder_of_child (mem_preorder_self n) hc) hd)
    · exact fun c hc c' => hbelow (mem_preorder_of_child (mem_preorder_self n) hc)

theorem functionsShaped_of_shapes (h : Shapes n n') : FunctionsShaped n n' := by
  refine (layer_induct (fun _ _ => functionsShaped_of_layer) (fun i span expr m hexpr => ?_)
    (fun _ _ _ hshaped => hshaped) n).1 n' h
  have hchild : expr ∈ Node.preorder ⟨i, span, .pattern expr⟩ :=
    mem_preorder_of_child (mem_preorder_self _) (mem_singleton.mpr rfl)
  constructor
  · intro f hf htag
    rw [Node.preorder_eq] at hf
    rcases mem_cons.mp hf with rfl | hf
    · cases htag
    · exact hexpr.kept f (by simpa using hf) htag
  · intro f' hf' htag
    obtain ⟨f, hf, h⟩ := hexpr.origin f' hf' htag
    exact ⟨f, mem_preorder_trans hchild hf, h⟩

/-! ## Guards that are run -/

open Eval (Rules Machine EvalError Concludes InTurn admits applies condition Gives bindParams argument
  lookup)

theorem IsGuard.concludes_iff {tests : List (Node × String)} (h : IsGuard tests explicit guard)
    {host : Eval.Host} {env : Eval.Env} {m m' : Machine} {result : Except EvalError Bool} :
    Concludes (fun fuel => admits (Rules.upTo host fuel) guard env) m result m' ↔
      InTurn (tests.map (applies host env) ++ explicit.toList.map (condition host env)) m result m' := by
  obtain ⟨terms, hterms, hjoined⟩ := h
  rw [hjoined.concludes_iff, map_append]
  refine (Eval.inTurn_congr (rel_append ?_ ?_)).symm
  · rw [forall₂_map_left_iff, forall₂_map_right_iff]
    exact hterms.imp fun _ _ h => h.sameConclusions
  · exact forall₂_same.mpr fun _ _ _ _ _ => Iff.rfl

end Desugar

namespace Pattern

open Desugar (Guards IsGuard guards_of_shapes functionsShaped_of_shapes)
open Eval (Rules Machine EvalError Concludes InTurn admits applies condition Gives bindParams argument
  lookup)

/-- After the pass the functions of a tree have the patterns of their parameters in their guards. Such a
    guard tests the patterns in turn, each against what the name of its parameter stands for, and then
    the guard that was there, and stops where a test is not met. The name of a parameter stands for its
    argument; if several parameters have the name, for that of the last one. -/
theorem run_guards_parameters (root : Node) (session : Session) :
    ∃ root' session', run root session = (.ok root', session') ∧
      (∀ f ∈ root.preorder, f.tag = .function → ∃ f' ∈ root'.preorder, Guards f f') ∧
      (∀ f' ∈ root'.preorder, f'.tag = .function → ∃ f ∈ root.preorder, Guards f f') ∧
      (∀ tests explicit guard, IsGuard tests explicit guard → ∀ host env m result m',
        Concludes (fun fuel => admits (Rules.upTo host fuel) guard env) m result m' ↔
          InTurn (tests.map (applies host env) ++ explicit.toList.map (condition host env)) m result m') ∧
      ∀ params args scope m env m', Gives (bindParams params args scope) m env m' →
        ∀ i (p : Node) name template variadic, params[i]? = some p → p.kind = .param name template variadic →
          ∃ j q template' variadic' v, i ≤ j ∧ params[j]? = some q ∧ q.kind = .param name template' variadic' ∧
            (∀ r ∈ params.drop (j + 1), ∀ template variadic, r.kind ≠ .param name template variadic) ∧
            argument variadic' (args.drop j) = pure v ∧ ∀ host, lookup host name env = pure v := by
  obtain ⟨root', session', hrun, hshapes⟩ := exists_run root session
  have hfunctions := functionsShaped_of_shapes hshapes
  refine ⟨root', session', hrun, fun f hf htag => ?_, fun f' hf' htag => ?_, ?_, ?_⟩
  · obtain ⟨f', hf', h⟩ := hfunctions.kept f hf htag
    exact ⟨f', hf', guards_of_shapes htag h⟩
  · obtain ⟨f, hf, h⟩ := hfunctions.origin f' hf' htag
    exact ⟨f, hf, guards_of_shapes ((Desugar.inShape_of_shapes h).tag ▸ htag) h⟩
  · intro tests explicit guard hguard host env m result m'
    exact hguard.concludes_iff
  · intro params args scope m env m' hbind i p name template variadic hp hkind
    obtain ⟨j, q, template', variadic', hj, hq, hqkind, hlast⟩ := Eval.exists_last_param hp hkind
    obtain ⟨v, hargument, hget⟩ := Eval.get?_bindParams hbind hq hqkind hlast
    refine ⟨j, q, template', variadic', v, hj, hq, hqkind, hlast, hargument, fun host => ?_⟩
    rw [Eval.lookup, hget]

end Pattern

end Motif
