import Motif.Proofs.Eval.Congruence
import Motif.Proofs.Eval.Marks
import Motif.Proofs.Pattern.Clauses
import Motif.Proofs.Simplify.Improvement

/-!
# Where simplification keeps the meaning of tests

In the whole language a part of a node is not only evaluated. A key that is a bare name is read as it
stands, a template that speaks of the value under test is a condition, and a body that ends in an
expression is worth that expression. Simplification puts parts of a node in its place, and so can make
a bare name of a key, a plain template of a condition, or an end of what was in the middle of a body.
`Steady` says of a node that nothing of the kind happens in it; what steady programs become does what
they do (`sim_rewritten`).
-/

namespace Motif.Simplify

open Eval List

variable {host : Host} {H : Host → Prop} {n n' : Node} {j : Nat} {b : List Node} {k : Kind Node}

/-! ## Steady programs -/

def KeepsName (n : Node) : Prop := ∀ n', Becomes n n' → n'.ident? = n.ident?

/-- The template speaks of the value under test when it is simplified if and only if it does so
    before, and it becomes the name of a type only if there is no host function of that name. -/
def KeepsUse (host : Host) (t : Node) : Prop :=
  ∀ t', Becomes t t' → speaks host t' = speaks host t ∧
    ∀ name, t'.ident? = some name → t.ident? ≠ some name →
      (TypeName.ofName? name).isSome → host.natives name = none

def endsInExpr (b : List Node) : Bool := b.getLast?.any fun n => n.tag == .exprStmt

def KeepsEnd (b : List Node) : Prop := ∀ b', BodyBecomes b b' → endsInExpr b' → endsInExpr b

/-- At the node, simplification does not change what evaluation looks at. -/
def Steady (host : Host) (n : Node) : Prop :=
  match n.kind with
  | .unary .not operand => operand.Everywhere fun m => ¬ m.IsOrder
  | .member _ key => KeepsName key
  | .entry key _ => KeepsName key
  | .call callee [_] => ∀ f, Becomes callee f → f.tag = .pattern → callee.tag = .pattern
  | .pattern template => KeepsUse host template
  | .element key template => (∀ k ∈ key, KeepsName k) ∧ KeepsUse host template
  | .clause _ body => KeepsEnd body
  | .choose _ _ otherwise => KeepsEnd otherwise
  | .exprStmt expr => ∀ x, Becomes expr x → x.tag = .choose → expr.tag = .choose
  | .function _ _ _ body => ∀ b, BodyBecomes body b → ¬ LoneReduction b
  | .exported (some decl) _ => PlainDecl decl
  | _ => True

def SteadyTree (host : Host) (n : Node) : Prop := n.Everywhere fun m => Steady host m ∧ Desugar.Wrapped m

/-- Steady for each of the hosts, where evaluation looks. At elements it looks in patterns alone, so these are
    steady throughout. -/
def Firm (H : Host → Prop) (n : Node) : Prop :=
  n.tag = .element ∨
    ∀ host, H host → Steady host n ∧ Desugar.Wrapped n ∧ (n.tag = .pattern → SteadyTree host n)

/-- Firm programs and what they become; and all programs and themselves, since what is simplified can run
    together with what is not, and host functions can bring in functions and patterns of their own. -/
def rewritten (H : Host → Prop) : Correspondence where
  node n n' := n = n' ∨ n.Everywhere (Firm H) ∧ Becomes n n'
  body b b' := b = b' ∨ (∀ n ∈ b, n.Everywhere (Firm H)) ∧ BodyBecomes b b'
  template t t' := t = t' ∨ (∀ host, H host → SteadyTree host t ∧ KeepsUse host t) ∧ Becomes t t'
  valued b b' := b = b' ∨ (∀ n ∈ b, n.Everywhere (Firm H)) ∧ KeepsEnd b ∧ BodyBecomes b b'

theorem rewritten_reflexive : (rewritten H).Reflexive :=
  ⟨fun _ => .inl rfl, fun _ => .inl rfl, fun _ => .inl rfl, fun _ => .inl rfl⟩

theorem SteadyTree.firm (h : ∀ host, H host → SteadyTree host n) : n.Everywhere (Firm H) :=
  fun m hm => .inr fun host hH =>
    ⟨(h host hH m hm).1, (h host hH m hm).2, fun _ => (h host hH).everywhere m hm⟩

theorem Firm.steady (h : Firm H n) (hH : H host) (htag : n.tag ≠ .element) : Steady host n :=
  (h.resolve_left htag host hH).1

/-! ## The names that are read off nodes -/

theorem Becomes.eq_of_leaf (h : Becomes n n') (hn : n.isIdent ∨ n.isLiteral) : n' = n := by
  obtain ⟨i, s, k⟩ := n
  cases k with
  | ident | literal =>
    obtain ⟨k, hrel, rfl⟩ := h.keeps (by simp [Kind.tag])
    cases hrel
    rfl
  | _ => simp [Node.isIdent, Node.ident?, Node.isLiteral, Node.literal?] at hn

theorem PlainDecl.ident? {d : Node} (hd : PlainDecl d) : d.ident? = none := by
  unfold Node.ident?
  unfold PlainDecl at hd
  split
  · rename_i hk
    rw [hk] at hd
    exact hd.elim
  · rfl

/-! ## Layers -/

theorem rewritten_named (hH : H host) (hn : n.Everywhere (Firm H)) (htag : n.tag ≠ .element) {c c' : Node}
    (hc : c ∈ n.kind.keys) (h : Becomes c c') : (rewritten H).Named c c' := by
  refine ⟨.inr ⟨hn.child (Kind.mem_children_of_mem_keys hc), h⟩, ?_⟩
  have hsteady := hn.here.steady hH htag
  obtain ⟨i, s, k⟩ := n
  cases k with
  | entry | member =>
    obtain rfl := mem_singleton.mp hc
    exact hsteady c' h
  | element => exact absurd rfl htag
  | exported d items =>
    obtain rfl := Option.mem_toList.mp hc
    have hplain : PlainDecl c := hsteady
    rw [hplain.ident?, (h.plain hplain).1.ident?]
  | _ => cases hc

theorem rewritten_tests (hn : Firm H n) (htag : n.tag = .pattern) (h : Becomes n n') :
    (rewritten H).Tests n n' := by
  obtain ⟨k, hrel, rfl⟩ := h.keeps (htag ▸ by decide)
  have hsteady := hn.resolve_left (htag ▸ by decide)
  obtain ⟨i, s, k₀⟩ := n
  cases hrel with
  | pattern ht =>
    refine ⟨rfl, .inr ⟨fun host hH => ?_, ht⟩⟩
    exact ⟨((hsteady host hH).2.2 rfl).child (mem_singleton_self _), (hsteady host hH).1⟩
  | _ => cases htag

theorem rewritten_placed (hH : H host) (hn : n.Everywhere (Firm H)) (htag : n.tag ≠ .element)
    (hrel : Kind.Rel Becomes Becomes BodyBecomes n.kind k) : (rewritten H).Placed n.kind k := by
  have hfirm := hn.here
  obtain ⟨hsteady, hwrapped, -⟩ := hfirm.resolve_left htag host hH
  obtain ⟨i, s, k₀⟩ := n
  cases hrel with
  | @call f f' as as' hf has =>
    cases as with
    | nil => trivial
    | cons a as =>
      cases as with
      | nil => exact hsteady f' hf
      | cons => trivial
  | exprStmt hx => exact hsteady _ hx
  | pattern ht =>
    refine .inr ⟨fun host hH => ?_, ht⟩
    obtain ⟨hsteady, -, htree⟩ := hfirm.resolve_left htag host hH
    exact ⟨(htree rfl).child (mem_singleton_self _), hsteady⟩
  | @clause ps ps' b b' hps hb =>
    refine ⟨Kind.forall₂_imp_mem hps fun p hp p' h => ?_,
      .inr ⟨fun c hc => hn.child (mem_append_right ps hc), hsteady, hb⟩⟩
    exact rewritten_tests (hn.child (mem_append_left b hp)).here (hwrapped p hp) h
  | @choose v v' cs cs' o o' hv hcs ho =>
    exact .inr ⟨fun c hc => hn.child (by simp [hc]), hsteady, ho⟩
  | exported hd =>
    cases hd with
    | none => trivial
    | some hd => exact (hd.plain hsteady).2
  | _ => trivial

theorem rewritten_layer (hH : H host) (hn : n.Everywhere (Firm H)) (htag : n.tag ≠ .element)
    (h : Becomes n n') : ∃ k, (rewritten H).Same n ⟨n.id, n.span, k⟩ ∧ Rewrite ⟨n.id, n.span, k⟩ n' ∧
      Kind.Rel Becomes Becomes BodyBecomes n.kind k := by
  obtain ⟨k, hrel, hrw⟩ := h.layer
  refine ⟨k, ⟨rfl, hrel.imp (fun c hc c' h => .inr ⟨hn.child hc, h⟩) ?_ ?_,
    rewritten_placed hH hn htag hrel⟩, hrw, hrel⟩
  · exact fun c hc c' h => rewritten_named hH hn htag hc h
  · exact fun b hb b' h => .inr ⟨fun c hc => hn.child (hb c hc), h⟩

theorem kept_of_rigid {t : Tag} (h : t ∈ rigidTags) :
    t ∉ [Tag.unary, .binary, .conj, .disj, .cond, .array, .object, .branch, .loop, .function] := by
  revert t
  decide

theorem Becomes.tag_of_statement (h : Becomes n n') (htag : n.tag ∈ statementTags) : n'.tag = n.tag := by
  obtain ⟨k, hrel, hrw⟩ := h.layer
  have hk : Node.tag ⟨n.id, n.span, k⟩ = n.tag := hrel.tag_eq
  by_cases hmoved : n.tag ∈ [Tag.branch, .loop, .function]
  · rw [hrw.tag_of_statement (hk ▸ hmoved), hk]
  · rw [hrw.eq_of_tag fun hmem => ?_, hk]
    rw [hk] at hmem
    generalize n.tag = t at htag hmem hmoved
    revert t
    decide

theorem rewritten_lawful (hH : H host) : (rewritten H).Lawful where
  rigid := by
    rintro n n' (rfl | ⟨hn, h⟩) htag
    · exact rewritten_reflexive.same n
    · have helement : n.tag ≠ .element := fun heq => by
        rw [heq] at htag
        exact absurd htag (by decide)
      obtain ⟨k, hsame, hrw, -⟩ := rewritten_layer hH hn helement h
      have hkeep : n' = ⟨n.id, n.span, k⟩ := hrw.eq_of_tag (hsame.tag_eq ▸ kept_of_rigid htag)
      rw [hkeep]
      exact hsame
  statement := by
    rintro n n' (rfl | ⟨-, h⟩) htag
    · rfl
    · exact h.tag_of_statement htag

/-! ## Bodies -/

theorem plainExport_of_tag {m : Node} (h : m.tag ≠ .exported) : PlainExport m := by
  obtain ⟨i, s, k⟩ := m
  cases k with
  | exported => exact absurd rfl h
  | _ => trivial

theorem Becomes.plainExports (hH : H host) (h : Becomes n n') (hn : n.Everywhere (Firm H)) :
    n'.Everywhere PlainExport := by
  refine h.everywhere (fun m hm => plainExport_of_tag fun htag => ?_) (fun _ _ _ => trivial)
    (fun {n _ _} hn _ hrel _ => ?_) hn
  · rw [htag] at hm
    exact absurd hm (by decide)
  · have hfirm := hn.here
    obtain ⟨i, s, k₀⟩ := n
    cases hrel with
    | exported hd =>
      cases hd with
      | none => trivial
      | some hd => exact (hd.plain (hfirm.steady hH fun htag => by cases htag)).1
    | _ => trivial

theorem plainExports_of_forall₂ (hH : H host) {mid : List Node} (hb : ∀ n ∈ b, n.Everywhere (Firm H))
    (hmid : Forall₂ Becomes b mid) : ∀ c ∈ mid, c.Everywhere PlainExport := by
  intro c' hc'
  obtain ⟨c, hc, hcc'⟩ := Kind.exists_of_mem_right hmid hc'
  exact hcc'.plainExports hH (hb c hc)

theorem endsInExpr_concat (b : List Node) (n : Node) : endsInExpr (b ++ [n]) = (n.tag == .exprStmt) := by
  rw [endsInExpr, getLast?_concat]
  rfl

theorem blockValue_of_not_endsInExpr (r : Rules) (h : endsInExpr b = false) (e : Env) :
    blockValue r b e = blockResult r.exec b e := by
  rcases eq_nil_or_concat' b with rfl | ⟨init, last, rfl⟩
  · rfl
  · rw [endsInExpr_concat] at h
    unfold blockValue blockResult
    rw [getLast?_concat, dropLast_concat, block_append, bind_assoc]
    dsimp only
    congr 1
    funext x
    obtain ⟨f, e₁⟩ := x
    cases f with
    | returned v => rfl
    | next =>
      obtain ⟨i, s, k⟩ := last
      cases k with
      | exprStmt => cases h
      | _ => rfl

theorem blockValue_concat_exprStmt (r : Rules) (b : List Node) {i : Nat} {s : Span} (x : Node) (e : Env) :
    blockValue r (b ++ [⟨i, s, .exprStmt x⟩]) e = (do
      match ← block r.exec b e with
      | (.returned v, _) => pure v
      | (.next, e) => r.eval x e) := by
  unfold blockValue
  rewrite [getLast?_concat, dropLast_concat]
  rfl

theorem statements_concat_exprStmt (b : List Node) (i : Nat) (s : Span) (x : Node) :
    statements (b ++ [⟨i, s, .exprStmt x⟩]) = statements b ++ [⟨i, s, .exprStmt x⟩] := by
  unfold statements
  rw [flatMap_append, flatMap_append]
  rfl

/-- The value of a body is that of the body with its statements simplified, unless that one ends in an
    expression of its own. -/
theorem improves_blockValue (hb : ∀ n ∈ b, n.Everywhere PlainExport)
    (hend : endsInExpr (statements b) → endsInExpr b) (e : Env) :
    Improves (blockValue (Rules.upTo host (j + 1)) b e)
      (blockValue (Rules.upTo host (j + 1)) (statements b) e) := by
  by_cases hexpr : endsInExpr b = true
  · rcases eq_nil_or_concat' b with rfl | ⟨init, ⟨i, s, k⟩, rfl⟩
    · exact .refl _
    · rw [endsInExpr_concat] at hexpr
      cases k with
      | exprStmt x =>
        rw [statements_concat_exprStmt, blockValue_concat_exprStmt, blockValue_concat_exprStmt]
        have hinit (n : Node) (hn : n ∈ init) := hb n (mem_append_left _ hn)
        exact Improves.bind (improves_statements hinit e) fun _ => .refl _
      | _ => cases hexpr
  · rw [blockValue_of_not_endsInExpr _ (Bool.eq_false_iff.mpr hexpr),
      blockValue_of_not_endsInExpr _ (Bool.eq_false_iff.mpr fun h => hexpr (hend h))]
    exact Improves.bind (improves_statements hb e) fun _ => .refl _

theorem endsInExpr_of_forall₂ {mid : List Node} (h : Forall₂ Becomes b mid) (hb : endsInExpr b) :
    endsInExpr mid := by
  have hlast := rel_getLast? h
  unfold endsInExpr at hb ⊢
  generalize b.getLast? = last at hlast hb
  generalize mid.getLast? = last' at hlast ⊢
  cases hlast with
  | none => exact hb
  | some hn =>
    rw [Option.any_some, beq_iff_eq] at hb ⊢
    rw [hn.tag_of_statement (hb ▸ by decide), hb]

/-! ## Templates -/

section Templates

variable {e : Env} {m m₁ : Machine} {v : Val}

theorem not_gives_eval_collection (htag : n.tag ∈ collectionTags) :
    ¬ Gives ((Rules.upTo host j).eval n e) m v m₁ := by
  intro h
  obtain ⟨j', rfl, heval⟩ := eval_upTo_inv h
  obtain ⟨i, s, k⟩ := n
  cases k with
  | objectPattern | arrayPattern => exact not_gives_fail heval
  | _ => exact absurd htag (of_decide_eq_false rfl)

theorem improves_holdsFor (h : speaks host n = true) (l : Nat) (v : Val) (e : Env) :
    Improves (holdsFor (Rules.upTo host j) n l v e) (fitsNode host (Rules.upTo host j) n l v e) := by
  by_cases htag : n.tag ∈ collectionTags
  · intro m b m₁ hholds
    obtain ⟨_, _, -, hrest⟩ := hholds.bind_inv
    obtain ⟨_, _, heval, -⟩ := hrest.bind_inv
    exact absurd heval (not_gives_eval_collection htag)
  · rw [fitsNode_simple host _ htag, fitsSimple_condition _ h]
    exact .refl _

theorem eval_typeName_inv {name : String} {t : TypeName} (hk : n.kind = .ident name)
    (henv : Dict.contains name e = false) (ht : TypeName.ofName? name = some t)
    (hnative : host.natives name = none) (h : Gives ((Rules.upTo host j).eval n e) m v m₁) :
    v = .type t ∧ m₁ = m := by
  obtain ⟨j', rfl, heval⟩ := eval_upTo_inv h
  have hget : Dict.get? name e = none := by
    unfold Dict.contains at henv
    exact Option.not_isSome_iff_eq_none.mp (Bool.eq_false_iff.mp henv)
  unfold evalNode at heval
  simp only [hk] at heval
  unfold Eval.lookup at heval
  simp only [hget, hnative, ht] at heval
  obtain ⟨rfl, rfl⟩ := gives_pure_inv heval
  exact ⟨rfl, rfl⟩

theorem improves_comparesWith (h : speaks host n = false)
    (hnative : ∀ name, n.ident? = some name → (TypeName.ofName? name).isSome → host.natives name = none)
    (l : Nat) (v : Val) (e : Env) :
    Improves (comparesWith host (Rules.upTo host j) n v e) (fitsNode host (Rules.upTo host j) n l v e) := by
  intro m b m₁ hcompare
  obtain ⟨f, m₂, heval, hmatch⟩ := Gives.bind_inv hcompare
  by_cases htag : n.tag ∈ collectionTags
  · exact absurd heval (not_gives_eval_collection htag)
  rw [fitsNode_simple host _ htag]
  by_cases hleaf : n.tag ∈ [Tag.ident, .literal]
  · unfold fitsSimple
    rw [if_neg (by rw [← speaks, h]; exact Bool.false_ne_true)]
    obtain ⟨i, s, k⟩ := n
    cases k with
    | ident name =>
      dsimp only
      split
      · rename_i t ht
        split at ht
        · cases ht
        · rename_i henv
          have hnone := hnative name rfl (ht ▸ rfl)
          obtain ⟨rfl, rfl⟩ := eval_typeName_inv rfl (Bool.eq_false_iff.mpr henv) ht hnone heval
          exact hmatch
      · exact hcompare
    | literal d =>
      dsimp only
      split
      · rename_i hprimitive
        obtain ⟨rfl, rfl⟩ := eval_literal_inv rfl heval
        rwa [isMatch_primitive _ (Bool.and_eq_true_iff.mp hprimitive).1] at hmatch
      · exact hcompare
    | _ => exact absurd hleaf (of_decide_eq_false rfl)
  · rw [fitsSimple_comparison _ h hleaf]
    exact hcompare

end Templates

theorem isLeaf_of_tag (h : n.tag ∈ [Tag.ident, .literal]) : n.isIdent ∨ n.isLiteral := by
  obtain ⟨i, s, k⟩ := n
  cases k with
  | ident => exact .inl rfl
  | literal => exact .inr rfl
  | _ => exact absurd h (of_decide_eq_false rfl)

theorem tag_of_ident? {name : String} (h : n.ident? = some name) : n.tag = .ident := by
  obtain ⟨i, s, k⟩ := n
  cases k with
  | ident => rfl
  | _ => cases h

theorem rewritten_element (hH : H host) (hn : ∀ host, H host → SteadyTree host n) (h : Becomes n n') :
    (rewritten H).Element n n' := by
  intro key t hk
  obtain ⟨k, hrel, rfl⟩ := h.keeps (by rw [Node.tag, hk, Kind.tag]; decide)
  obtain ⟨i, s, k₀⟩ := n
  dsimp only at hk
  subst hk
  cases hrel with
  | element hkey ht =>
    refine ⟨rfl, _, _, rfl, Kind.optionRel_imp_mem hkey fun c hc c' h => ⟨.inr ⟨?_, h⟩, ?_⟩,
      .inr ⟨fun host hH => ⟨(hn host hH).child (by simp), ?_⟩, ht⟩⟩
    · exact SteadyTree.firm fun host hH => (hn host hH).child (by
        simp [Option.mem_toList.mp hc])
    · exact (hn host hH).here.1.1 c (Option.mem_toList.mp hc) c' h
    · exact (hn host hH).here.1.2

theorem rewritten_tested (hH : H host) {t t' : Node} (h : (rewritten H).template t t') :
    (rewritten H).Tested host (Rules.upTo host j) t t' := by
  rcases h with rfl | ⟨ht, h⟩
  · exact rewritten_reflexive.tested host _ t
  have helements {es es' : List Node} (hes : Forall₂ Becomes es es')
      (hsteady : ∀ c ∈ es, ∀ host, H host → SteadyTree host c) : Forall₂ (rewritten H).Element es es' :=
    Kind.forall₂_imp_mem hes fun c hc c' h => rewritten_element hH (hsteady c hc) h
  have hnode : (rewritten H).node t t' := .inr ⟨SteadyTree.firm fun host hH => (ht host hH).1, h⟩
  by_cases hcollection : t.tag ∈ collectionTags
  · obtain ⟨k, hrel, rfl⟩ := h.keeps (by
      generalize t.tag = tag at hcollection
      revert tag
      decide)
    refine .collection rfl ?_
    obtain ⟨i, s, k₀⟩ := t
    cases hrel with
    | objectPattern hes => exact .object (helements hes fun c hc host hH => (ht host hH).1.child hc)
    | arrayPattern hes => exact .array (helements hes fun c hc host hH => (ht host hH).1.child hc)
    | _ => exact absurd hcollection (of_decide_eq_false rfl)
  by_cases hleaf : t.tag ∈ [Tag.ident, .literal]
  · obtain rfl := h.eq_of_leaf (isLeaf_of_tag hleaf)
    exact rewritten_reflexive.tested host _ t'
  obtain ⟨hspeaks, hnames⟩ := (ht host hH).2 t' h
  cases hs : speaks host t with
  | true => exact .condition hs hcollection hnode (improves_holdsFor (hspeaks.trans hs))
  | false =>
    refine .comparison hs (fun h => ?_) hnode (improves_comparesWith (hspeaks.trans hs) ?_)
    · exact (mem_append.mp (show t.tag ∈ [Tag.ident, .literal] ++ collectionTags from h)).elim
        hleaf hcollection
    · intro name hname
      refine hnames name hname fun hident => hleaf ?_
      exact tag_of_ident? hident ▸ mem_cons_self

/-! ## Runs -/

theorem not_order_of_rel (hn : ∀ x, n.kind = .unary .not x → x.Everywhere fun m => ¬ m.IsOrder)
    (hrel : Kind.Rel Becomes Becomes BodyBecomes n.kind k) {x : Node} (hk : k = .unary .not x) :
    ¬ x.IsOrder := by
  obtain ⟨i, s, k₀⟩ := n
  subst hk
  cases hrel with
  | unary hx => exact hx.head inherited_order (hn _ rfl)

theorem sim_rewritten (hH : H host) (hhost : host.Respects (Val.Alike (rewritten H))) (j : Nat) :
    (Rules.upTo host j).Sim (rewritten H) (Rules.upTo host j) := by
  induction j with
  | zero =>
    refine .zero ?_ ?_
    · rintro b (rfl | ⟨-, h⟩)
      · rfl
      · exact bodyBecomes_nil h
    · rintro b (rfl | ⟨-, -, h⟩)
      · rfl
      · exact bodyBecomes_nil h
  | succ j ih =>
    refine ih.step (rewritten_lawful hH) hhost ?_ ?_ ?_ (rewritten_tested hH)
    · rintro n n' (rfl | ⟨hn, h⟩) htag
      · exact ⟨n, rewritten_reflexive.same n, fun _ => .inl rfl, fun _ => .refl _, fun _ => .refl _⟩
      · obtain ⟨k, hsame, hrw, hrel⟩ := rewritten_layer hH hn htag h
        have hsteady := hn.here.steady hH htag
        refine ⟨⟨n.id, n.span, k⟩, hsame, fun htag => ?_, ?_, ?_⟩
        · rw [← hrw.eq_of_tag (hsame.tag_eq ▸ htag ▸ by decide)]
          exact .inr ⟨hn, h⟩
        · refine hrw.improves_eval fun x hk => not_order_of_rel (fun y hy => ?_) hrel hk
          rwa [Steady, hy] at hsteady
        · refine hrw.improves_exec fun name ps g b hk => ?_
          obtain ⟨i, s, k₀⟩ := n
          dsimp only at hk
          subst hk
          cases hrel with
          | function _ _ hb => exact hsteady b hb
    · rintro b b' (rfl | ⟨hb, mid, hmid, rfl⟩)
      · exact ⟨b, forall₂_same.mpr fun n _ => .inl rfl, fun _ => .refl _⟩
      · refine ⟨mid, Kind.forall₂_imp_mem hmid fun c hc c' h => .inr ⟨hb c hc, h⟩, ?_⟩
        exact improves_statements (plainExports_of_forall₂ hH hb hmid)
    · rintro b b' (rfl | ⟨hb, hend, mid, hmid, rfl⟩)
      · exact ⟨b, forall₂_same.mpr fun n _ => .inl rfl, fun _ => .refl _⟩
      · refine ⟨mid, Kind.forall₂_imp_mem hmid fun c hc c' h => .inr ⟨hb c hc, h⟩, ?_⟩
        refine improves_blockValue (plainExports_of_forall₂ hH hb hmid) fun h => ?_
        exact endsInExpr_of_forall₂ hmid (hend _ ⟨mid, hmid, rfl⟩ h)

theorem interchangeable_rewritten (hH : H host) (hhost : host.Respects (Val.Alike (rewritten H))) :
    Interchangeable host (Val.Alike (rewritten H)) where
  toDiscreet := Val.Alike.discreet (rewritten H)
  call fuel _ _ _ _ hf hargs := (sim_rewritten hH hhost fuel).call hf hargs

end Motif.Simplify
