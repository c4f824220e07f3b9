import Motif.Proofs.Pattern.Shape

/-!
# One layer of a tree in shape

What bringing a tree into shape makes of the node at its root. A function has the tests of its
parameters in its guard, in the order of the parameters and before the guard that it had; an alternative
of a clause is in a pattern; and a pattern has no pattern directly inside it.
-/

namespace Motif.Desugar

open List

variable {terms : List (Span × Node)} {plan : List (Option TermIds)} {params ps : List Node}
  {ids : List Nat} {n' p : Node}

/-- The first node is desugared to the second, for some fresh ids. -/
abbrev Shapes (n n' : Node) : Prop := Yields (shape n) n'

abbrev Peels (n n' : Node) : Prop := Yields (shapeTemplate n) n'

variable {S S' T T' : Node → Node → Prop}

/-! ## Parts of a layer -/

/-- A template in a pattern of its own, unless it is a pattern. -/
inductive Wraps (S : Node → Node → Prop) : Node → Node → Prop where
  | already {t t' : Node} (htag : t.tag = .pattern) (h : S t t') : Wraps S t t'
  | around {i : Nat} {span : Span} {t t' : Node} (htag : t.tag ≠ .pattern) (h : S t t') :
      Wraps S t ⟨i, span, .pattern t'⟩

inductive Unpatterned (S : Node → Node → Prop) : Node → Node → Prop where
  | plain {p q : Node} (h : plainParam p = some q) : Unpatterned S p q
  | other {p q : Node} (hnone : template? p = none) (h : S p q) : Unpatterned S p q

inductive IsTest (S : Node → Node → Prop) : Node → Node → Prop where
  | mk {i : Nat} {span : Span} {name : String} {template pattern : Node} {variadic : Bool}
      {ids : TermIds} (h : Wraps S template pattern) :
      IsTest S ⟨i, span, .param name (some template) variadic⟩ (termFor ids span name pattern)

def typed (params : List Node) : List Node := params.filter fun p => (template? p).isSome

theorem typed_cons (p : Node) (params : List Node) :
    typed (p :: params) = if (template? p).isSome then p :: typed params else typed params :=
  filter_cons

theorem mem_of_mem_typed (h : p ∈ typed params) : p ∈ params := mem_of_mem_filter h

theorem template?_eq_none_of_typed (h : typed params = []) (hp : p ∈ params) : template? p = none := by
  have hnot := filter_eq_nil_iff.mp h p hp
  simpa using hnot

theorem template?_cases (p : Node) :
    (∃ i span name template variadic, p = ⟨i, span, .param name (some template) variadic⟩) ∨
      template? p = none ∧ plainParam p = none ∧ drawTerm p = pure none := by
  obtain ⟨i, span, k⟩ := p
  cases k with
  | param name template variadic =>
    cases template with
    | none => exact .inr ⟨rfl, rfl, rfl⟩
    | some template => exact .inl ⟨i, span, name, template, variadic, rfl⟩
  | _ => exact .inr ⟨rfl, rfl, rfl⟩

/-! ## One layer -/

/-- One layer of a tree and of the tree in shape. `S` relates what is below, and `T` the templates of
    elements. -/
inductive Layer (S T : Node → Node → Prop) : Node → Node → Prop where
  | same {i : Nat} {span : Span} {k k' : Kind Node}
      (htag : k.tag ∉ [Tag.function, .clause, .pattern, .element])
      (h : k.Rel S S (Forall₂ S) k') : Layer S T ⟨i, span, k⟩ ⟨i, span, k'⟩
  | function {i : Nat} {span : Span} {name : String} {params params' body body' : List Node}
      {guard : Option Node} {joins : List Nat} {tests explicit : List (Span × Node)}
      (hparams : Forall₂ (Unpatterned S) params params')
      (htests : Forall₂ (IsTest S) (typed params) (tests.map Prod.snd))
      (hexplicit : Forall₂ S guard.toList (explicit.map Prod.snd))
      (hjoins : joins.length = (tests ++ explicit).length - 1)
      (hbody : Forall₂ S body body') :
      Layer S T ⟨i, span, .function name params guard body⟩
        ⟨i, span, .function name params' (guardOf joins (tests ++ explicit)) body'⟩
  | clause {i : Nat} {span : Span} {patterns patterns' body body' : List Node}
      (hpatterns : Forall₂ (Wraps S) patterns patterns')
      (hbody : Forall₂ S body body') :
      Layer S T ⟨i, span, .clause patterns body⟩ ⟨i, span, .clause patterns' body'⟩
  | pattern {i : Nat} {span : Span} {expr expr' : Node} (htag : expr.tag ≠ .pattern)
      (h : S expr expr') : Layer S T ⟨i, span, .pattern expr⟩ ⟨i, span, .pattern expr'⟩
  | inner {i : Nat} {span : Span} {expr n' : Node} (htag : expr.tag = .pattern)
      (h : S expr n') : Layer S T ⟨i, span, .pattern expr⟩ n'
  | element {i : Nat} {span : Span} {key key' : Option Node} {value value' : Node}
      (hkey : Option.Rel S key key') (hvalue : T value value') :
      Layer S T ⟨i, span, .element key value⟩ ⟨i, span, .element key' value'⟩

theorem Wraps.imp {t t' : Node} (h : Wraps S t t') (himp : ∀ t', S t t' → S' t t') : Wraps S' t t' := by
  cases h with
  | already htag h => exact .already htag (himp _ h)
  | around htag h => exact .around htag (himp _ h)

theorem Unpatterned.imp {q : Node} (h : Unpatterned S p q) (himp : ∀ q, S p q → S' p q) :
    Unpatterned S' p q := by
  cases h with
  | plain h => exact .plain h
  | other hnone h => exact .other hnone (himp q h)

theorem IsTest.imp {term : Node} (h : IsTest S p term) (himp : ∀ t ∈ template? p, ∀ t', S t t' → S' t t') :
    IsTest S' p term := by
  cases h with
  | mk h => exact .mk (h.imp (himp _ rfl))

theorem Layer.imp {n : Node} (h : Layer S T n n') (hS : ∀ c ∈ n.children, ∀ c', S c c' → S' c c')
    (hbelow : ∀ c ∈ n.children, ∀ d ∈ c.children, ∀ d', S d d' → S' d d')
    (hT : ∀ c ∈ n.children, ∀ c', T c c' → T' c c') : Layer S' T' n n' := by
  cases h with
  | same htag h =>
    refine .same htag (h.imp hS (fun c hc => hS c (Kind.mem_children_of_mem_keys hc)) ?_)
    exact fun cs hcs cs' h => Kind.forall₂_imp_mem h fun c hc => hS c (hcs c hc)
  | @function _ _ _ params _ body _ guard _ _ _ hparams htests hexplicit hjoins hbody =>
    have hchild {c : Node} (hc : c ∈ params ++ guard.toList ++ body) (c' : Node) : S c c' → S' c c' :=
      hS c hc c'
    refine .function ?_ ?_ ?_ hjoins ?_
    · exact Kind.forall₂_imp_mem hparams fun p hp q h => h.imp fun q => hchild (by simp [hp]) q
    · refine Kind.forall₂_imp_mem htests fun p hp term h => h.imp fun t ht => ?_
      refine hbelow p ?_ t (mem_children_of_template? ht)
      simp [mem_of_mem_typed hp]
    · exact Kind.forall₂_imp_mem hexplicit fun g hg => hchild (by simp [Option.mem_toList.mp hg])
    · exact Kind.forall₂_imp_mem hbody fun b hb => hchild (by simp [hb])
  | clause hpatterns hbody =>
    refine .clause ?_ ?_
    · exact Kind.forall₂_imp_mem hpatterns fun p hp p' h => h.imp fun t' => hS p (mem_append_left _ hp) t'
    · exact Kind.forall₂_imp_mem hbody fun b hb => hS b (mem_append_right _ hb)
  | pattern htag h => exact .pattern htag (hS _ (mem_singleton.mpr rfl) _ h)
  | inner htag h => exact .inner htag (hS _ (mem_singleton.mpr rfl) _ h)
  | element hkey hvalue =>
    refine .element (Kind.optionRel_imp_mem hkey fun k hk => hS k (mem_append_left _ hk)) ?_
    exact hT _ (mem_append_right _ (mem_singleton.mpr rfl)) _ hvalue

/-! ## New conjunctions -/

section Conjunctions

variable {P : Node → Prop} (hconj : ∀ m : Node, m.tag = .conj → P m)

include hconj

theorem everywhere_conjoin {left : Node} {span : Span} (hleft : left.Everywhere P)
    (h : ∀ t ∈ terms, t.2.Everywhere P) : (conjoin left span ids terms).Everywhere P := by
  induction terms generalizing left span ids with
  | nil =>
    have hnil : conjoin left span ids [] = left := by cases ids <;> rfl
    rwa [hnil]
  | cons term terms ih =>
    obtain ⟨hterm, hterms⟩ := forall_mem_cons.mp h
    cases ids with
    | nil => exact hleft
    | cons id ids =>
      refine ih (.mk (hconj _ rfl) ?_) hterms
      exact forall_mem_cons.mpr ⟨hleft, forall_mem_singleton.mpr hterm⟩

theorem everywhere_guardOf (h : ∀ t ∈ terms, t.2.Everywhere P) :
    ∀ g ∈ (guardOf ids terms).toList, g.Everywhere P := by
  cases terms with
  | nil => exact forall_mem_nil _
  | cons term terms =>
    obtain ⟨hterm, hterms⟩ := forall_mem_cons.mp h
    exact forall_mem_singleton.mpr (everywhere_conjoin hconj hterm hterms)

end Conjunctions

/-! ## The walk goes layer by layer -/

theorem list_of_yields {ns ns' : List Node} (h : Yields (shapeList ns) ns') : Forall₂ Shapes ns ns' := by
  rw [shapeList_eq] at h
  exact Kind.traverseList_rel h

theorem option_of_yields {n n' : Option Node} (h : Yields (shapeOption n) n') : Option.Rel Shapes n n' := by
  rw [shapeOption_eq] at h
  exact Kind.traverseOption_rel h

theorem wraps_of_yields {t t' : Node} {wrap : Option Nat} (span : Span)
    (hwrap : Yields (drawWrap t) wrap) (h : S t t') : Wraps S t (wrapWith wrap span t') := by
  unfold drawWrap at hwrap
  split at hwrap
  · rename_i hpattern
    rw [hwrap.pure_eq]
    exact .already (beq_iff_eq.mp hpattern) h
  · rename_i hpattern
    obtain ⟨id, -, rfl⟩ := hwrap.bind_pure
    exact .around (fun htag => hpattern (beq_iff_eq.mpr htag)) h

theorem alternatives_of_yields {ps' : List Node} {wraps : List (Option Nat)}
    (hwraps : Yields (Kind.traverseList drawWrap ps) wraps) (h : Yields (shapeAlternatives wraps ps) ps') :
    Forall₂ (Wraps Shapes) ps ps' := by
  induction ps generalizing wraps ps' with
  | nil =>
    rw [shapeAlternatives_nil] at h
    rw [h.pure_eq]
    exact .nil
  | cons p ps ih =>
    obtain ⟨wrap, hwrap, hdrawn⟩ := hwraps.bind
    obtain ⟨wraps', hwraps', rfl⟩ := hdrawn.bind_pure
    rw [shapeAlternatives_cons] at h
    obtain ⟨template, htemplate, h⟩ := h.bind
    obtain ⟨rest, hrest, rfl⟩ := h.bind_pure
    exact .cons (wraps_of_yields p.span hwrap htemplate) (ih hwraps' hrest)

theorem params_of_yields {ps' : List Node} (h : Yields (shapeParams ps) ps') :
    Forall₂ (Unpatterned Shapes) ps ps' := by
  induction ps generalizing ps' with
  | nil =>
    rw [Yields.pure_eq h]
    exact .nil
  | cons p ps ih =>
    have hrest {q : Node} (hq : Unpatterned Shapes p q)
        (h : Yields (do let rest ← shapeParams ps; return q :: rest) ps') :
        Forall₂ (Unpatterned Shapes) (p :: ps) ps' := by
      obtain ⟨qs, hqs, rfl⟩ := h.bind_pure
      exact .cons hq (ih hqs)
    rw [shapeParams_cons] at h
    obtain ⟨i, span, name, template, variadic, rfl⟩ | ⟨hnone, hplain, -⟩ := template?_cases p
    · exact hrest (.plain rfl) h
    · rw [hplain] at h
      obtain ⟨q, hq, h⟩ := Yields.bind h
      exact hrest (.other hnone hq) h

theorem plan_of_yields (h : Yields (Kind.traverseList drawTerm ps) plan) :
    (plan.filter Option.isSome).length = (typed ps).length := by
  induction ps generalizing plan with
  | nil =>
    rw [Yields.pure_eq h]
    rfl
  | cons p ps ih =>
    obtain ⟨entry, hentry, h⟩ := Yields.bind h
    obtain ⟨plan, hplan, rfl⟩ := h.bind_pure
    obtain ⟨i, span, name, template, variadic, rfl⟩ | ⟨hnone, -, hdraw⟩ := template?_cases p
    · obtain ⟨wrap, -, hentry⟩ := Yields.bind hentry
      obtain ⟨argument, -, hentry⟩ := hentry.bind
      obtain ⟨call, -, rfl⟩ := hentry.bind_pure
      simpa [typed_cons, template?] using ih hplan
    · rw [hdraw] at hentry
      rw [hentry.pure_eq]
      simpa [typed_cons, hnone] using ih hplan

theorem tests_of_yields (hplan : Yields (Kind.traverseList drawTerm ps) plan)
    (h : Yields (shapeTerms plan ps) terms) : Forall₂ (IsTest Shapes) (typed ps) (terms.map Prod.snd) := by
  induction ps generalizing plan terms with
  | nil =>
    rw [shapeTerms_nil] at h
    rw [h.pure_eq]
    exact .nil
  | cons p ps ih =>
    obtain ⟨entry, hentry, hdrawn⟩ := Yields.bind hplan
    obtain ⟨plan, hrest, rfl⟩ := hdrawn.bind_pure
    obtain ⟨i, span, name, template, variadic, rfl⟩ | ⟨hnone, -, hdraw⟩ := template?_cases p
    · obtain ⟨wrap, hwrap, hentry⟩ := Yields.bind hentry
      obtain ⟨argument, -, hentry⟩ := hentry.bind
      obtain ⟨call, -, rfl⟩ := hentry.bind_pure
      rw [shapeTerms_cons] at h
      obtain ⟨pattern, hpattern, h⟩ := h.bind
      obtain ⟨terms, hterms, rfl⟩ := h.bind_pure
      exact .cons (.mk (wraps_of_yields template.span hwrap hpattern)) (ih hrest hterms)
    · rw [hdraw] at hentry
      rw [hentry.pure_eq] at h
      rw [typed_cons, hnone]
      exact ih hrest h

theorem explicit_of_yields {guard : Option Node} (h : Yields (shapeGuard guard) terms) :
    Forall₂ Shapes guard.toList (terms.map Prod.snd) := by
  cases guard with
  | none =>
    rw [Yields.pure_eq h]
    exact .nil
  | some g =>
    obtain ⟨g', hg', rfl⟩ := Yields.bind_pure h
    exact .cons hg' .nil

theorem length_of_drawMany {n : Nat} (h : Yields (drawMany n) ids) : ids.length = n := by
  induction n generalizing ids with
  | zero =>
    rw [Yields.pure_eq h]
    rfl
  | succ n ih =>
    obtain ⟨id, -, h⟩ := Yields.bind h
    obtain ⟨rest, hrest, rfl⟩ := h.bind_pure
    rw [length_cons, ih hrest]

theorem layer_function {i : Nat} {span : Span} {name : String} {body : List Node} {guard : Option Node}
    (h : Shapes ⟨i, span, .function name params guard body⟩ n') :
    Layer Shapes T ⟨i, span, .function name params guard body⟩ n' := by
  rw [Shapes, shape_function] at h
  obtain ⟨plan, hplan, h⟩ := h.bind
  dsimp only at h
  rw [plan_of_yields hplan] at h
  split at h
  · -- No parameter has a pattern, so a guard that is there stands for itself.
    rename_i hnone
    have htyped : typed params = [] := length_eq_zero_iff.mp hnone
    obtain ⟨params', hparams, h⟩ := h.bind
    obtain ⟨guard', hguard, h⟩ := h.bind
    obtain ⟨body', hbody, rfl⟩ := h.bind_pure
    have hplain : Forall₂ (Unpatterned Shapes) params params' :=
      Kind.forall₂_imp_mem (list_of_yields hparams) fun p hp q hq =>
        .other (template?_eq_none_of_typed htyped hp) hq
    have htests : Forall₂ (IsTest Shapes) (typed params) (([] : List (Span × Node)).map Prod.snd) := by
      rw [htyped]
      exact .nil
    cases option_of_yields hguard with
    | none =>
      show Layer Shapes T _ ⟨i, span, .function name params' (guardOf [] ([] ++ [])) body'⟩
      exact .function hplain htests .nil rfl (list_of_yields hbody)
    | @some g g' hg =>
      show Layer Shapes T _
        ⟨i, span, .function name params' (guardOf [] ([] ++ [(g.span, g')])) body'⟩
      exact .function hplain htests (.cons hg .nil) rfl (list_of_yields hbody)
  · obtain ⟨joins, hjoins, h⟩ := h.bind
    obtain ⟨params', hparams, h⟩ := h.bind
    obtain ⟨terms, hterms, h⟩ := h.bind
    obtain ⟨guard', hguard, h⟩ := h.bind
    obtain ⟨body', hbody, rfl⟩ := h.bind_pure
    have htests := tests_of_yields hplan hterms
    have hexplicit := explicit_of_yields hguard
    refine .function (params_of_yields hparams) htests hexplicit ?_ (list_of_yields hbody)
    have hlengths := And.intro htests.length_eq hexplicit.length_eq
    rw [length_map, length_map] at hlengths
    rw [length_of_drawMany hjoins, length_append, hlengths.1, hlengths.2]

theorem layer_of_shapes {n : Node} (h : Shapes n n') : Layer Shapes Peels n n' := by
  obtain ⟨i, span, k⟩ := n
  by_cases htag : k.tag ∈ [Tag.function, .clause, .pattern, .element]
  · cases k with
    | function name params guard body => exact layer_function h
    | clause patterns body =>
      rw [Shapes, shape_clause] at h
      obtain ⟨wraps, hwraps, h⟩ := h.bind
      obtain ⟨patterns', hpatterns, h⟩ := h.bind
      obtain ⟨body', hbody, rfl⟩ := h.bind_pure
      exact .clause (alternatives_of_yields hwraps hpatterns) (list_of_yields hbody)
    | pattern expr =>
      rw [Shapes, shape_pattern] at h
      split at h
      · rename_i hpattern
        exact .inner (beq_iff_eq.mp hpattern) h
      · rename_i hpattern
        obtain ⟨expr', hexpr, rfl⟩ := h.bind_pure
        exact .pattern (fun htag => hpattern (beq_iff_eq.mpr htag)) hexpr
    | element key value =>
      rw [Shapes, shape_element] at h
      obtain ⟨key', hkey, h⟩ := h.bind
      obtain ⟨value', hvalue, rfl⟩ := h.bind_pure
      exact .element (option_of_yields hkey) hvalue
    | _ => exact absurd htag (by simp [Kind.tag])
  · rw [Shapes, shape_eq ⟨i, span, k⟩ htag] at h
    obtain ⟨k', hk', rfl⟩ := h.bind_pure
    refine .same htag ((Kind.traverse_rel hk').imp (fun _ _ _ h => h) (fun _ _ _ h => h) ?_)
    rintro ns - ns' ⟨mid, hmid, hpure⟩
    rw [hpure.pure_eq]
    exact hmid

theorem shapeTemplate_of_tag {n : Node} (htag : n.tag ≠ .pattern) : shapeTemplate n = shape n := by
  obtain ⟨i, span, k⟩ := n
  cases k with
  | pattern => exact absurd rfl htag
  | _ => rfl

theorem layer_induct (hlayer : ∀ n n', Shapes n n' → Layer S T n n' → S n n')
    (hpeel : ∀ i span expr n', T expr n' → T ⟨i, span, .pattern expr⟩ n')
    (hstay : ∀ n n', n.tag ≠ .pattern → S n n' → T n n') (n : Node) :
    (∀ n', Shapes n n' → S n n') ∧ ∀ n', Peels n n' → T n n' := by
  have hall : n.Everywhere fun m => (∀ m', Shapes m m' → S m m') ∧ ∀ m', Peels m m' → T m m' := by
    induction n using Node.ind with | step n ih => ?_
    have hshape (n' : Node) (h : Shapes n n') : S n n' :=
      hlayer n n' h ((layer_of_shapes h).imp (fun c hc => (ih c hc).here.1)
        (fun c hc d hd => ((ih c hc).child hd).here.1) fun c hc => (ih c hc).here.2)
    refine .mk ⟨hshape, fun n' h => ?_⟩ ih
    by_cases htag : n.tag = .pattern
    · obtain ⟨i, span, k⟩ := n
      cases k with
      | pattern expr => exact hpeel i span expr n' ((ih expr (mem_singleton.mpr rfl)).here.2 n' h)
      | _ => cases htag
    · rw [Peels, shapeTemplate_of_tag htag] at h
      exact hstay n n' htag (hshape n' h)
  exact hall.here

end Motif.Desugar
