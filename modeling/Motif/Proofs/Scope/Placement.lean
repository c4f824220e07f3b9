import Motif.Proofs.Pattern.New

/-!
# Programs that run from top to bottom

In a tree without branches, in which statements stand in lists of statements only, whatever is met
before a node on the way through the tree has been run before it. `InOrder` says of one node that its
children are in their places, and `Ordered` of a whole tree. Bringing patterns into shape moves the
patterns of parameters into guards and leaves a tree ordered.
-/

namespace Motif

open List

variable {n : Node}

namespace Kind

variable {α : Type}

/-- The children that stand neither in a list of statements, assignments or ranges, nor as an exported
    declaration. -/
def operands : Kind α → List α
  | .module _ => []
  | .declare _ => []
  | .branch condition _ _ => [condition]
  | .loop .. => []
  | .function _ params guard _ => params ++ guard.toList
  | .exported .. => []
  | .reduce .. => []
  | .choose value clauses _ => value :: clauses
  | .clause patterns _ => patterns
  | .doBlock _ => []
  | .generator _ => []
  | k => k.children

/-- The children in the place of assignments: those of a declaration, and accumulators. -/
def assignments : Kind α → List α
  | .declare assignments => assignments
  | .reduce accumulators _ _ => accumulators
  | _ => []

def decl? : Kind α → Option α
  | .exported decl _ => decl
  | _ => none

def loopElse : Kind α → List α
  | .loop _ _ elseBody => elseBody
  | _ => []

section Map

variable {β : Type} (f : α → β) (k : Kind α)

@[simp]
theorem operands_map : (k.map f).operands = k.operands.map f := by
  cases k <;> simp [map, operands, children, Option.toList_map]

end Map

theorem mem_children_of_mem_operands {a : α} {k : Kind α} (h : a ∈ k.operands) : a ∈ k.children := by
  cases k with
  | function | choose => simp only [operands, children, mem_cons, mem_append] at *; grind
  | _ => simp_all [operands, children]

end Kind

namespace Scope

def statementTags : List Tag :=
  [.declare, .assign, .branch, .loop, .ret, .exprStmt, .function, .importAll, .importFrom, .exported]

/-- The nodes that declare names in the scope around them, now or with what is below them. -/
def declaringTags : List Tag := statementTags ++ [.range, .clause]

/-- The children of a node, given by their tags, are in their places. None of the `misplaced` tags is
    the tag of an operand. Only a range can be run in the place of a range, so that place needs no
    rule. -/
structure InOrder (misplaced : List Tag) (k : Kind Tag) : Prop where
  noBranch : k.tag ≠ .branch
  noChoice : k.tag ≠ .choose
  operands : ∀ t ∈ k.operands, t ∉ misplaced
  assignments : ∀ t ∈ k.assignments, t = .assign
  exported : ∀ t ∈ k.decl?, t ∈ [Tag.declare, .assign, .function]
  noElse : k.loopElse = []

instance (misplaced : List Tag) (k : Kind Tag) : Decidable (InOrder misplaced k) :=
  decidable_of_iff
    (k.tag ≠ .branch ∧ k.tag ≠ .choose ∧ (∀ t ∈ k.operands, t ∉ misplaced) ∧
      (∀ t ∈ k.assignments, t = .assign) ∧
      (∀ t ∈ k.decl?, t ∈ [Tag.declare, .assign, .function]) ∧ k.loopElse = [])
    ⟨fun ⟨h₁, h₂, h₃, h₄, h₅, h₆⟩ => ⟨h₁, h₂, h₃, h₄, h₅, h₆⟩,
      fun ⟨h₁, h₂, h₃, h₄, h₅, h₆⟩ => ⟨h₁, h₂, h₃, h₄, h₅, h₆⟩⟩

def Placed (misplaced : List Tag) (n : Node) : Prop :=
  n.Everywhere fun m => InOrder misplaced (m.kind.map Node.tag)

instance (misplaced : List Tag) (n : Node) : Decidable (Placed misplaced n) :=
  inferInstanceAs (Decidable (n.Everywhere fun m => InOrder misplaced (m.kind.map Node.tag)))

/-- A tree in which what declares names stands only where it is run in order. -/
abbrev Ordered (n : Node) : Prop := Placed declaringTags n

def IsOperand (n : Node) : Prop := Ordered n ∧ n.tag ∉ declaringTags

theorem isOperand_of_mem {c : Node} (h : Ordered n) (hc : c ∈ n.kind.operands) : IsOperand c := by
  refine ⟨h.child (Kind.mem_children_of_mem_operands hc), h.here.operands c.tag ?_⟩
  rw [Kind.operands_map]
  exact mem_map_of_mem hc

def scopeIds (n : Node) : List Nat := (n.preorder.filter fun m => m.tag.isScopeContainer).map Node.id

theorem scopeIds_eq (n : Node) :
    scopeIds n = (if n.tag.isScopeContainer then [n.id] else []) ++ n.children.flatMap scopeIds := by
  unfold scopeIds
  rw [Node.preorder_eq, filter_cons, filter_flatMap]
  split <;> simp [map_flatMap]

end Scope

namespace Desugar

open Scope

variable {k : Kind Node} {span : Span} {n' : Node} {i : Nat}

/-! ## Bringing patterns into shape -/

structure Shaped (n n' : Node) : Prop where
  tag : n'.tag = n.tag
  ordered : Ordered n → Ordered n'

def AsOperands (ns ns' : List Node) : Prop := (∀ n ∈ ns, IsOperand n) → ∀ n ∈ ns', IsOperand n

theorem map_tag_eq {ns ns' : List Node} (h : Forall₂ Shaped ns ns') :
    ns.map Node.tag = ns'.map Node.tag := by
  induction h with
  | nil => rfl
  | cons hn _ ih => rw [map_cons, map_cons, hn.tag, ih]

theorem Shaped.of_rel {k' : Kind Node} (h : k.Rel Shaped Shaped (Forall₂ Shaped) k') :
    Shaped ⟨i, span, k⟩ ⟨i, span, k'⟩ where
  tag := h.tag_eq
  ordered hordered := by
    have hmap : k.map Node.tag = k'.map Node.tag :=
      (h.imp (fun _ _ _ hn => hn.tag.symm) (fun _ _ _ hn => hn.tag.symm)
        fun _ _ _ hns => map_tag_eq hns).map_eq
    refine .mk ?_ fun c' hc' => ?_
    · exact hmap ▸ hordered.here
    · obtain ⟨c, hc, hn⟩ := Kind.exists_of_mem_right h.forall₂_children hc'
      exact hn.ordered (hordered.child hc)

namespace AsOperands

variable {ns ns' ms ms' : List Node}

theorem of_subset (h : ns' ⊆ ns) : AsOperands ns ns' := fun hn n hmem => hn n (h hmem)

theorem trans (h : AsOperands ns ns') (h' : AsOperands ns' ms) : AsOperands ns ms := fun hn => h' (h hn)

theorem append (h : AsOperands ns ns') (h' : AsOperands ms ms') : AsOperands (ns ++ ms) (ns' ++ ms') := by
  intro hn
  rw [forall_mem_append] at hn ⊢
  exact ⟨h hn.1, h' hn.2⟩

end AsOperands

theorem Shaped.asOperand (h : Shaped n n') : AsOperands [n] [n'] := by
  intro hn m hm
  rw [mem_singleton.mp hm]
  have hoperand := hn n mem_cons_self
  exact ⟨h.ordered hoperand.1, h.tag ▸ hoperand.2⟩

theorem ordered_of_operands (hk : k.tag ∈ [Tag.pattern, .call, .conj, .element, .param, .function, .clause])
    (hoperands : ∀ c ∈ k.operands, c.tag ∉ declaringTags) (hchildren : ∀ c ∈ k.children, Ordered c) :
    Ordered ⟨i, span, k⟩ := by
  have htags : ∀ t ∈ (k.map Node.tag).operands, t ∉ declaringTags := by
    intro t ht
    rw [Kind.operands_map] at ht
    obtain ⟨c, hc, rfl⟩ := mem_map.mp ht
    exact hoperands c hc
  refine .mk ?_ hchildren
  cases k with
  | pattern | call | conj | element | param | function | clause =>
    refine ⟨?_, ?_, htags, ?_, ?_, rfl⟩ <;> simp [Kind.map, Kind.tag, Kind.assignments, Kind.decl?]
  | _ => exact absurd hk (by simp [Kind.tag])

theorem Shaped.of_operands {k' : Kind Node} {body body' : List Node}
    (hk : k'.tag ∈ [Tag.pattern, .call, .conj, .element, .param, .function, .clause])
    (htag : k'.tag = k.tag) (hchildren : k.children = k.operands ++ body)
    (hchildren' : k'.children = k'.operands ++ body') (hoperands : AsOperands k.operands k'.operands)
    (hbody : Forall₂ Shaped body body') : Shaped ⟨i, span, k⟩ ⟨i, span, k'⟩ where
  tag := htag
  ordered h := by
    have hnew := hoperands fun c hc => isOperand_of_mem h hc
    refine ordered_of_operands hk (fun c hc => (hnew c hc).2) fun c hc => ?_
    rw [hchildren', mem_append] at hc
    rcases hc with hc | hc
    · exact (hnew c hc).1
    · obtain ⟨b, hb, hshaped⟩ := Kind.exists_of_mem_right hbody hc
      refine hshaped.ordered (h.child ?_)
      rw [Node.children, hchildren]
      exact mem_append_right _ hb

theorem asOperands_node (hk : k.tag ∈ [Tag.pattern, .call, .conj]) : AsOperands k.children [⟨i, span, k⟩] := by
  intro hn m hm
  rw [mem_singleton.mp hm]
  have htags : ∀ t ∈ [Tag.pattern, .call, .conj], t ∉ declaringTags ∧
      t ∈ [Tag.pattern, .call, .conj, .element, .param, .function, .clause] := by decide
  refine ⟨ordered_of_operands (htags _ hk).2 (fun c hc => ?_) fun c hc => (hn c hc).1, (htags _ hk).1⟩
  exact (hn c (Kind.mem_children_of_mem_operands hc)).2

theorem asOperands_wraps {t t' : Node} (h : Wraps Shaped t t') : AsOperands [t] [t'] := by
  cases h with
  | already htag h => exact h.asOperand
  | @around i span _ t' htag h =>
    exact h.asOperand.trans (asOperands_node (k := .pattern t') (by simp [Kind.tag]))

theorem asOperands_forall₂ {R : Node → Node → Prop} {ns ns' : List Node}
    (hR : ∀ m m', R m m' → AsOperands [m] [m']) (h : Forall₂ R ns ns') : AsOperands ns ns' := by
  intro hns m' hm'
  obtain ⟨m, hm, hmm'⟩ := Kind.exists_of_mem_right h hm'
  exact hR m m' hmm' (forall_mem_singleton.mpr (hns m hm)) m' mem_cons_self

/-! ### Parameters and guards -/

theorem asOperands_conjoin (left : Node) (span : Span) (ids : List Nat) (terms : List (Span × Node)) :
    AsOperands (left :: terms.map Prod.snd) [conjoin left span ids terms] := by
  induction terms generalizing left span ids with
  | nil =>
    have hleft : conjoin left span ids [] = left := by cases ids <;> rfl
    rw [hleft]
    exact fun h => h
  | cons term terms ih =>
    obtain ⟨other, right⟩ := term
    cases ids with
    | nil => exact .of_subset (by simp [conjoin])
    | cons id ids =>
      let node : Node := ⟨id, span.merge other, .conj left right⟩
      have hnode : AsOperands [left, right] [node] :=
        asOperands_node (k := .conj left right) (by simp [Kind.tag])
      have hrest : AsOperands (terms.map Prod.snd) (terms.map Prod.snd) := fun h => h
      exact (hnode.append hrest).trans (ih node (span.merge other) ids)

theorem asOperands_guardOf (ids : List Nat) (terms : List (Span × Node)) :
    AsOperands (terms.map Prod.snd) (guardOf ids terms).toList := by
  cases terms with
  | nil => exact fun h => h
  | cons term terms => exact asOperands_conjoin term.2 term.1 ids terms

theorem asOperands_termFor (ids : TermIds) (span : Span) (name : String) (pattern : Node) :
    AsOperands [pattern] [termFor ids span name pattern] := by
  let argument : Node := ⟨ids.argument, span, .ident name⟩
  have hargument : IsOperand argument := by
    refine ⟨.mk ?_ fun c hc => ?_, of_decide_eq_true rfl⟩
    · exact of_decide_eq_true rfl
    · cases hc
  intro hpattern
  refine asOperands_node (k := .call pattern [argument]) (by simp [Kind.tag]) ?_
  exact forall_mem_cons.mpr ⟨hpattern pattern mem_cons_self,
    forall_mem_singleton.mpr hargument⟩

theorem asOperands_unpatterned {p q : Node} (h : Unpatterned Shaped p q) : AsOperands [p] [q] := by
  cases h with
  | plain h =>
    obtain ⟨i, span, name, template, variadic, rfl, rfl⟩ := plainParam_eq_some h
    refine fun _ => forall_mem_singleton.mpr ⟨ordered_of_operands (by simp [Kind.tag]) ?_ ?_, ?_⟩
    · exact forall_mem_nil _
    · exact forall_mem_nil _
    · exact of_decide_eq_true rfl
  | other hnone h => exact h.asOperand

theorem asOperands_test {p term : Node} (h : IsTest Shaped p term) : AsOperands [p] [term] := by
  cases h with
  | @mk i span name template pattern variadic ids h =>
    have htemplate : AsOperands [⟨i, span, .param name (some template) variadic⟩] [template] := by
      intro hn
      exact forall_mem_singleton.mpr (isOperand_of_mem (hn _ mem_cons_self).1 (mem_singleton.mpr rfl))
    exact (htemplate.trans (asOperands_wraps h)).trans (asOperands_termFor ids span name pattern)

/-! ### Whole trees -/

theorem shaped_of_layer (h : Layer Shaped (fun m m' => AsOperands [m] [m']) n n') : Shaped n n' := by
  have hasOperand (m m' : Node) (h : Shaped m m') : AsOperands [m] [m'] := h.asOperand
  cases h with
  | same htag h => exact .of_rel h
  | pattern htag h => exact .of_rel (.pattern h)
  | @function _ _ _ params _ _ _ _ _ tests explicit hparams htests hexplicit hjoins hbody =>
    refine .of_operands (by simp [Kind.tag]) rfl rfl rfl ?_ hbody
    have htests := asOperands_forall₂ (fun _ _ => asOperands_test) htests
    have hexplicit := asOperands_forall₂ hasOperand hexplicit
    intro h
    obtain ⟨hps, hguard⟩ := forall_mem_append.mp h
    refine forall_mem_append.mpr ⟨asOperands_forall₂ (fun _ _ => asOperands_unpatterned) hparams hps, ?_⟩
    refine asOperands_guardOf _ _ ?_
    rw [map_append]
    exact forall_mem_append.mpr ⟨htests fun p hp => hps p (mem_of_mem_typed hp), hexplicit hguard⟩
  | clause hpatterns hbody =>
    refine .of_operands (by simp [Kind.tag]) rfl rfl rfl ?_ hbody
    exact asOperands_forall₂ (fun _ _ => asOperands_wraps) hpatterns
  | inner hpattern h =>
    refine ⟨h.tag.trans hpattern, fun hordered => ?_⟩
    exact h.ordered (hordered.child (mem_singleton.mpr rfl))
  | element hkey hvalue =>
    refine .of_operands (by simp [Kind.tag]) rfl (append_nil _).symm (append_nil _).symm
      (.append ?_ hvalue) .nil
    cases hkey with
    | none => exact fun h => h
    | some hk => exact hk.asOperand

theorem shaped_of_shapes (h : Shapes n n') : Shaped n n' := by
  refine (layer_induct (fun _ _ _ => shaped_of_layer) (fun i span expr m hexpr hoperand => ?_)
    (fun _ _ _ hshape => hshape.asOperand) n).1 n' h
  -- A pattern that is taken off was an operand, and so is what it was around.
  refine hexpr (forall_mem_singleton.mpr ?_)
  exact isOperand_of_mem (hoperand _ mem_cons_self).1 (mem_singleton.mpr rfl)

end Desugar

end Motif
