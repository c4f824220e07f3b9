import Motif.Proofs.Pipeline.Generation
import Motif.Proofs.Pipeline.Subjects

/-!
# Context references in generated code

A context reference is compiled to the local of the pattern or element that it belongs to. If no error is
found and no reference stands in the key of an element, the test against the template of the pattern or
element declares that local. Simplification can put another expression in the place of a template, but never
one with references that the template has not had.
-/

namespace Motif

open List
open Pattern (openContexts openContexts_eq openContexts_child opens opens_iff tested? boundaries ends)
open Emit (Bound marked untested)

variable {n n' root : Node} {a : Annotations}

/-! ## Simplified trees -/

namespace Simplify

theorem flatMap_openContexts_subset {ns : List Node} {ids : List Nat} (h : ∀ c ∈ ns, openContexts c ⊆ ids) :
    ns.flatMap openContexts ⊆ ids := by
  intro id hid
  obtain ⟨c, hc, hmem⟩ := mem_flatMap.mp hid
  exact h c hc hmem

theorem compositional_openContexts (ids : List Nat) : Compositional fun n => openContexts n ⊆ ids where
  part htag hn hc := by
    have hopen := (by decide : ∀ t ∈ Tag.exported :: reshapedTags, t ∉ ends) _ htag
    exact fun id hid => hn (openContexts_child hopen hc hid)
  exported i s items := by simp [openContexts_eq, Kind.tag]
  made {i s k} htag hk := by
    obtain ⟨hcontext, hopen⟩ := (by decide : ∀ t ∈ reshapedTags, t ≠ .context ∧ t ∉ ends) _ htag
    rw [openContexts_eq, Node.tag, if_neg hcontext, if_neg hopen]
    exact flatMap_openContexts_subset hk
  returned _ := by simp [openContexts_eq, Kind.tag, ends, Pattern.barriers]

theorem Becomes.openContexts_subset (h : Becomes n n') : openContexts n' ⊆ openContexts n := by
  induction n using Node.ind generalizing n' with | step n ih => ?_
  obtain ⟨k, hrel, hrw⟩ := h.layer
  refine (compositional_openContexts _).rewrite hrw ?_
  have htag : Node.tag ⟨n.id, n.span, k⟩ = n.tag := hrel.tag_eq
  rw [openContexts_eq, htag]
  by_cases hcontext : n.tag = .context
  · rw [openContexts_eq n, if_pos hcontext, if_pos hcontext]
    exact Subset.refl _
  · rw [if_neg hcontext]
    split
    · exact nil_subset _
    · next hopen =>
      refine flatMap_openContexts_subset ((compositional_openContexts _).children hrel fun c hc c' h => ?_)
      exact fun id hid => openContexts_child hopen hc (ih c hc h hid)

theorem Becomes.part_or_id (h : Becomes n n') : (∃ c ∈ n.children, Becomes c n') ∨ n'.id = n.id := by
  obtain ⟨k, hrel, hrw⟩ := h.layer
  obtain ⟨i, span, k₀⟩ := n
  cases hrw with
  | conjLiteral =>
    cases hrel with
    | conj hl hr =>
      split
      · exact .inl ⟨_, mem_cons_of_mem _ mem_cons_self, hr⟩
      · exact .inl ⟨_, mem_cons_self, hl⟩
  | disjLiteral =>
    cases hrel with
    | disj hl hr =>
      split
      · exact .inl ⟨_, mem_cons_self, hl⟩
      · exact .inl ⟨_, mem_cons_of_mem _ mem_cons_self, hr⟩
  | condLiteral =>
    cases hrel with
    | cond hc hx hy =>
      split
      · exact .inl ⟨_, mem_cons_of_mem _ mem_cons_self, hx⟩
      · exact .inl ⟨_, mem_cons_of_mem _ (mem_cons_of_mem _ mem_cons_self), hy⟩
  | _ => exact .inr rfl

theorem Becomes.marked (h : Becomes n n')
    (hn : n.Everywhere fun m => opens m = true → marked a m = true) (hopens : opens n' = true) :
    marked a n' = true := by
  induction n using Node.ind generalizing n' with | step n ih => ?_
  rcases h.part_or_id with ⟨c, hc, hbecomes⟩ | hid
  · exact ih c hc hbecomes (hn.child hc) hopens
  · have hbefore : opens n = true := (opens_iff n).mpr fun hnil =>
      (opens_iff n').mp hopens (subset_nil.mp (hnil ▸ h.openContexts_subset))
    have hmarked := hn.here hbefore
    by_cases hcontext : n.tag = .context
    · obtain ⟨k, hrel, rfl⟩ := h.keeps (hcontext ▸ by decide)
      have htag : Node.tag ⟨n.id, n.span, k⟩ = n.tag := hrel.tag_eq
      simp [Emit.marked, htag, hcontext]
    · rw [Emit.marked, beq_false_of_ne hcontext, Bool.false_or] at hmarked
      rw [Emit.marked, hid, hmarked, Bool.or_true]

end Simplify

/-! ## Bound references -/

theorem mem_children_of_untested {c : Node} (hc : c ∈ untested n) : c ∈ n.children := by
  obtain ⟨i, span, k⟩ := n
  cases k with
  | pattern => cases hc
  | element => exact mem_append_left _ hc
  | _ => exact hc

theorem bound_of_closed (hn : n.tag ∉ boundaries)
    (h : n.tag ∈ ends → ∀ c ∈ n.children, openContexts c = []) : Bound a n where
  closed hend c hc := h hend c (mem_children_of_untested hc)
  reads _ ht := absurd (Pattern.tag_of_tested? ht) hn
  marked _ ht := absurd (Pattern.tag_of_tested? ht) hn

theorem bound_of_open (hn : n.tag ∉ ends) : Bound a n :=
  bound_of_closed (fun h => hn (Pattern.mem_ends.mpr (.inl h))) fun h => absurd h hn

theorem Simplify.compositional_bound : Compositional (Node.Everywhere (Bound a)) where
  toHereditary := hereditary_everywhere fun _ _ _ => bound_of_open (of_decide_eq_true rfl)
  made {i s k} htag hk := .mk (bound_of_open ((by decide : ∀ t ∈ reshapedTags, t ∉ ends) _ htag)) hk
  returned {i s name ps g j t e} h := by
    have hstmt : Node.Everywhere (Bound a) ⟨j, t, .exprStmt e⟩ := h.child (mem_append_right _ mem_cons_self)
    have hclosed {c : Node} (hc : c ∈ ps ++ g.toList ++ [⟨j, t, .exprStmt e⟩]) : openContexts c = [] :=
      h.here.closed (of_decide_eq_true rfl) c hc
    have hret : openContexts ⟨j, t, .ret e⟩ = [] := by
      have hsame : openContexts ⟨j, t, .exprStmt e⟩ = [] := hclosed (by simp)
      rw [openContexts_eq] at hsame ⊢
      exact hsame
    refine .mk (bound_of_closed (of_decide_eq_true rfl) fun _ c hc => ?_) fun c hc => ?_
    · rcases mem_append.mp hc with hc | hc
      · exact hclosed (mem_append_left _ hc)
      · rwa [mem_singleton.mp hc]
    · rcases mem_append.mp hc with hc | hc
      · exact h.child (mem_append_left _ hc)
      · obtain rfl := mem_singleton.mp hc
        exact .mk (bound_of_open (of_decide_eq_true rfl)) fun c hc => hstmt.child hc

theorem Simplify.Becomes.bound (h : Becomes n n')
    (hn : n.Everywhere fun m => Bound a m ∧ (opens m = true → Emit.marked a m = true)) :
    n'.Everywhere (Bound a) := by
  refine compositional_bound.becomes (fun {n n' k} hn _ hrel _ hk => .mk ?_ hk) h hn
  have hbound := hn.here.1
  have hmarked {t t' : Node} (ht : t ∈ n.children) (h : Becomes t t') (hopens : opens t' = true) :
      Emit.marked a t' = true := h.marked ((hn.child ht).imp fun _ hm => hm.2) hopens
  have hclosed {c c' : Node} (hend : n.tag ∈ ends) (hc : c ∈ untested n) (h : Becomes c c') :
      openContexts c' ⊆ [] := hbound.closed hend c hc ▸ h.openContexts_subset
  have hchildren (huntested : untested n = n.children) (hend : n.tag ∈ ends) :
      ∀ c ∈ k.children, openContexts c = [] := fun c hc =>
    subset_nil.mp ((compositional_openContexts []).children hrel
      (fun c hc c' h => hclosed hend (huntested ▸ hc) h) c hc)
  obtain ⟨i, span, k₀⟩ := n
  cases hrel with
  | pattern ht =>
    refine ⟨fun _ => forall_mem_nil _, ?_, ?_⟩
    · rintro _ ⟨⟩ id hid
      exact hbound.reads _ rfl id (ht.openContexts_subset hid)
    · rintro _ ⟨⟩
      exact hmarked mem_cons_self ht
  | element hkey ht =>
    refine ⟨fun hend c hc => ?_, ?_, ?_⟩
    · cases hkey with
      | none => cases hc
      | some hkey => exact mem_singleton.mp hc ▸ subset_nil.mp (hclosed hend mem_cons_self hkey)
    · rintro _ ⟨⟩ id hid
      exact hbound.reads _ rfl id (ht.openContexts_subset hid)
    · rintro _ ⟨⟩
      exact hmarked (by simp) ht
  | _ => exact bound_of_closed (of_decide_eq_true rfl) (hchildren rfl)

/-! ## Checked trees -/

section Visited

variable {s s' : Pattern.State} (h : Pattern.Visits [root] [] s s') (herrors : s'.session.hasErrors = false)

include h herrors

theorem Pattern.Visits.marked :
    root.Everywhere fun m => opens m = true → Emit.marked s'.session.annotations m = true := by
  intro m hm hopens
  obtain ⟨path, hlocated⟩ := exists_located hm
  cases howner : owner? path with
  | none => exact absurd (h.openContexts_eq_nil herrors hlocated howner) ((opens_iff m).mp hopens)
  | some f =>
    obtain ⟨hcontext, hlocal⟩ := h.context_eq hlocated hopens howner
    rw [Emit.marked, has_patternContext, show s'.session.annotations.context? m.id = _ from hcontext, hlocal,
      Bool.or_true]

theorem Pattern.Visits.bound (hkeys : root.Everywhere Desugar.KeyClosed) :
    root.Everywhere (Bound s'.session.annotations) := by
  intro n hn
  obtain ⟨path, hlocated⟩ := exists_located hn
  by_cases hboundary : n.tag ∈ boundaries
  · have howner : owner? (n.frame :: path) = some n.frame := by
      rw [owner?_cons, Node.frame_tag, if_pos hboundary]
    refine ⟨fun _ c hc => ?_, fun t ht id hid => ?_, fun t ht => ?_⟩
    · have hkeys := hkeys n hn
      obtain ⟨i, span, k⟩ := n
      cases k with
      | pattern => cases hc
      | element => exact Pattern.openContexts_eq_nil (hkeys c hc)
      | _ => exact absurd hboundary (of_decide_eq_true rfl)
    · obtain ⟨x, hx, htag, rfl, hsame⟩ := exists_of_mem_openContexts hid (n.frame :: path)
      have hx := located_trans (located_child hlocated (mem_children_of_tested? ht)) hx
      refine (h.context_eq hx ?_ (hsame.trans howner)).1
      rw [opens_eq, htag]
      rfl
    · exact (h.marked herrors).everywhere n hn |>.child (mem_children_of_tested? ht) |>.here
  · refine bound_of_closed hboundary fun hend c hc =>
      h.openContexts_eq_nil herrors (located_child hlocated hc) ?_
    rw [owner?_cons, Node.frame_tag, if_neg hboundary, if_pos ((mem_ends.mp hend).resolve_left hboundary)]

end Visited

theorem Scope.Spares.everywhere_bound {s s' : Session} (h : Spares s s')
    (hn : n.Everywhere (Bound s.annotations)) : n.Everywhere (Bound s'.annotations) := by
  refine hn.imp fun m hm => ⟨hm.closed, fun t ht id hid => ?_, fun t ht hopens => ?_⟩
  · rw [h.contexts, h.locals]
    exact hm.reads t ht id hid
  · have hmarked := hm.marked t ht hopens
    rw [marked, Pattern.has_patternContext] at hmarked ⊢
    rwa [h.contexts]

/-! ## Generated code -/

namespace Emit

/-- A local of a pattern may be used where a function around declares it. A name of the host can have the id of
    a local. -/
def LocalDeclared (options : Options) (scopes : Script.Scopes) (id : String) : Prop :=
  ∀ l, id = patternLocal l →
    (∃ scope ∈ scopes, id ∈ scope) ∨ ∃ name ∈ options.globals, id = Constants.importId name

def boundOnly (setting : Setting) : Premises := { namesOnly False setting with bound := True }

theorem locals_declared {setting : Setting} (hmodule : root.tag = .module)
    (hbound : root.Everywhere (Bound setting.annotations)) (hclosed : openContexts root = [])
    {e : Script.Expr} {imports : List String} {s : State}
    (hrun : Emits setting (program root) {} (e, imports) s) :
    e.Respects (LocalDeclared setting.options) [] := by
  have hmakes (n : Node) (hn : n ∈ root.children) : (boundOnly setting).Makes (compile n) (compile n) := by
    have hopen : openContexts n ⊆ [] := hclosed ▸ openContexts_child (hmodule ▸ by decide) hn
    have hgrants : (boundOnly setting).Grants n [] :=
      ⟨False.elim, False.elim, False.elim, fun _ _ _ _ => trivial, fun _ => hbound.child hn,
        fun _ id hid => absurd (hopen hid) not_mem_nil⟩
    exact makes_compile_self n hgrants nofun
  have hfits := (programBy_does (boundOnly setting) hmakes).2
  dsimp only [boundOnly, namesOnly] at hfits
  rw [hrun] at hfits
  have htransports : Script.Transports Eq (boundOnly setting).Allows (LocalDeclared setting.options) := by
    refine ⟨fun _ heq => congrArg _ heq, ?_⟩
    rintro scopes _ id rfl hallows l hl
    exact (hallows.2 l hl trivial).imp_right fun h => h.resolve_left False.elim
  exact Script.fits_transport htransports (fun _ _ => trivial) e rfl hfits.1

end Emit

/-- If no error is found in a program without context references in keys, every local of a pattern that the
    generated code uses is declared, to be set or as a parameter, by the function it is used in or by one
    around that. -/
theorem contexts_declared {t : Tree} (ht : t.Built) (hkeys : t.root.Everywhere Desugar.KeyClosed)
    {options : Options} {tree : Tree} {session : Session}
    (hrun : runPasses options [.pattern, .simplify, .scope] t = .ok (tree, session))
    (herrors : session.hasErrors = false) (emitOptions : Options) (m : Emit.GeneratedModule)
    (hgenerate : Emit.generate emitOptions session.annotations tree.root = .ok m) :
    ∃ e : Script.Expr, m.text = e.text emitOptions.indent ∧
      e.Respects (Emit.LocalDeclared emitOptions) [] := by
  obtain ⟨root₁, _, s, nextId, hshape, hvisits, hclean, hbecomes, hmodule, hspares⟩ :=
    runPasses_usual ht hrun herrors
  have hbound := hvisits.bound hclean ((Desugar.rekeyed_of_shapes hshape).keys hkeys)
  have hmarked := hvisits.marked hclean
  have hafter := hspares.everywhere_bound (hbecomes.bound fun m hm => ⟨hbound m hm, hmarked m hm⟩)
  have hlocated : ([], root₁) ∈ root₁.located [] := by
    rw [Node.located_eq]
    exact mem_cons_self
  have hclosed : openContexts tree.root = [] :=
    subset_nil.mp (hvisits.openContexts_eq_nil hclean hlocated rfl ▸ hbecomes.openContexts_subset)
  unfold Emit.generate at hgenerate
  cases hprogram : ((Emit.program tree.root).run
    { options := emitOptions, annotations := session.annotations }).run {} with
  | error e =>
    rw [hprogram] at hgenerate
    cases hgenerate
  | ok result =>
    rw [hprogram] at hgenerate
    cases hgenerate
    exact ⟨result.1.1, rfl, Emit.locals_declared hmodule hafter hclosed hprogram⟩

theorem nestingBody_generates :
    (runPasses touringOptions [.pattern, .simplify, .scope] (.ofBody nestingBody)).toOption.any (fun result =>
      !result.2.hasErrors &&
        (Emit.generate touringOptions result.2.annotations result.1.root).toOption.isSome) = true := by
  decide +kernel

theorem contexts_declared_nesting :
    (Tree.ofBody nestingBody).root.Everywhere Desugar.KeyClosed ∧ ∃ tree session m e,
      runPasses touringOptions [.pattern, .simplify, .scope] (.ofBody nestingBody) = .ok (tree, session) ∧
      session.hasErrors = false ∧ Emit.generate touringOptions session.annotations tree.root = .ok m ∧
      m.text = Script.Expr.text touringOptions.indent e ∧
        e.Respects (Emit.LocalDeclared touringOptions) [] := by
  have hkeys : (Tree.ofBody nestingBody).root.Everywhere Desugar.KeyClosed := by decide
  obtain ⟨tree, session, hrun, -⟩ :=
    runPasses_intact (.body nestingBody) touringOptions [.pattern, .simplify, .scope]
  have hgenerates := nestingBody_generates
  rw [hrun] at hgenerates
  simp only [Except.toOption, Option.any_some, Bool.and_eq_true, Bool.not_eq_true'] at hgenerates
  obtain ⟨herrors, hok⟩ := hgenerates
  cases hgenerate : Emit.generate touringOptions session.annotations tree.root with
  | error e =>
    rw [hgenerate] at hok
    cases hok
  | ok m =>
    obtain ⟨e, htext, hrespects⟩ :=
      contexts_declared (.body nestingBody) hkeys hrun herrors touringOptions m hgenerate
    exact ⟨hkeys, tree, session, m, e, hrun, herrors, hgenerate, htext, hrespects⟩

/-- A test of `null` against an object pattern whose key is a context reference. -/
def referringKeyBody : List Node :=
  let element : Node := .ofKind (.element (some (.ofKind .context)) (.ofKind (.literal (.bool true))))
  [.ofKind (.ret (.ofKind (.call (.ofKind (.pattern (.ofKind (.objectPattern [element]))))
    [.ofKind (.literal .null)])))]

/-- A reference in a key reads a local that no function declares. -/
theorem contexts_not_declared :
    (runPasses {} [.pattern, .simplify, .scope] (.ofBody referringKeyBody)).toOption.any (fun result =>
      !result.2.hasErrors &&
        (Emit.generate {} result.2.annotations result.1.root).toOption.map Emit.GeneratedModule.text ==
          some ("(function ($r) \x7b\n  \"use strict\";\n  const $isObject = $r.isObject;\n" ++
            "  return function ($c, $x) \x7b\n    let $p0;\n" ++
            "    return ($p0 = null, $isObject($p0) && ($p0[$p1] === true));\n  \x7d;\n\x7d)")) = true := by
  decide +kernel

end Motif
