import Motif.Proofs.Eval.Overloads
import Motif.Proofs.Pattern.Guards
import Motif.Proofs.Pipeline.Passes
import Motif.Proofs.Scope.Elaborated
import Motif.Proofs.Scope.Redefinitions

/-!
# Overloads of checked programs

Of consecutive definitions of a name that nothing before them declares, the pass over scopes marks all
but the first, whatever patterns their parameters had. So a call of the name is resolved among them,
from the latest to the earliest.
-/

namespace Motif

open Eval Scope Desugar List

variable {code : Code} {d : Node} {i : Nat}

/-! ## The passes -/

theorem runPasses_pattern_scope {t : Tree} (ht : t.Built) (options : Options) :
    ∃ root session, runPasses options [.pattern, .scope] t =
      .ok ({ root, nextId := session.nextId }, session) ∧
      Shapes t.root root ∧ root.ids.Nodup ∧ Records session (moduleTrail options.globals root) := by
  obtain ⟨root, rfl⟩ := ht.exists_root
  obtain ⟨root₁, session₁, hpattern, hintact⟩ := Pass.run_intact .pattern options (Tree.intact root)
  obtain ⟨root₂, session₂, hrun, hshapes⟩ :=
    Pattern.exists_run (Tree.ofRoot root).root (.startingAt (Tree.ofRoot root).nextId)
  cases hrun.symm.trans hpattern
  obtain ⟨-, hkeeps⟩ := Pattern.run_ok hrun
  obtain ⟨session₃, hscope, hrecords⟩ := records_run options hintact.tag (hkeeps (records_startingAt _))
  refine ⟨root₁, session₃, ?_, hshapes, hintact.ids.nodup, hrecords⟩
  unfold runPasses runFrom
  rw [hpattern]
  dsimp only
  unfold runFrom Pass.run
  dsimp only
  rw [hscope]
  rfl

/-! ## Definitions -/

theorem tag_of_unpatterned {params params' : List Node}
    (h : Forall₂ (Unpatterned Shapes) params params') (hparams : ∀ p ∈ params, p.tag = .param) :
    ∀ q ∈ params', q.tag = .param := by
  intro q hq
  obtain ⟨p, hp, hpq⟩ := Kind.exists_of_mem_right h hq
  cases hpq with
  | plain hplain =>
    obtain ⟨i, span, name, template, variadic, rfl, rfl⟩ := plainParam_eq_some hplain
    rfl
  | other _ hshapes => exact (inShape_of_shapes hshapes).tag.trans (hparams p hp)

theorem isDefinition_of_shapes {name : String} {d' : Node} (h : Shapes d d')
    (hd : IsDefinition name d i code) : ∃ code', IsDefinition name d' i code' := by
  obtain ⟨hdefines, hparams⟩ := hd
  cases hdefines with
  | plain =>
    cases guards_of_shapes rfl h with
    | mk hparams' => exact ⟨_, .plain, tag_of_unpatterned hparams' hparams⟩
  | exported =>
    cases layer_of_shapes h with
    | same _ hrel =>
      cases hrel with
      | exported hdecl =>
        cases hdecl with
        | some hf =>
          cases guards_of_shapes rfl hf with
          | mk hparams' => exact ⟨_, .exported, tag_of_unpatterned hparams' hparams⟩

theorem trail_definition {name : String} (h : Defines name d i code) (owner : Nat) :
    ∃ f later, f.id = i ∧ trail d [owner] = .defines f owner name :: later := by
  cases h with
  | @plain i span params guard body =>
    rw [trail_eq]
    exact ⟨⟨i, span, .function name params guard body⟩, _, rfl, rfl⟩
  | @exported i j span span' params guard body =>
    have hexported : trail ⟨j, span', .exported (some ⟨i, span, .function name params guard body⟩) []⟩
        [owner] = trail ⟨i, span, .function name params guard body⟩ [owner] := by
      rw [trail_eq]
      exact append_nil _
    rw [hexported, trail_eq]
    exact ⟨⟨i, span, .function name params guard body⟩, _, rfl, rfl⟩

/-! ## Marks -/

section Marks

variable {session : Session} {root : Node} {globals : List String} {name : String}

theorem isShadow_first {before after : List Node} (hrecords : Records session (moduleTrail globals root))
    (hids : root.ids.Nodup) (hroot : root.kind = .module (before ++ d :: after))
    (hd : Defines name d i code) (hglobals : name ∉ globals) (hbefore : ∀ b ∈ before, name ∉ exposed b) :
    session.annotations.isShadow i = false := by
  obtain ⟨f, later, rfl, htrail⟩ := trail_definition hd root.id
  rw [isShadow_of_module hrecords hids hroot htrail]
  exact declaredIn_trailBefore hids hroot hglobals hbefore

theorem isShadow_later {before between after : List Node} {first : Node} {j : Nat} {code' : Code}
    (hrecords : Records session (moduleTrail globals root)) (hids : root.ids.Nodup)
    (hroot : root.kind = .module (before ++ first :: between ++ d :: after))
    (hfirst : Defines name first j code') (hd : Defines name d i code) :
    session.annotations.isShadow i = true := by
  obtain ⟨f, later, rfl, htrail⟩ := trail_definition hd root.id
  obtain ⟨g, later', -, hg⟩ := trail_definition hfirst root.id
  rw [isShadow_of_module hrecords hids hroot htrail, trailBefore, declaredIn_append_iff]
  refine .inr (any_eq_true.mpr ⟨.defines g root.id name, ?_, beq_self_eq_true _⟩)
  refine mem_flatMap.mpr ⟨first, mem_append_right _ mem_cons_self, ?_⟩
  rw [hg]
  exact mem_cons_self

end Marks

/-! ## Resolution -/

theorem forall₂_append_left {α β : Type} {R : α → β → Prop} {xs ys : List α} {zs : List β}
    (h : Forall₂ R (xs ++ ys) zs) :
    ∃ xs' ys', zs = xs' ++ ys' ∧ Forall₂ R xs xs' ∧ Forall₂ R ys ys' := by
  induction xs generalizing zs with
  | nil => exact ⟨[], zs, rfl, .nil, h⟩
  | cons x xs ih =>
    cases h with
    | cons hx h =>
      obtain ⟨xs', ys', rfl, hxs, hys⟩ := ih h
      exact ⟨_ :: xs', ys', rfl, .cons hx hxs, hys⟩

theorem module_of_shapes {root root' : Node} {body : List Node} (hroot : root.kind = .module body)
    (h : Shapes root root') : ∃ body', root'.kind = .module body' ∧ Forall₂ Shapes body body' := by
  obtain ⟨i, span, k⟩ := root
  cases hroot
  cases layer_of_shapes h with
  | same _ hrel =>
    cases hrel with
    | module hbody => exact ⟨_, rfl, hbody⟩

/-- Consecutive definitions of a name in a module, none of which the module has declared before. After
    the passes the name stands for the latest of them. A call of it with data tries the guards that the
    passes have left, from the latest definition to the first; it runs the body of the first one whose
    guard holds, ends with the error of a guard that fails, and fails if no guard holds. So does a call
    inside a definition, with the definitions up to it. -/
theorem runPasses_resolves_overloads {t : Tree} (ht : t.Built) {options : Options}
    {before defs after : List Node} {name : String}
    (hroot : t.root.kind = .module (before ++ (defs ++ after))) (hne : defs ≠ [])
    (hdefs : ∀ d ∈ defs, ∃ i code, IsDefinition name d i code)
    (hbefore : ∀ b ∈ before, name ∉ exposed b) (hglobals : name ∉ options.globals) :
    ∃ root session before' defs' after',
      runPasses options [.pattern, .scope] t = .ok ({ root, nextId := session.nextId }, session) ∧
      root.kind = .module (before' ++ (defs' ++ after')) ∧ Forall₂ Shapes before before' ∧
      Forall₂ Shapes defs defs' ∧ Forall₂ Shapes after after' ∧
      ∀ host, host.annotations = session.annotations → ∀ env m, ∃ latest overloads m',
        Forall₂ (fun d o => ∃ i, IsDefinition name d i o.1) defs' (latest :: overloads).reverse ∧
        Concludes (fun fuel => block (Rules.upTo host fuel).exec defs' env) m
          (.ok (.next, Dict.set name latest.2 env)) m' ∧
        ∀ overload earlier, overload :: earlier <:+ latest :: overloads → ∀ values m result m',
          Concludes (fun fuel => (Rules.upTo host fuel).call overload.2 (values.map Val.data)) m result m' ↔
            Resolves host name env values (overload :: earlier) m result m' := by
  obtain ⟨root, session, hrun, hshapes, hids, hrecords⟩ := runPasses_pattern_scope ht options
  obtain ⟨body', hroot', hbody⟩ := module_of_shapes hroot hshapes
  obtain ⟨before', rest', rfl, hbefore', hrest⟩ := forall₂_append_left hbody
  obtain ⟨defs', after', rfl, hdefs', hafter'⟩ := forall₂_append_left hrest
  refine ⟨root, session, before', defs', after', hrun, hroot', hbefore', hdefs', hafter', ?_⟩
  intro host hhost env m
  have hconcealed (b' : Node) (hb' : b' ∈ before') : name ∉ exposed b' := by
    obtain ⟨b, hb, h⟩ := Kind.exists_of_mem_right hbefore' hb'
    exact fun hx => hbefore b hb (conceals_of_shapes h hx)
  have hdefined (d' : Node) (hd' : d' ∈ defs') : ∃ i code, IsDefinition name d' i code := by
    obtain ⟨d, hd, h⟩ := Kind.exists_of_mem_right hdefs' hd'
    obtain ⟨i, code, hdefinition⟩ := hdefs d hd
    exact ⟨i, isDefinition_of_shapes h hdefinition⟩
  cases hdefs' with
  | nil => exact absurd rfl hne
  | @cons _ d _ ds hd hds =>
    obtain ⟨⟨i, code, hfirst⟩, hlater⟩ := forall_mem_cons.mp hdefined
    refine exists_overloads hfirst ?_ (fun d' hd' => ?_) env m
    · rw [hhost]
      exact isShadow_first hrecords hids hroot' hfirst.1 hglobals hconcealed
    · obtain ⟨j, code', hdefinition⟩ := hlater d' hd'
      obtain ⟨between, rest, rfl⟩ := append_of_mem hd'
      have hsplit : root.kind = .module (before' ++ d :: between ++ d' :: (rest ++ after')) := by
        rw [hroot']
        simp only [append_assoc, cons_append]
      refine ⟨j, code', hdefinition, ?_⟩
      rw [hhost]
      exact isShadow_later hrecords hids hsplit hfirst.1 hdefinition.1

def limit : Node := ⟨2, .none, .assign (.name "limit") ⟨3, .none, .literal (.string "m")⟩⟩

def sizes : List Node :=
  let returns (i : Nat) (s : String) : Node := ⟨i, .none, .ret ⟨i + 1, .none, .literal (.string s)⟩⟩
  let name (i : Nat) (s : String) : Node := ⟨i, .none, .ident s⟩
  [⟨4, .none, .function "size" [⟨5, .none, .param "v" none true⟩] none [returns 6 "any"]⟩,
    ⟨8, .none, .function "size" [⟨9, .none, .param "v" (some (name 10 "Integer")) false⟩] none
      [returns 11 "whole"]⟩,
    ⟨13, .none, .exported (some ⟨14, .none, .function "size" [⟨15, .none, .param "v" none false⟩]
      (some ⟨16, .none, .binary .gt (name 17 "v") (name 18 "limit")⟩) [returns 19 "large"]⟩) []⟩]

theorem runPasses_resolves_overloads_sizes :
    (Tree.ofBody (limit :: sizes)).root.kind = .module ([limit] ++ (sizes ++ [])) ∧
      (∀ d ∈ sizes, ∃ i code, IsDefinition "size" d i code) ∧ "size" ∉ exposed limit ∧
      "size" ∉ ({} : Options).globals ∧
      ∃ root session defs', runPasses {} [.pattern, .scope] (.ofBody (limit :: sizes)) =
          .ok ({ root, nextId := session.nextId }, session) ∧ Forall₂ Shapes sizes defs' ∧
        ∀ host, host.annotations = session.annotations → ∃ latest overloads m',
          overloads.length = 2 ∧ Concludes (fun fuel => block (Rules.upTo host fuel).exec defs' []) {}
            (.ok (.next, [("size", latest.2)])) m' ∧
          ∀ values m result m',
            Concludes (fun fuel => (Rules.upTo host fuel).call latest.2 (values.map Val.data)) m result
                m' ↔
              Resolves host "size" [] values (latest :: overloads) m result m' := by
  have hdefs : ∀ d ∈ sizes, ∃ i code, IsDefinition "size" d i code :=
    forall_mem_cons.mpr ⟨⟨_, _, .plain, by decide⟩, forall_mem_cons.mpr
      ⟨⟨_, _, .plain, by decide⟩, forall_mem_singleton.mpr ⟨_, _, .exported, by decide⟩⟩⟩
  have hlimit : "size" ∉ exposed limit := by decide
  have hglobals : "size" ∉ ({} : Options).globals := by decide
  refine ⟨rfl, hdefs, hlimit, hglobals, ?_⟩
  obtain ⟨root, session, -, defs', -, hrun, -, -, hshapes, -, hcalls⟩ :=
    runPasses_resolves_overloads (.body (limit :: sizes)) rfl (cons_ne_nil _ _) hdefs
      (forall_mem_singleton.mpr hlimit) hglobals
  refine ⟨root, session, defs', hrun, hshapes, fun host hhost => ?_⟩
  obtain ⟨latest, overloads, m', hdefined, hblock, hresolves⟩ := hcalls host hhost [] {}
  refine ⟨latest, overloads, m', ?_, hblock, hresolves latest overloads suffix_rfl⟩
  have hlength := hshapes.length_eq.trans hdefined.length_eq
  rw [length_reverse, length_cons] at hlength
  exact (Nat.succ.inj hlength).symm

end Motif
