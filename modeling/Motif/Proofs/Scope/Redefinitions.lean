import Mathlib.Data.List.Flatten
import Motif.Proofs.Pattern.Layers
import Motif.Proofs.Scope.Lexical
import Motif.Proofs.Tree.Identity

/-!
# Which functions are redefinitions

A function is marked as a redefinition if its scope has declared its name before, and ids tell functions
apart, so whether a function is marked is decided by the part of the trail that is before it. What the
statements of a module declare in the scope of the module is what they expose: the names that a
statement declares itself, and those that its parts declare outside of any scope of their own. Bringing
a tree into shape exposes nothing new.
-/

namespace Motif

open List

variable {n : Node}

namespace Scope

variable {name x : String} {earlier es later : List Event} {globals : List String} {f root : Node}
  {owner : Nat}

/-! ## Exposed names -/

/-- The names that a node and its parts declare in the scope around the node. -/
def exposed : Node → List String :=
  Node.fold fun n below => ownNames n ++ if n.tag.isScopeContainer then [] else below.children.flatten

theorem exposed_eq (n : Node) :
    exposed n = ownNames n ++ if n.tag.isScopeContainer then [] else n.children.flatMap exposed := by
  rw [exposed, Node.fold_eq, ← exposed, Kind.children_map, ← flatMap_def]
  rfl

theorem mem_exposed_of_own (hx : x ∈ ownNames n) : x ∈ exposed n := by
  rw [exposed_eq]
  exact mem_append_left _ hx

theorem mem_exposed_of_child {c : Node} (hscope : n.tag.isScopeContainer = false) (hc : c ∈ n.children)
    (hx : x ∈ exposed c) : x ∈ exposed n := by
  rw [exposed_eq, hscope, if_neg Bool.false_ne_true]
  exact mem_append_right _ (mem_flatMap.mpr ⟨c, hc, hx⟩)

theorem trail_exposes {around : List Nat} (h : declaredIn (trail n around) owner x = true) :
    owner ∈ scopeIds n ∨ around.head? = some owner ∧ x ∈ exposed n :=
  trail_induct (P := (x ∈ exposed ·)) (fun _ hx => mem_exposed_of_own hx)
    (fun _ hscope _ hc hx => mem_exposed_of_child hscope hc hx) n around h

/-! ## Functions on the trail -/

def Event.functionId? : Event → Option Nat
  | .defines f _ _ => some f.id
  | _ => none

def functionIds (es : List Event) : List Nat := es.filterMap Event.functionId?

theorem functionIds_append (es es' : List Event) :
    functionIds (es ++ es') = functionIds es ++ functionIds es' := filterMap_append

theorem functionIds_announced (n : Node) (around : List Nat) :
    (functionIds (announced n around)).Sublist [n.id] := by
  obtain ⟨i, span, k⟩ := n
  cases k with
  | function => cases around <;> simp [announced, functionIds, Event.functionId?]
  | exported decl items =>
    have hitems : functionIds (announced ⟨i, span, .exported decl items⟩ around) = [] := by
      rw [announced, functionIds, filterMap_map]
      exact filterMap_eq_nil_iff.mpr fun _ _ => rfl
    rw [hitems]
    exact nil_sublist _
  | _ => exact nil_sublist _

theorem functionIds_trail (n : Node) (around : List Nat) : (functionIds (trail n around)).Sublist n.ids := by
  induction n using Node.ind generalizing around with
  | step n ih =>
    rw [functionIds, filterMap_trail fun _ _ => rfl, Node.ids_eq]
    refine (functionIds_announced n around).append (.trans ?_ ((visited_sublist n).flatMap _))
    exact List.Sublist.flatMap_right _ fun c hc => ih c ((visited_sublist n).subset hc) _

/-! ## Marks -/

theorem mem_findings_iff {α : Type} {test : List Event → Event → Option α} {a : α} :
    a ∈ findings test es ↔ ∃ earlier e later, es = earlier ++ e :: later ∧ test earlier e = some a := by
  unfold findings
  rw [mem_filterMap]
  constructor
  · rintro ⟨⟨e, i⟩, hmem, htest⟩
    have hget : es[i]? = some e := mem_zipIdx_iff_getElem?.mp hmem
    obtain ⟨hi, he⟩ := List.getElem?_eq_some_iff.mp hget
    refine ⟨es.take i, e, es.drop (i + 1), ?_, htest⟩
    rw [← he, getElem_cons_drop, take_append_drop]
  · rintro ⟨earlier, e, later, rfl, htest⟩
    refine ⟨(e, earlier.length), ?_, ?_⟩
    · rw [mem_zipIdx_iff_getElem?]
      simp
    · dsimp only
      rw [take_left]
      exact htest

theorem mem_redefined_iff : (f, name) ∈ redefined es ↔
      ∃ earlier owner later, es = earlier ++ .defines f owner name :: later ∧
        declaredIn earlier owner name = true := by
  unfold redefined
  rw [mem_findings_iff]
  constructor
  · rintro ⟨earlier, e, later, rfl, h⟩
    cases e with
    | defines g owner x =>
      rw [Event.redefined?] at h
      split at h
      · cases h
        exact ⟨earlier, owner, later, rfl, by assumption⟩
      · cases h
    | _ => cases h
  · rintro ⟨earlier, owner, later, rfl, h⟩
    exact ⟨earlier, _, later, rfl, if_pos h⟩

theorem mem_functionIds_of_defines (h : .defines f owner name ∈ es) : f.id ∈ functionIds es :=
  mem_filterMap.mpr ⟨_, h, rfl⟩

theorem earlier_unique {earlier' later' : List Event} {g : Node} {o o' : Nat} {x' : String}
    (heq : earlier' ++ .defines g o' x' :: later' = earlier ++ .defines f o x :: later)
    (hids : (functionIds (earlier ++ .defines f o x :: later)).Nodup) (hid : g.id = f.id) :
    earlier' = earlier ∧ o' = o ∧ x' = x := by
  rw [functionIds_append, nodup_append'] at hids
  obtain ⟨-, hlater, hearlier⟩ := hids
  have hnotEarlier : f.id ∉ functionIds earlier := fun h =>
    hearlier h (mem_functionIds_of_defines mem_cons_self)
  have hnotLater : f.id ∉ functionIds later := (nodup_cons.mp hlater).1
  rcases append_eq_append_iff.mp heq with ⟨as, hsplit, hrest⟩ | ⟨as, hsplit, hrest⟩
  · cases as with
    | nil =>
      cases hrest
      exact ⟨(append_nil _ ▸ hsplit).symm, rfl, rfl⟩
    | cons e as =>
      cases hrest
      have hmem : Event.defines g o' x' ∈ earlier := hsplit ▸ mem_append_right _ mem_cons_self
      exact absurd (hid ▸ mem_functionIds_of_defines hmem) hnotEarlier
  · cases as with
    | nil =>
      cases hrest
      exact ⟨hsplit.trans (append_nil _), rfl, rfl⟩
    | cons e as =>
      cases hrest
      have hmem : Event.defines g o' x' ∈ as ++ .defines g o' x' :: later' := mem_append_right _ mem_cons_self
      exact absurd (hid ▸ mem_functionIds_of_defines hmem) hnotLater

theorem Records.isShadow_eq {s : Session} (h : Records s (earlier ++ .defines f owner name :: later))
    (hids : (functionIds (earlier ++ .defines f owner name :: later)).Nodup) :
    s.annotations.isShadow f.id = declaredIn earlier owner name := by
  rw [h.marked, Bool.eq_iff_iff, any_eq_true]
  constructor
  · rintro ⟨⟨g, x⟩, hmem, hid⟩
    obtain ⟨earlier', owner', later', heq, hdeclared⟩ := mem_redefined_iff.mp hmem
    obtain ⟨rfl, rfl, rfl⟩ := earlier_unique heq.symm hids (eq_of_beq hid)
    exact hdeclared
  · intro hdeclared
    exact ⟨(f, name), mem_redefined_iff.mpr ⟨earlier, owner, later, rfl, hdeclared⟩, beq_self_eq_true _⟩

/-! ## Marks in a module -/

theorem trail_module {body : List Node} (hroot : root.kind = .module body) :
    trail root [] = body.flatMap fun n => trail n [root.id] := by
  obtain ⟨i, span, k⟩ := root
  cases hroot
  rw [trail_eq]
  show ((Kind.map trail (.module body)).children.flatMap fun trail => trail [i]) = _
  rw [Kind.children_map, flatMap_map]
  rfl

def trailBefore (globals : List String) (root : Node) (before : List Node) : List Event :=
  globals.map (.declares root.id) ++ before.flatMap fun n => trail n [root.id]

theorem isShadow_of_module {s : Session} {d : Node} {before after : List Node}
    (h : Records s (moduleTrail globals root)) (hids : root.ids.Nodup)
    (hroot : root.kind = .module (before ++ d :: after))
    (hd : trail d [root.id] = .defines f root.id name :: later) :
    s.annotations.isShadow f.id = declaredIn (trailBefore globals root before) root.id name := by
  have htrail : moduleTrail globals root = trailBefore globals root before ++
      .defines f root.id name :: (later ++ after.flatMap fun n => trail n [root.id]) := by
    rw [moduleTrail, trail_module hroot, flatMap_append, flatMap_cons, hd, trailBefore]
    simp only [append_assoc, cons_append]
  have hfunctions : (functionIds (moduleTrail globals root)).Nodup := by
    rw [functionIds, filterMap_moduleTrail fun _ _ => rfl]
    exact (functionIds_trail root []).nodup hids
  rw [htrail] at h hfunctions
  exact h.isShadow_eq hfunctions

theorem declaredIn_trailBefore {before after : List Node} (hids : root.ids.Nodup)
    (hroot : root.kind = .module (before ++ after)) (hglobals : name ∉ globals)
    (hbefore : ∀ b ∈ before, name ∉ exposed b) :
    declaredIn (trailBefore globals root before) root.id name = false := by
  refine Bool.eq_false_iff.mpr fun hdeclared => ?_
  rcases declaredIn_append_iff.mp hdeclared with h | h
  · exact hglobals (declaredIn_declares.mp h).2
  · obtain ⟨b, hb, h⟩ := exists_of_declaredIn_flatMap h
    have hchild : b ∈ root.children := by
      rw [Node.children, hroot]
      exact mem_append_left _ hb
    rcases trail_exposes h with howner | ⟨-, hexposed⟩
    · -- The scopes in a statement are other nodes than the module.
      rw [Node.ids_eq] at hids
      refine (nodup_cons.mp hids).1 (mem_flatMap.mpr ⟨b, hchild, ?_⟩)
      exact (filter_sublist.map Node.id).subset howner
    · exact hbefore b hb hexposed

end Scope

namespace Desugar

open Scope (exposed ownNames exposed_eq mem_exposed_of_own mem_exposed_of_child)

variable {n' : Node}

def Conceals (n n' : Node) : Prop := exposed n' ⊆ exposed n

theorem conceals_children (hown : ownNames n' = ownNames n) (htag : n'.tag = n.tag)
    (hchildren : ∀ c' ∈ n'.children, ∃ c ∈ n.children, Conceals c c') : Conceals n n' := by
  intro x hx
  rw [exposed_eq, mem_append, hown, htag] at hx
  rcases hx with hx | hx
  · exact mem_exposed_of_own hx
  · split at hx
    case isTrue => cases hx
    case isFalse hscope =>
      obtain ⟨c', hc', hx⟩ := mem_flatMap.mp hx
      obtain ⟨c, hc, h⟩ := hchildren c' hc'
      exact mem_exposed_of_child (by simpa using hscope) hc (h hx)

theorem ownNames_of_rel {i : Nat} {span : Span} {k k' : Kind Node} {R K : Node → Node → Prop}
    {B : List Node → List Node → Prop} (h : k.Rel R K B k')
    (htag : k.tag ∉ [Tag.function, .clause, .pattern, .element]) :
    ownNames ⟨i, span, k'⟩ = ownNames ⟨i, span, k⟩ := by
  cases h with
  | function => exact absurd (of_decide_eq_true rfl) htag
  | _ => rfl

theorem exposed_pattern (i : Nat) (span : Span) (template : Node) :
    exposed ⟨i, span, .pattern template⟩ = exposed template := by
  rw [exposed_eq]
  exact flatMap_singleton ..

theorem Wraps.conceals {t t' : Node} (h : Wraps Conceals t t') : Conceals t t' := by
  cases h with
  | already _ h => exact h
  | around _ h =>
    rw [Conceals, exposed_pattern]
    exact h

theorem conceals_of_layer (h : Layer Conceals Conceals n n') : Conceals n n' := by
  cases h with
  | same htag h =>
    refine conceals_children (ownNames_of_rel h htag) h.tag_eq fun c' hc' => ?_
    obtain ⟨c, hc, hcc⟩ := Kind.exists_of_mem_right h.forall₂_children hc'
    exact ⟨c, hc, hcc⟩
  | function =>
    rw [Conceals, exposed_eq, exposed_eq]
    exact List.Subset.refl _
  | clause hpatterns hbody =>
    refine conceals_children rfl rfl fun c' hc' => ?_
    rcases mem_append.mp hc' with hc' | hc'
    · obtain ⟨c, hc, h⟩ := Kind.exists_of_mem_right hpatterns hc'
      exact ⟨c, mem_append_left _ hc, h.conceals⟩
    · obtain ⟨c, hc, h⟩ := Kind.exists_of_mem_right hbody hc'
      exact ⟨c, mem_append_right _ hc, h⟩
  | pattern _ h =>
    rw [Conceals, exposed_pattern, exposed_pattern]
    exact h
  | inner _ h =>
    rw [Conceals, exposed_pattern]
    exact h
  | element hkey hvalue =>
    refine conceals_children rfl rfl fun c' hc' => ?_
    rcases mem_append.mp hc' with hc' | hc'
    · cases hkey with
      | none => cases hc'
      | some h => exact ⟨_, mem_append_left _ mem_cons_self, mem_singleton.mp hc' ▸ h⟩
    · exact ⟨_, mem_append_right _ mem_cons_self, mem_singleton.mp hc' ▸ hvalue⟩

theorem conceals_of_shapes (h : Shapes n n') : Conceals n n' := by
  refine (layer_induct (fun _ _ _ h => conceals_of_layer h) (fun i span expr n' h => ?_)
    (fun _ _ _ h => h) n).1 n' h
  rw [Conceals, exposed_pattern]
  exact h

end Desugar

end Motif
