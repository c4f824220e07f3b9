import Motif.Proofs.Scope.Names
import Motif.Proofs.Scope.Placement

/-!
# Lexical scopes

`Scoped` says which names a node may use, given those that are visible where it stands: the rules of
scopes without ids and without a table. In an ordered tree in which every scope has an id of its own,
nothing undeclared on the trail means that all nodes are scoped: what the table of a walk shows to a
node was declared by nodes that are run before it.
-/

namespace Motif.Scope

open List

variable {around : List Nat} {before es : List Event} {body params ranges : List Node} {guard : Option Node}
  {name x : String} {n : Node}

/-! ## Rules of scopes -/

def ownNames (n : Node) : List String :=
  match n.kind with
  | .declare _ | .exported _ _ => []
  | .range target _ _ => target.names
  | _ => n.declaredNames

theorem ownNames_subset_introduces (n : Node) : ownNames n ⊆ introduces n := by
  obtain ⟨i, span, k⟩ := n
  cases k with
  | declare | exported => exact nil_subset _
  | _ => exact List.Subset.refl _

def plainTags : List Tag :=
  [.ret, .exprStmt, .literal, .context, .unary, .binary, .conj, .disj, .cond, .array, .object, .call,
    .pattern, .objectPattern, .arrayPattern, .element, .regex]

/-- A list of statements, each of which may use what those before it have introduced. Nothing comes
    after one that cannot be run. -/
inductive InBody (S : Names → Node → Prop) : Names → List Node → Prop where
  | nil {names} : InBody S names []
  | idle {names n ns} (h : n.tag ∈ idleTags) : InBody S names (n :: ns)
  | cons {names n ns} (h : S names n) (hrest : InBody S (names.add (introduces n)) ns) :
      InBody S names (n :: ns)

/-- Ranges around a body, each of which may use the targets of those before it. -/
inductive InLoop (S : Names → Node → Prop) : Names → List Node → List Node → Prop where
  | body {names body} (h : InBody S names body) : InLoop S names [] body
  | idle {names r rs body} (h : r.tag ≠ .range) : InLoop S names (r :: rs) body
  | range {names i span target collection guard rs body} (hc : S names collection)
      (hg : ∀ g ∈ guard, S (names.add target.names) g)
      (hrest : InLoop S (names.add target.names) rs body) :
      InLoop S names (⟨i, span, .range target collection guard⟩ :: rs) body

/-- The node uses only names that it sees. -/
inductive Scoped : Names → Node → Prop where
  | idle {names n} (h : n.tag ∈ idleTags) : Scoped names n
  | plain {names n} (h : n.tag ∈ plainTags) (hc : ∀ c ∈ n.children, Scoped names c) : Scoped names n
  | ident {names : Names} {i span name} (h : names name) : Scoped names ⟨i, span, .ident name⟩
  | member {names i span object property} (ho : Scoped names object)
      (hp : property.isIdent = false → Scoped names property) :
      Scoped names ⟨i, span, .member object property⟩
  | entry {names i span key value} (hk : key.isIdent = false → Scoped names key)
      (hv : Scoped names value) : Scoped names ⟨i, span, .entry key value⟩
  | lambda {names i span params body} (hb : Scoped (names.add (paramNames params)) body) :
      Scoped names ⟨i, span, .lambda params body⟩
  | function {names i span name params guard body}
      (hg : ∀ g ∈ guard, Scoped (names.add (name :: paramNames params)) g)
      (hb : InBody Scoped (names.add (name :: paramNames params)) body) :
      Scoped names ⟨i, span, .function name params guard body⟩
  | assign {names i span target value} (hv : Scoped names value) :
      Scoped names ⟨i, span, .assign target value⟩
  | declare {names i span assignments} (htags : ∀ a ∈ assignments, a.tag = .assign)
      (hb : InBody Scoped names assignments) : Scoped names ⟨i, span, .declare assignments⟩
  | loop {names i span ranges body} (hl : InLoop Scoped names ranges body) :
      Scoped names ⟨i, span, .loop ranges body []⟩
  | reduce {names : Names} {i span accumulators ranges body}
      (htags : ∀ a ∈ accumulators, a.tag = .assign) (ha : InBody Scoped names accumulators)
      (hl : InLoop Scoped (names.add (accumulators.flatMap introduces)) ranges body) :
      Scoped names ⟨i, span, .reduce accumulators ranges body⟩
  | exported {names : Names} {i span decl items} (hi : ∀ item ∈ items, names item.name)
      (htags : ∀ d ∈ decl, d.tag ∈ [Tag.declare, .assign, .function])
      (hd : ∀ d ∈ decl, Scoped names d) : Scoped names ⟨i, span, .exported decl items⟩

/-! ## Declarations on the trail -/

section Declarations

variable {es : List Event} {owner : Nat} {x : String}

theorem declaredIn_declares {o : Nat} {names : List String} :
    declaredIn (names.map (.declares o)) owner x = true ↔ owner = o ∧ x ∈ names := by
  unfold declaredIn
  rw [any_map, any_eq_true]
  constructor
  · rintro ⟨name, hname, heq⟩
    have heq : some (o, name) = some (owner, x) := by simpa [Event.declaration?] using heq
    cases heq
    exact ⟨rfl, hname⟩
  · rintro ⟨rfl, hx⟩
    exact ⟨x, hx, by simp [Event.declaration?]⟩

theorem declaredIn_declareAround {names : List String} :
    declaredIn (declareAround around names) owner x = true ↔ around.head? = some owner ∧ x ∈ names := by
  unfold declareAround
  cases around with
  | nil => simp [declaredIn]
  | cons o around =>
    rw [head?_cons, Option.toList_some, flatMap_singleton, declaredIn_declares]
    simp [eq_comm]

theorem declaredIn_defines {f : Node} :
    declaredIn (around.head?.toList.map (.defines f · name)) owner x = true ↔
      around.head? = some owner ∧ x = name := by
  cases around with
  | nil => simp [declaredIn]
  | cons o around =>
    simp only [head?_cons, Option.toList_some, map_cons, map_nil, declaredIn,
      any_cons, any_nil, Bool.or_false, Event.declaration?, beq_iff_eq, Option.some.injEq,
      Prod.mk.injEq]
    exact and_congr_right fun _ => eq_comm

theorem exists_of_declaredIn_flatMap {α : Type} {as : List α} {f : α → List Event}
    (h : declaredIn (as.flatMap f) owner x = true) : ∃ a ∈ as, declaredIn (f a) owner x = true := by
  unfold declaredIn at *
  rw [any_flatMap, any_eq_true] at h
  exact h

theorem declaredIn_append_iff {es' : List Event} :
    declaredIn (es ++ es') owner x = true ↔ declaredIn es owner x = true ∨ declaredIn es' owner x = true := by
  rw [declaredIn_append, Bool.or_eq_true]

theorem introduces_of_operand (h : n.tag ∉ declaringTags) : introduces n = [] := by
  obtain ⟨i, span, k⟩ := n
  cases k with
  | function | declare | assign | importAll | importFrom | exported | range =>
    exact absurd (of_decide_eq_true rfl) h
  | _ => rfl

theorem mem_scopeIds_of_child {c : Node} (hc : c ∈ n.children) {id : Nat} (hid : id ∈ scopeIds c) :
    id ∈ scopeIds n := by
  rw [scopeIds_eq]
  exact mem_append_right _ (mem_flatMap.mpr ⟨c, hc, hid⟩)

theorem mem_scopeIds_self (h : n.tag.isScopeContainer = true) : n.id ∈ scopeIds n := by
  rw [scopeIds_eq, if_pos h]
  exact mem_append_left _ mem_cons_self

theorem declaredIn_trail (h : declaredIn (trail n around) owner x = true) :
    (∃ c ∈ n.children, declaredIn (trail c (scopesInside n around)) owner x = true) ∨
      n.tag.isScopeContainer = true ∧ owner = n.id ∨ around.head? = some owner ∧ x ∈ ownNames n := by
  obtain ⟨i, span, k⟩ := n
  rw [trail_eq] at h
  have hchildren (h : declaredIn ((k.map trail).children.flatMap fun t =>
      t (scopesInside ⟨i, span, k⟩ around)) owner x = true) :
      ∃ c ∈ k.children, declaredIn (trail c (scopesInside ⟨i, span, k⟩ around)) owner x = true := by
    rw [Kind.children_map, flatMap_map] at h
    exact exists_of_declaredIn_flatMap h
  cases k with
  | ident name => cases h
  | member object property =>
    -- A plain name after the dot is not walked.
    refine .inl ?_
    rcases declaredIn_append_iff.mp h with h | h
    · exact ⟨object, by simp, h⟩
    · split at h
      · cases h
      · exact ⟨property, by simp, h⟩
  | entry key value =>
    refine .inl ?_
    rcases declaredIn_append_iff.mp h with h | h
    · split at h
      · cases h
      · exact ⟨key, by simp, h⟩
    · exact ⟨value, by simp, h⟩
  | function name params guard body =>
    rcases declaredIn_append_iff.mp h with h | h
    · rcases declaredIn_append_iff.mp h with h | h
      · obtain ⟨hhead, rfl⟩ := declaredIn_defines.mp h
        exact .inr (.inr ⟨hhead, mem_cons_self⟩)
      · exact .inr (.inl ⟨rfl, (declaredIn_declares.mp h).1⟩)
    · exact .inl (hchildren h)
  | lambda params body =>
    rcases declaredIn_append_iff.mp h with h | h
    · exact .inr (.inl ⟨rfl, (declaredIn_declares.mp h).1⟩)
    · exact .inl (hchildren h)
  | assign target value =>
    rcases declaredIn_append_iff.mp h with h | h
    · exact .inl (hchildren h)
    · exact .inr (.inr (declaredIn_declareAround.mp h))
  | range target collection guard =>
    rcases declaredIn_append_iff.mp h with h | h
    · rcases declaredIn_append_iff.mp h with h | h
      · exact .inl ⟨collection, by simp, h⟩
      · exact .inr (.inr (declaredIn_declareAround.mp h))
    · cases guard with
      | none => cases h
      | some g =>
        refine .inl ⟨g, by simp, ?_⟩
        simpa [Kind.map, scopesInside] using h
  | importAll source localName => exact .inr (.inr (declaredIn_declareAround.mp h))
  | importFrom source items => exact .inr (.inr (declaredIn_declareAround.mp h))
  | exported decl items =>
    rcases declaredIn_append_iff.mp h with h | h
    · simp [declaredIn, Event.declaration?] at h
    · exact .inl (hchildren h)
  | _ => exact .inl (hchildren h)

theorem mem_declaredNamesOf {ns : List Node} (hn : n ∈ ns) (hx : x ∈ n.declaredNames) :
    x ∈ Node.declaredNamesOf ns := by
  induction ns with
  | nil => cases hn
  | cons m ns ih =>
    rw [Node.declaredNamesOf, mem_append]
    rcases mem_cons.mp hn with rfl | hn
    · exact .inl hx
    · exact .inr (ih hn)

theorem introduces_of_child {c : Node} (hn : Ordered n) (htag : n.tag ≠ .clause)
    (hscope : n.tag.isScopeContainer = false) (hc : c ∈ n.children) :
    c.tag ≠ .clause ∧ ∀ x ∈ introduces c, x ∈ introduces n := by
  by_cases hoperand : c ∈ n.kind.operands
  · have hplace := (isOperand_of_mem hn hoperand).2
    refine ⟨fun h => hplace (h ▸ by decide), fun x hx => ?_⟩
    rw [introduces_of_operand hplace] at hx
    cases hx
  · obtain ⟨i, span, k⟩ := n
    cases k with
    | declare assignments =>
      have hc : c ∈ assignments := hc
      have hassign : c.tag = .assign := hn.here.assignments _ (mem_map_of_mem hc)
      rw [introduces_eq_declaredNames (by rw [hassign]; decide)]
      exact ⟨by simp [hassign], fun x hx => mem_declaredNamesOf hc hx⟩
    | exported decl items =>
      cases decl with
      | none => cases hc
      | some d =>
        have hc : c = d := mem_singleton.mp hc
        subst hc
        have hplace : c.tag ∈ [Tag.declare, .assign, .function] := hn.here.exported _ rfl
        have hne : c.tag ∉ [Tag.exported, .range, .clause] := by
          revert hplace
          cases c.tag <;> decide
        rw [introduces_eq_declaredNames fun h => hne (by simp_all)]
        exact ⟨fun h => hne (by simp [h]), fun x hx => hx⟩
    | branch => exact absurd rfl hn.here.noBranch
    | choose => exact absurd rfl hn.here.noChoice
    | clause => exact absurd rfl htag
    | module | function | lambda | reduce | loop | doBlock | generator => cases hscope
    | _ => exact absurd hc hoperand

/-- What is declared on the trail of a node is declared in a scope that is part of the node, or in the nearest
    scope around it. Then `P` is true of the node, if nodes that are no scopes have it from their children. -/
theorem trail_induct {P : Node → Prop} (hown : ∀ n, x ∈ ownNames n → P n)
    (hchild : ∀ n, n.tag.isScopeContainer = false → ∀ c ∈ n.children, P c → P n) (n : Node) (around : List Nat)
    (h : declaredIn (trail n around) owner x = true) :
    owner ∈ scopeIds n ∨ around.head? = some owner ∧ P n := by
  induction n using Node.ind generalizing around with
  | step n ih =>
    rcases declaredIn_trail h with ⟨c, hc, hdeclared⟩ | ⟨hscope, rfl⟩ | ⟨hhead, hx⟩
    · rcases ih c hc _ hdeclared with hin | ⟨hhead, hp⟩
      · exact .inl (mem_scopeIds_of_child hc hin)
      · unfold scopesInside at hhead
        split at hhead
        case isTrue hscope =>
          cases hhead
          exact .inl (mem_scopeIds_self hscope)
        case isFalse hscope => exact .inr ⟨hhead, hchild n (by simpa using hscope) c hc hp⟩
    · exact .inl (mem_scopeIds_self hscope)
    · exact .inr ⟨hhead, hown n hx⟩

theorem trail_declares (n : Node) (around : List Nat) (h : declaredIn (trail n around) owner x = true) :
    owner ∈ scopeIds n ∨ around.head? = some owner ∧ (Ordered n → n.tag ≠ .clause → x ∈ introduces n) := by
  refine trail_induct (P := fun n => Ordered n → n.tag ≠ .clause → x ∈ introduces n)
    (fun n hx _ _ => ownNames_subset_introduces n hx) (fun n hscope c hc hintro hn htag => ?_) n around h
  obtain ⟨hne, hsub⟩ := introduces_of_child hn htag hscope hc
  exact hsub x (hintro (hn.child hc) hne)

end Declarations

/-! ## What is visible from inside a tree -/

def Visible (trail : List Event) (around : List Nat) : Names :=
  fun x => ∃ owner ∈ around, declaredIn trail owner x = true

def Clean (before es : List Event) : Prop :=
  ∀ pre e post, es = pre ++ e :: post → e.undeclared? (before ++ pre) = none

/-- The scopes of some trees are new: they differ from each other and from those around, and nothing is
    declared in them. -/
structure NewScopes (trail : List Event) (around : List Nat) (ns : List Node) : Prop where
  nodup : (ns.flatMap scopeIds).Nodup
  outside : ∀ id ∈ ns.flatMap scopeIds, id ∉ around
  unused : ∀ id ∈ ns.flatMap scopeIds, ∀ x, declaredIn trail id x = false

theorem Clean.append {es' : List Event} (h : Clean before (es ++ es')) :
    Clean before es ∧ Clean (before ++ es) es' := by
  constructor
  · rintro pre e post rfl
    exact h pre e (post ++ es') (by simp)
  · rintro pre e post rfl
    rw [append_assoc]
    exact h (es ++ pre) e post (by simp)

theorem clean_of_undeclared (h : undeclared es = []) : Clean [] es := by
  rintro pre e post rfl
  have hall := filterMap_eq_nil_iff.mp h (e, pre.length) ?_
  · simpa using hall
  · rw [mk_mem_zipIdx_iff_getElem?]
    simp

theorem visible_of_clean {post : List Event} {user : Node}
    (h : Clean before (.refers user around name :: post)) : Visible before around name := by
  have hnone := h [] _ post rfl
  rw [append_nil] at hnone
  dsimp only [Event.undeclared?] at hnone
  split at hnone
  case isTrue hany => exact any_eq_true.mp hany
  case isFalse => cases hnone

theorem Visible.of_append (h : Visible (before ++ es) around x) :
    Visible before around x ∨ ∃ owner ∈ around, declaredIn es owner x = true := by
  obtain ⟨owner, howner, hdeclared⟩ := h
  rcases declaredIn_append_iff.mp hdeclared with h | h
  · exact .inl ⟨owner, howner, h⟩
  · exact .inr ⟨owner, howner, h⟩

namespace NewScopes

variable {before : List Event} {around : List Nat} {n : Node} {ns ms : List Node}

theorem left (h : NewScopes before around (ns ++ ms)) : NewScopes before around ns := by
  obtain ⟨hnodup, houtside, hunused⟩ := h
  rw [flatMap_append] at *
  exact ⟨(nodup_append.mp hnodup).1, fun id hid => houtside id (mem_append_left _ hid),
    fun id hid => hunused id (mem_append_left _ hid)⟩

theorem head (h : NewScopes before around (n :: ns)) : NewScopes before around [n] := by
  have h : NewScopes before around ([n] ++ ns) := h
  exact h.left

theorem declared (h : NewScopes before around ns)
    (hes : ∀ owner x, declaredIn es owner x = true → owner ∉ ns.flatMap scopeIds) :
    NewScopes (before ++ es) around ns where
  nodup := h.nodup
  outside := h.outside
  unused id hid x := by
    rw [declaredIn_append, h.unused id hid, Bool.false_or, Bool.eq_false_iff]
    exact fun hdeclared => hes id x hdeclared hid

theorem declaredAround (h : NewScopes before around ns) (names : List String) :
    NewScopes (before ++ declareAround around names) around ns := by
  refine h.declared fun owner x hdeclared hin => h.outside owner hin ?_
  exact mem_of_mem_head? (declaredIn_declareAround.mp hdeclared).1

theorem rest (h : NewScopes before around (n :: ns)) : NewScopes before around ns := by
  obtain ⟨hnodup, houtside, hunused⟩ := h
  rw [flatMap_cons] at *
  exact ⟨(nodup_append.mp hnodup).2.1, fun id hid => houtside id (mem_append_right _ hid),
    fun id hid => hunused id (mem_append_right _ hid)⟩

theorem tail (h : NewScopes before around (n :: ns)) : NewScopes (before ++ trail n around) around ns := by
  refine h.rest.declared fun owner x hdeclared hin => ?_
  rcases trail_declares n around hdeclared with hown | ⟨hhead, -⟩
  · have hnodup := h.nodup
    rw [flatMap_cons] at hnodup
    exact (nodup_append.mp hnodup).2.2 owner hown owner hin rfl
  · exact h.rest.outside owner hin (mem_of_mem_head? hhead)

theorem right (h : NewScopes before around (ns ++ ms)) :
    NewScopes (before ++ ns.flatMap (trail · around)) around ms := by
  induction ns generalizing before with
  | nil => simpa using h
  | cons n ns ih =>
    have h : NewScopes before around (n :: (ns ++ ms)) := h
    rw [flatMap_cons, ← append_assoc]
    exact ih h.tail

theorem children (h : NewScopes before around [n]) : NewScopes before (scopesInside n around) n.children := by
  obtain ⟨hnodup, houtside, hunused⟩ := h
  rw [flatMap_singleton, scopeIds_eq] at *
  refine ⟨(nodup_append.mp hnodup).2.1, fun id hid => ?_,
    fun id hid => hunused id (mem_append_right _ hid)⟩
  unfold scopesInside
  split
  case isTrue hscope =>
    rw [if_pos hscope] at hnodup
    rintro (_ | ⟨_, hid'⟩)
    · exact (nodup_append.mp hnodup).2.2 n.id mem_cons_self n.id hid rfl
    · exact houtside id (mem_append_right _ hid) hid'
  case isFalse hscope => exact houtside id (mem_append_right _ hid)

theorem visible_inside (h : NewScopes before around [n]) (hx : Visible before (scopesInside n around) x) :
    Visible before around x := by
  unfold scopesInside at hx
  split at hx
  case isTrue hscope =>
    obtain ⟨owner, _ | ⟨_, howner⟩, hdeclared⟩ := hx
    · have hid : n.id ∈ [n].flatMap scopeIds := by
        rw [flatMap_singleton]
        exact mem_scopeIds_self hscope
      rw [h.unused n.id hid] at hdeclared
      cases hdeclared
    · exact ⟨owner, howner, hdeclared⟩
  case isFalse => exact hx

theorem entered (h : NewScopes before around [n]) (hscope : n.tag.isScopeContainer = true)
    (more : List String) : NewScopes (before ++ more.map (.declares n.id)) (n.id :: around) n.children ∧
      ∀ x, Visible (before ++ more.map (.declares n.id)) (n.id :: around) x →
        x ∈ more ∨ Visible before around x := by
  have hscopes : scopesInside n around = n.id :: around := if_pos hscope
  have hchildren := h.children
  rw [hscopes] at hchildren
  constructor
  · refine hchildren.declared fun owner x hdeclared hin => hchildren.outside owner hin ?_
    exact (declaredIn_declares.mp hdeclared).1 ▸ mem_cons_self
  · intro x hx
    rcases hx.of_append with hx | ⟨owner, -, hdeclared⟩
    · exact .inr (h.visible_inside (hscopes ▸ hx))
    · exact .inl (declaredIn_declares.mp hdeclared).2

theorem visible_after (h : NewScopes before around (n :: ns)) (hn : Ordered n) (htag : n.tag ≠ .clause)
    (hx : Visible (before ++ trail n around) around x) : x ∈ introduces n ∨ Visible before around x := by
  rcases hx.of_append with hx | ⟨owner, howner, hdeclared⟩
  · exact .inr hx
  · rcases trail_declares n around hdeclared with hown | ⟨-, hintro⟩
    · exact absurd howner (h.outside owner (mem_append_left _ hown))
    · exact .inl (hintro hn htag)

end NewScopes

/-! ## Trees with nothing undeclared -/

/-- Nothing undeclared on the trail of a tree means that the tree is scoped, wherever it stands. -/
def Settled (n : Node) : Prop :=
  ∀ (before : List Event) (around : List Nat) (names : Names), Ordered n → NewScopes before around [n] →
    (∀ x, Visible before around x → names x) → Clean before (trail n around) → Scoped names n

section Lists

variable {before : List Event} {around : List Nat} {names : Names} {ns : List Node}

theorem visible_after_all (hnew : NewScopes before around ns) (hns : ∀ n ∈ ns, Ordered n ∧ n.tag ≠ .clause)
    (hx : Visible (before ++ ns.flatMap (trail · around)) around x) :
    x ∈ ns.flatMap introduces ∨ Visible before around x := by
  induction ns generalizing before with
  | nil => exact .inr (by simpa using hx)
  | cons n ns ih =>
    rw [flatMap_cons, ← append_assoc] at hx
    rw [flatMap_cons, mem_append]
    obtain ⟨hn, htag⟩ := hns n mem_cons_self
    rcases ih hnew.tail (fun m hm => hns m (mem_cons_of_mem _ hm)) hx with h | h
    · exact .inl (.inr h)
    · exact (hnew.visible_after hn htag h).imp_left .inl

theorem visible_after_operands (hnew : NewScopes before around ns) (hns : ∀ n ∈ ns, IsOperand n)
    (hx : Visible (before ++ ns.flatMap (trail · around)) around x) : Visible before around x := by
  have hplace : ∀ n ∈ ns, Ordered n ∧ n.tag ≠ .clause := fun n hn =>
    ⟨(hns n hn).1, fun h => (hns n hn).2 (h ▸ by decide)⟩
  refine (visible_after_all hnew hplace hx).resolve_left fun h => ?_
  obtain ⟨n, hn, hx⟩ := mem_flatMap.mp h
  rw [introduces_of_operand (hns n hn).2] at hx
  cases hx

theorem scoped_operands (hsettled : ∀ n ∈ ns, Settled n) (hns : ∀ n ∈ ns, IsOperand n)
    (hnew : NewScopes before around ns) (hvisible : ∀ x, Visible before around x → names x)
    (hclean : Clean before (ns.flatMap (trail · around))) : ∀ n ∈ ns, Scoped names n := by
  induction ns generalizing before with
  | nil => simp
  | cons n ns ih =>
    obtain ⟨hsettled, hrest⟩ := forall_mem_cons.mp hsettled
    obtain ⟨hn, hns⟩ := forall_mem_cons.mp hns
    obtain ⟨hclean, hcleans⟩ := hclean.append
    refine forall_mem_cons.mpr ⟨hsettled _ _ _ hn.1 hnew.head hvisible hclean, ?_⟩
    refine ih hrest hns hnew.tail (fun x hx => hvisible x ?_) hcleans
    refine visible_after_operands hnew.head (forall_mem_singleton.mpr hn) ?_
    rwa [flatMap_singleton]

theorem inBody_of_clean (hsettled : ∀ n ∈ ns, Settled n) (hns : ∀ n ∈ ns, Ordered n)
    (hnew : NewScopes before around ns) (hvisible : ∀ x, Visible before around x → names x)
    (hclean : Clean before (ns.flatMap (trail · around))) : InBody Scoped names ns := by
  induction ns generalizing before names with
  | nil => exact .nil
  | cons n ns ih =>
    by_cases hidle : n.tag ∈ idleTags
    · exact .idle hidle
    · obtain ⟨hsettled, hrest⟩ := forall_mem_cons.mp hsettled
      obtain ⟨hn, hns⟩ := forall_mem_cons.mp hns
      obtain ⟨hclean, hcleans⟩ := hclean.append
      refine .cons (hsettled _ _ _ hn hnew.head hvisible hclean) ?_
      refine ih hrest hns hnew.tail (fun x hx => ?_) hcleans
      have hclause : n.tag ≠ .clause := fun h => hidle (h ▸ by decide)
      exact (hnew.visible_after hn hclause hx).imp_right (hvisible x)

theorem scoped_guarded (hguard : ∀ g ∈ guard, Settled g) (hsettled : ∀ n ∈ ns, Settled n)
    (hoperand : ∀ n ∈ params ++ guard.toList, IsOperand n) (hns : ∀ n ∈ ns, Ordered n)
    (hnew : NewScopes before around (params ++ guard.toList ++ ns))
    (hvisible : ∀ x, Visible before around x → names x)
    (hclean : Clean before ((params ++ guard.toList ++ ns).flatMap (trail · around))) :
    (∀ g ∈ guard, Scoped names g) ∧ InBody Scoped names ns := by
  rw [flatMap_append] at hclean
  obtain ⟨hcleang, hclean⟩ := hclean.append
  rw [flatMap_append] at hcleang
  obtain ⟨-, hcleang⟩ := hcleang.append
  obtain ⟨hparams, hguards⟩ := forall_mem_append.mp hoperand
  constructor
  · have hscoped := scoped_operands (fun n hn => hguard n (Option.mem_toList.mp hn)) hguards
      hnew.left.right
      (fun x hx => hvisible x (visible_after_operands hnew.left.left hparams hx)) hcleang
    exact fun g hg => hscoped g (Option.mem_toList.mpr hg)
  · exact inBody_of_clean hsettled hns hnew.right
      (fun x hx => hvisible x (visible_after_operands hnew.left hoperand hx)) hclean

theorem scoped_range {i : Nat} {span : Span} {target : Target} {collection : Node}
    (hsettled : ∀ n ∈ collection :: guard.toList, Settled n)
    (hr : Ordered ⟨i, span, .range target collection guard⟩)
    (hnew : NewScopes before around (collection :: guard.toList))
    (hvisible : ∀ x, Visible before around x → names x)
    (hclean : Clean before (trail ⟨i, span, .range target collection guard⟩ around)) :
    Scoped names collection ∧ ∀ g ∈ guard, Scoped (names.add target.names) g := by
  have hoperand : ∀ n ∈ collection :: guard.toList, IsOperand n := fun n hn => isOperand_of_mem hr hn
  have htrail : trail ⟨i, span, .range target collection guard⟩ around =
      trail collection around ++ declareAround around target.names ++
        guard.toList.flatMap (trail · around) := by
    rw [trail_eq]
    cases guard <;> rfl
  rw [htrail, append_assoc] at hclean
  obtain ⟨hclean, hrest⟩ := hclean.append
  obtain ⟨-, hguard⟩ := hrest.append
  obtain ⟨hcollection, hguards⟩ := forall_mem_cons.mp hoperand
  obtain ⟨hsettled, hsettleds⟩ := forall_mem_cons.mp hsettled
  refine ⟨hsettled _ _ _ hcollection.1 hnew.head hvisible hclean, fun g hg => ?_⟩
  refine scoped_operands hsettleds hguards (hnew.tail.declaredAround target.names) (fun x hx => ?_)
    hguard g (Option.mem_toList.mpr hg)
  rcases hx.of_append with hx | ⟨owner, -, hdeclared⟩
  · refine .inr (hvisible x (visible_after_operands hnew.head ?_ ?_))
    · exact forall_mem_singleton.mpr hcollection
    · rwa [flatMap_singleton]
  · exact .inl (declaredIn_declareAround.mp hdeclared).2

theorem inLoop_of_clean (hranges : ∀ r ∈ ranges, r.Everywhere Settled) (hsettled : ∀ n ∈ ns, Settled n)
    (hns : ∀ n ∈ ranges ++ ns, Ordered n) (hnew : NewScopes before around (ranges ++ ns))
    (hvisible : ∀ x, Visible before around x → names x)
    (hclean : Clean before ((ranges ++ ns).flatMap (trail · around))) : InLoop Scoped names ranges ns := by
  induction ranges generalizing before names with
  | nil => exact .body (inBody_of_clean hsettled hns hnew hvisible hclean)
  | cons r ranges ih =>
    by_cases hr : r.tag = .range
    · obtain ⟨hbelow, hrest⟩ := forall_mem_cons.mp hranges
      have hordered : Ordered r := hns r mem_cons_self
      have hns : ∀ n ∈ ranges ++ ns, Ordered n := fun n hn => hns n (mem_cons_of_mem _ hn)
      have hnew : NewScopes before around (r :: (ranges ++ ns)) := hnew
      obtain ⟨hclean, hcleans⟩ := hclean.append
      have hafter : ∀ x, Visible (before ++ trail r around) around x →
          names.add (introduces r) x := fun x hx =>
        (hnew.visible_after hordered (by simp [hr]) hx).imp_right (hvisible x)
      have hloop := ih hrest hns hnew.tail hafter hcleans
      have hinside := hnew.head.children
      obtain ⟨i, span, k⟩ := r
      cases k with
      | range target collection guard =>
        have hbelow : ∀ n ∈ collection :: guard.toList, Settled n := fun n hn => (hbelow.child hn).here
        obtain ⟨hcollection, hguard⟩ := scoped_range hbelow hordered hinside hvisible hclean
        exact .range hcollection hguard hloop
      | _ => cases hr
    · exact .idle hr

end Lists

section Nodes

variable {i : Nat} {span : Span} {items : List ModuleItem}

theorem trail_children (k : Kind Node) (around : List Nat) :
    ((k.map trail).children.flatMap fun t => t around) = k.children.flatMap (trail · around) := by
  rw [Kind.children_map, flatMap_map]

theorem trail_plain (h : n.tag ∈ plainTags) (around : List Nat) :
    trail n around = n.children.flatMap (trail · around) ∧ n.kind.operands = n.children ∧
      scopesInside n around = around := by
  obtain ⟨i, span, k⟩ := n
  rw [trail_eq]
  cases k with
  | ret | exprStmt | literal | context | unary | binary | conj | disj | cond | array | object | call
  | pattern | objectPattern | arrayPattern | element | regex => exact ⟨trail_children _ around, rfl, rfl⟩
  | _ => exact absurd h (by simp [Kind.tag, plainTags])

theorem settled_plain (h : n.tag ∈ plainTags) (hbelow : ∀ c ∈ n.children, Settled c) : Settled n := by
  intro before around names hn hnew hvisible hclean
  obtain ⟨htrail, hoperands, hscopes⟩ := trail_plain h around
  have hinside := hnew.children
  rw [htrail] at hclean
  rw [hscopes] at hinside
  refine .plain h (scoped_operands hbelow (fun c hc => isOperand_of_mem hn ?_) hinside hvisible hclean)
  rwa [hoperands]

theorem settled_member {object property : Node} (ho : Settled object) (hp : Settled property) :
    Settled ⟨i, span, .member object property⟩ := by
  intro before around names hn hnew hvisible hclean
  have hinside : NewScopes before around [object, property] := hnew.children
  have hoperand : ∀ c ∈ [object, property], IsOperand c := fun c hc => isOperand_of_mem hn hc
  obtain ⟨hobject, hproperty⟩ := forall_mem_cons.mp hoperand
  rw [trail_eq] at hclean
  obtain ⟨hclean, hrest⟩ := Clean.append hclean
  refine .member (ho _ _ _ hobject.1 hinside.head hvisible hclean) fun hident => ?_
  rw [hident] at hrest
  refine hp _ _ _ (hproperty _ mem_cons_self).1 hinside.tail (fun x hx => hvisible x ?_) hrest
  refine visible_after_operands hinside.head (forall_mem_singleton.mpr hobject) ?_
  rwa [flatMap_singleton]

theorem settled_entry {key value : Node} (hk : Settled key) (hv : Settled value) :
    Settled ⟨i, span, .entry key value⟩ := by
  intro before around names hn hnew hvisible hclean
  have hinside : NewScopes before around [key, value] := hnew.children
  have hoperand : ∀ c ∈ [key, value], IsOperand c := fun c hc => isOperand_of_mem hn hc
  obtain ⟨hkey, hvalue⟩ := forall_mem_cons.mp hoperand
  have hvalue := hvalue value mem_cons_self
  rw [trail_eq] at hclean
  obtain ⟨hclean, hrest⟩ := Clean.append hclean
  by_cases hident : key.isIdent = true
  · rw [if_pos hident, append_nil] at hrest
    refine .entry (fun h => ?_) (hv _ _ _ hvalue.1 hinside.rest hvisible hrest)
    rw [hident] at h
    cases h
  · rw [if_neg hident] at hclean hrest
    refine .entry (fun _ => hk _ _ _ hkey.1 hinside.head hvisible hclean) ?_
    refine hv _ _ _ hvalue.1 hinside.tail (fun x hx => hvisible x ?_) hrest
    refine visible_after_operands hinside.head (forall_mem_singleton.mpr hkey) ?_
    rwa [flatMap_singleton]

theorem settled_lambda {body : Node} (hb : Settled body) : Settled ⟨i, span, .lambda params body⟩ := by
  intro before around names hn hnew hvisible hclean
  obtain ⟨hinside, hentered⟩ := hnew.entered rfl (paramNames params)
  have hinside : NewScopes _ _ (params ++ [body]) := hinside
  have hoperand : ∀ c ∈ params ++ [body], IsOperand c := fun c hc => isOperand_of_mem hn hc
  obtain ⟨hparams, hbody⟩ := forall_mem_append.mp hoperand
  have htrail : trail ⟨i, span, .lambda params body⟩ around = (paramNames params).map (.declares i) ++
      (params ++ [body]).flatMap (trail · (i :: around)) := by
    rw [trail_eq]
    exact congrArg _ (trail_children (.lambda params body) _)
  rw [htrail, flatMap_append] at hclean
  obtain ⟨-, hclean⟩ := hclean.append
  obtain ⟨-, hclean⟩ := hclean.append
  rw [flatMap_singleton] at hclean
  refine .lambda (hb _ _ _ (hbody _ mem_cons_self).1 hinside.right (fun x hx => ?_) hclean)
  exact (hentered x (visible_after_operands hinside.left hparams hx)).imp_right (hvisible x)

theorem settled_function (hg : ∀ g ∈ guard, Settled g) (hb : ∀ n ∈ body, Settled n) :
    Settled ⟨i, span, .function name params guard body⟩ := by
  intro before around names hn hnew hvisible hclean
  have hparams : ∀ c ∈ params ++ guard.toList, IsOperand c := fun c hc => isOperand_of_mem hn hc
  have htrail : trail ⟨i, span, .function name params guard body⟩ around =
      around.head?.toList.map (.defines ⟨i, span, .function name params guard body⟩ · name) ++
        ((paramNames params).map (.declares i) ++
          (params ++ guard.toList ++ body).flatMap (trail · (i :: around))) := by
    rw [trail_eq, ← append_assoc]
    exact congrArg _ (trail_children (.function name params guard body) _)
  rw [htrail] at hclean
  obtain ⟨-, hclean⟩ := hclean.append
  obtain ⟨-, hclean⟩ := hclean.append
  have hdefined : NewScopes (before ++
      around.head?.toList.map (.defines ⟨i, span, .function name params guard body⟩ · name)) around
      [⟨i, span, .function name params guard body⟩] := by
    refine hnew.declared fun owner x hdeclared hin => hnew.outside owner hin ?_
    exact mem_of_mem_head? (declaredIn_defines.mp hdeclared).1
  obtain ⟨hinside, hentered⟩ := hdefined.entered rfl (paramNames params)
  have hinside : NewScopes _ _ (params ++ guard.toList ++ body) := hinside
  suffices h : (∀ g ∈ guard, Scoped (names.add (name :: paramNames params)) g) ∧
      InBody Scoped (names.add (name :: paramNames params)) body from .function h.1 h.2
  refine scoped_guarded hg hb hparams (fun c hc => hn.child (mem_append_right _ hc)) hinside
    (fun x hx => ?_) hclean
  rcases hentered x hx with hx | hx
  · exact .inl (mem_cons_of_mem _ hx)
  · rcases hx.of_append with hx | ⟨owner, -, hdeclared⟩
    · exact .inr (hvisible x hx)
    · exact .inl ((declaredIn_defines.mp hdeclared).2 ▸ mem_cons_self)

theorem settled_assign {target : Target} {value : Node} (hv : Settled value) :
    Settled ⟨i, span, .assign target value⟩ := by
  intro before around names hn hnew hvisible hclean
  have htrail : trail ⟨i, span, .assign target value⟩ around =
      trail value around ++ declareAround around target.names := by
    rw [trail_eq, ← flatMap_singleton (trail · around)]
    rfl
  rw [htrail] at hclean
  exact .assign (hv _ _ _ (hn.child mem_cons_self) hnew.children hvisible hclean.append.1)

theorem settled_declare {assignments : List Node} (ha : ∀ a ∈ assignments, Settled a) :
    Settled ⟨i, span, .declare assignments⟩ := by
  intro before around names hn hnew hvisible hclean
  have htrail : trail ⟨i, span, .declare assignments⟩ around =
      assignments.flatMap (trail · around) := by
    rw [trail_eq]
    exact trail_children (.declare assignments) around
  rw [htrail] at hclean
  refine .declare (fun a ha => hn.here.assignments _ (mem_map_of_mem ha)) ?_
  exact inBody_of_clean ha (fun a ha => hn.child ha) hnew.children hvisible hclean

theorem settled_loop {otherwise : List Node} (hr : ∀ r ∈ ranges, r.Everywhere Settled)
    (hb : ∀ n ∈ body, Settled n) : Settled ⟨i, span, .loop ranges body otherwise⟩ := by
  intro before around names hn hnew hvisible hclean
  have hnone : otherwise = [] := map_eq_nil_iff.mp hn.here.noElse
  subst hnone
  have htrail : trail ⟨i, span, .loop ranges body []⟩ around =
      (ranges ++ body).flatMap (trail · (i :: around)) := by
    rw [trail_eq, ← append_nil (ranges ++ body)]
    exact trail_children (.loop ranges body []) _
  rw [htrail] at hclean
  have hinside : NewScopes _ _ (ranges ++ body ++ []) := hnew.children
  rw [append_nil] at hinside
  refine .loop (inLoop_of_clean hr hb (fun c hc => hn.child ?_) hinside (fun x hx => ?_) hclean)
  · exact mem_append_left _ hc
  · exact hvisible x (hnew.visible_inside hx)

theorem settled_reduce {accumulators : List Node} (ha : ∀ a ∈ accumulators, Settled a)
    (hr : ∀ r ∈ ranges, r.Everywhere Settled) (hb : ∀ n ∈ body, Settled n) :
    Settled ⟨i, span, .reduce accumulators ranges body⟩ := by
  intro before around names hn hnew hvisible hclean
  have htags : ∀ a ∈ accumulators, a.tag = .assign := fun a ha => hn.here.assignments _ (mem_map_of_mem ha)
  have hchild : ∀ c ∈ accumulators ++ (ranges ++ body), Ordered c := fun c hc =>
    hn.child (by rwa [← append_assoc] at hc)
  obtain ⟨haccs, hrest⟩ := forall_mem_append.mp hchild
  have htrail : trail ⟨i, span, .reduce accumulators ranges body⟩ around =
      (accumulators ++ (ranges ++ body)).flatMap (trail · (i :: around)) := by
    rw [trail_eq, ← append_assoc]
    exact trail_children (.reduce accumulators ranges body) _
  rw [htrail, flatMap_append] at hclean
  obtain ⟨haclean, hclean⟩ := hclean.append
  have hinside : NewScopes _ _ (accumulators ++ ranges ++ body) := hnew.children
  rw [append_assoc] at hinside
  have hvisible : ∀ x, Visible before (i :: around) x → names x := fun x hx =>
    hvisible x (hnew.visible_inside hx)
  refine .reduce htags (inBody_of_clean ha haccs hinside.left hvisible haclean) ?_
  refine inLoop_of_clean hr hb hrest hinside.right (fun x hx => ?_) hclean
  refine (visible_after_all hinside.left (fun a ha => ⟨haccs a ha, ?_⟩) hx).imp_right (hvisible x)
  simp [htags a ha]

theorem visible_of_refers {post : List Event} {user : Node} {item : ModuleItem} (hitem : item ∈ items)
    (h : Clean before (items.map (fun item => .refers user around item.name) ++ post)) :
    Visible before around item.name := by
  obtain ⟨pre, rest, rfl⟩ := append_of_mem hitem
  rw [map_append, map_cons, append_assoc] at h
  obtain ⟨-, h⟩ := h.append
  rcases (visible_of_clean h).of_append with hvisible | ⟨owner, -, hdeclared⟩
  · exact hvisible
  · simp [declaredIn, Event.declaration?] at hdeclared

theorem settled_exported {decl : Option Node} (hd : ∀ d ∈ decl, Settled d) :
    Settled ⟨i, span, .exported decl items⟩ := by
  intro before around names hn hnew hvisible hclean
  have htrail : trail ⟨i, span, .exported decl items⟩ around =
      items.map (fun item => .refers ⟨i, span, .exported decl items⟩ around item.name) ++
        decl.toList.flatMap (trail · around) := by
    rw [trail_eq]
    exact congrArg _ (trail_children (.exported decl items) around)
  rw [htrail] at hclean
  have hitems : ∀ item ∈ items, names item.name := fun item hitem =>
    hvisible _ (visible_of_refers hitem hclean)
  have hinside : NewScopes before around decl.toList := hnew.children
  obtain ⟨-, hclean⟩ := hclean.append
  refine .exported hitems (fun d hd => hn.here.exported _ (Option.mem_map_of_mem _ hd)) ?_
  rintro d rfl
  rw [Option.toList_some] at hclean hinside
  rw [flatMap_singleton] at hclean
  refine hd d rfl _ _ _ (hn.child mem_cons_self) (hinside.declared fun owner x h => ?_)
    (fun x hx => hvisible x ?_) hclean
  · simp [declaredIn, Event.declaration?] at h
  · refine hx.of_append.resolve_right ?_
    simp [declaredIn, Event.declaration?]

end Nodes

theorem everywhere_settled (n : Node) : n.Everywhere Settled := by
  induction n using Node.ind with
  | step n ih =>
    refine .mk ?_ ih
    have hbelow : ∀ c ∈ n.children, Settled c := fun c hc => (ih c hc).here
    obtain ⟨i, span, k⟩ := n
    cases k with
    | ident name =>
      intro before around names hn hnew hvisible hclean
      rw [trail_eq] at hclean
      exact .ident (hvisible name (visible_of_clean hclean))
    | member object property =>
      exact settled_member (hbelow object (by simp))
        (hbelow property (by simp))
    | entry key value =>
      exact settled_entry (hbelow key (by simp))
        (hbelow value (by simp))
    | lambda params body => exact settled_lambda (hbelow body (by simp))
    | function name params guard body =>
      exact settled_function
        (fun g hg => hbelow g (by simp_all))
        (fun n hn => hbelow n (by simp_all))
    | assign target value => exact settled_assign (hbelow value mem_cons_self)
    | declare assignments => exact settled_declare hbelow
    | loop ranges body otherwise =>
      exact settled_loop (fun r hr => ih r (by simp_all))
        (fun n hn => hbelow n (by simp_all))
    | reduce accumulators ranges body =>
      exact settled_reduce (fun a ha => hbelow a (by simp_all))
        (fun r hr => ih r (by simp_all))
        (fun n hn => hbelow n (by simp_all))
    | exported decl items => exact settled_exported fun d hd => hbelow d (Option.mem_toList.mpr hd)
    | branch => exact fun _ _ _ hn => absurd rfl hn.here.noBranch
    | choose => exact fun _ _ _ hn => absurd rfl hn.here.noChoice
    | module | range | param | importAll | importFrom | clause | doBlock | generator | await | emit =>
      exact fun _ _ _ _ _ _ _ => .idle (of_decide_eq_true rfl)
    | _ => exact settled_plain (of_decide_eq_true rfl) hbelow

/-- A module in which nothing is undeclared and every scope has an id of its own. Its statements may
    use the globals. -/
theorem inBody_of_undeclared {globals : List String} {i : Nat} {span : Span}
    (hn : Ordered ⟨i, span, .module body⟩) (hids : (scopeIds ⟨i, span, .module body⟩).Nodup)
    (h : undeclared (moduleTrail globals ⟨i, span, .module body⟩) = []) :
    InBody Scoped (· ∈ globals) body := by
  have hnew : NewScopes [] [] [⟨i, span, .module body⟩] := by
    refine ⟨by simpa using hids, ?_, ?_⟩ <;> simp [declaredIn]
  obtain ⟨hinside, hentered⟩ := hnew.entered rfl globals
  have htrail : trail ⟨i, span, .module body⟩ [] = body.flatMap (trail · [i]) := by
    rw [trail_eq]
    exact trail_children (.module body) _
  have hclean := clean_of_undeclared h
  rw [moduleTrail, htrail] at hclean
  refine inBody_of_clean (fun n _ => (everywhere_settled n).here) (fun n hm => hn.child hm) hinside
    (fun x hx => (hentered x hx).resolve_right ?_) hclean.append.2
  rintro ⟨owner, howner, -⟩
  cases howner

end Motif.Scope
