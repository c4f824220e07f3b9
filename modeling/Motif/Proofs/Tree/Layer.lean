import Mathlib.Data.List.Forall2
import Motif.Tree.Node

/-!
# Layers of trees, related

What proofs about whole trees share. `Kind.Rel` relates two layers of the same shape child by child,
with a relation of its own for statement lists; `Kind.traverse_rel` says that a traversal relates
every child with what it has become. `Node.ind` is induction over trees, and `Node.Everywhere`
says that a property holds of all nodes of a tree.
-/

namespace Motif

open List

/-! ## Outcomes of stateful computations -/

/-- A stateful computation can end with a value, from some state. -/
def Yields {σ α : Type} (x : StateM σ α) (a : α) : Prop := ∃ s s', x.run s = (a, s')

namespace Yields

variable {σ α β : Type} {x : StateM σ α}

theorem of_run {s s' : σ} {a : α} (h : x.run s = (a, s')) : Yields x a := ⟨s, s', h⟩

theorem pure_eq {a b : α} (h : Yields (pure a : StateM σ α) b) : b = a := by
  obtain ⟨s, s', h⟩ := h
  exact (congrArg Prod.fst h).symm

theorem bind {f : α → StateM σ β} {b : β} (h : Yields (x >>= f) b) : ∃ a, Yields x a ∧ Yields (f a) b := by
  obtain ⟨s, s', h⟩ := h
  exact ⟨(x.run s).1, ⟨s, (x.run s).2, rfl⟩, ⟨(x.run s).2, s', h⟩⟩

theorem bind_pure {f : α → β} {b : β} (h : Yields (x >>= fun a => pure (f a)) b) :
    ∃ a, Yields x a ∧ b = f a := by
  obtain ⟨a, ha, hb⟩ := h.bind
  exact ⟨a, ha, hb.pure_eq⟩

end Yields

namespace Kind

variable {α β : Type} {k : Kind α} {k' : Kind β} {R : α → β → Prop} {xs : List α} {ys : List β}

/-! ## Layers of the same shape -/

/-- Two layers of the same shape, with related children: by `K` those in which names are read (keys
    and exported declarations), as lists by `B` the bodies, by `R` all others. -/
inductive Rel (R K : α → β → Prop) (B : List α → List β → Prop) : Kind α → Kind β → Prop where
  | module {b b'} (hb : B b b') : Rel R K B (.module b) (.module b')
  | declare {as as'} (ha : Forall₂ R as as') : Rel R K B (.declare as) (.declare as')
  | assign {t v v'} (hv : R v v') : Rel R K B (.assign t v) (.assign t v')
  | branch {c c' t t' e e'} (hc : R c c') (ht : B t t') (he : B e e') :
      Rel R K B (.branch c t e) (.branch c' t' e')
  | loop {rs rs' b b' e e'} (hr : Forall₂ R rs rs') (hb : B b b') (he : B e e') :
      Rel R K B (.loop rs b e) (.loop rs' b' e')
  | range {t c c' g g'} (hc : R c c') (hg : Option.Rel R g g') :
      Rel R K B (.range t c g) (.range t c' g')
  | ret {v v'} (hv : R v v') : Rel R K B (.ret v) (.ret v')
  | exprStmt {e e'} (he : R e e') : Rel R K B (.exprStmt e) (.exprStmt e')
  | function {n ps ps' g g' b b'} (hp : Forall₂ R ps ps') (hg : Option.Rel R g g')
      (hb : B b b') : Rel R K B (.function n ps g b) (.function n ps' g' b')
  | param {n p p' v} (hp : Option.Rel R p p') : Rel R K B (.param n p v) (.param n p' v)
  | importAll {s l} : Rel R K B (.importAll s l) (.importAll s l)
  | importFrom {s is} : Rel R K B (.importFrom s is) (.importFrom s is)
  | exported {d d' is} (hd : Option.Rel K d d') : Rel R K B (.exported d is) (.exported d' is)
  | literal {v} : Rel R K B (.literal v) (.literal v)
  | ident {n} : Rel R K B (.ident n) (.ident n)
  | context : Rel R K B .context .context
  | unary {op x x'} (hx : R x x') : Rel R K B (.unary op x) (.unary op x')
  | binary {op l l' r r'} (hl : R l l') (hr : R r r') : Rel R K B (.binary op l r) (.binary op l' r')
  | conj {l l' r r'} (hl : R l l') (hr : R r r') : Rel R K B (.conj l r) (.conj l' r')
  | disj {l l' r r'} (hl : R l l') (hr : R r r') : Rel R K B (.disj l r) (.disj l' r')
  | cond {c c' y y' n n'} (hc : R c c') (hy : R y y') (hn : R n n') :
      Rel R K B (.cond c y n) (.cond c' y' n')
  | array {es es'} (he : Forall₂ R es es') : Rel R K B (.array es) (.array es')
  | object {es es'} (he : Forall₂ R es es') : Rel R K B (.object es) (.object es')
  | entry {k k' v v'} (hk : K k k') (hv : R v v') : Rel R K B (.entry k v) (.entry k' v')
  | member {o o' p p'} (ho : R o o') (hp : K p p') : Rel R K B (.member o p) (.member o' p')
  | call {f f' as as'} (hf : R f f') (ha : Forall₂ R as as') :
      Rel R K B (.call f as) (.call f' as')
  | lambda {ps ps' b b'} (hp : Forall₂ R ps ps') (hb : R b b') :
      Rel R K B (.lambda ps b) (.lambda ps' b')
  | reduce {as as' rs rs' b b'} (ha : Forall₂ R as as') (hr : Forall₂ R rs rs')
      (hb : B b b') : Rel R K B (.reduce as rs b) (.reduce as' rs' b')
  | choose {v v' cs cs' e e'} (hv : R v v') (hc : Forall₂ R cs cs') (he : B e e') :
      Rel R K B (.choose v cs e) (.choose v' cs' e')
  | clause {ps ps' b b'} (hp : Forall₂ R ps ps') (hb : B b b') :
      Rel R K B (.clause ps b) (.clause ps' b')
  | pattern {e e'} (he : R e e') : Rel R K B (.pattern e) (.pattern e')
  | objectPattern {es es'} (he : Forall₂ R es es') :
      Rel R K B (.objectPattern es) (.objectPattern es')
  | arrayPattern {es es'} (he : Forall₂ R es es') :
      Rel R K B (.arrayPattern es) (.arrayPattern es')
  | element {k k' v v'} (hk : Option.Rel K k k') (hv : R v v') :
      Rel R K B (.element k v) (.element k' v')
  | regex {p f} : Rel R K B (.regex p f) (.regex p f)
  | doBlock {b b'} (hb : B b b') : Rel R K B (.doBlock b) (.doBlock b')
  | generator {b b'} (hb : B b b') : Rel R K B (.generator b) (.generator b')
  | await {r v v'} (hv : R v v') : Rel R K B (.await r v) (.await r v')
  | emit {v v'} (hv : R v v') : Rel R K B (.emit v) (.emit v')

theorem Rel.tag_eq {K : α → β → Prop} {B : List α → List β → Prop} (h : Rel R K B k k') : k'.tag = k.tag := by
  cases h <;> rfl

def keys : Kind α → List α
  | .entry key _ => [key]
  | .member _ property => [property]
  | .element key _ => key.toList
  | .exported decl _ => decl.toList
  | _ => []

theorem mem_children_of_mem_keys {a : α} (h : a ∈ k.keys) : a ∈ k.children := by
  cases k <;> simp_all [keys, children]

section Imp

variable {R R' K K' : α → β → Prop} {B B' : List α → List β → Prop}

theorem forall₂_imp_mem (h : Forall₂ R xs ys) (himp : ∀ a ∈ xs, ∀ b, R a b → R' a b) :
    Forall₂ R' xs ys := by
  induction h with
  | nil => exact .nil
  | cons hxy _ ih =>
    refine .cons (himp _ mem_cons_self _ hxy) (ih fun a ha => ?_)
    exact himp a (mem_cons_of_mem _ ha)

theorem exists_of_mem_right (h : Forall₂ R xs ys) {b : β} (hb : b ∈ ys) : ∃ a ∈ xs, R a b := by
  induction h with
  | nil => cases hb
  | @cons x y _ _ hxy _ ih =>
    rcases mem_cons.mp hb with rfl | hb
    · exact ⟨x, mem_cons_self, hxy⟩
    · obtain ⟨a, ha, hab⟩ := ih hb
      exact ⟨a, mem_cons_of_mem _ ha, hab⟩

theorem optionRel_imp_mem {x : Option α} {y : Option β} (h : Option.Rel R x y)
    (himp : ∀ a ∈ x.toList, ∀ b, R a b → R' a b) : Option.Rel R' x y := by
  cases h with
  | none => exact .none
  | some hxy => exact .some (himp _ (by simp) _ hxy)

theorem Rel.imp (h : Rel R K B k k') (hR : ∀ a ∈ k.children, ∀ b, R a b → R' a b)
    (hK : ∀ a ∈ k.keys, ∀ b, K a b → K' a b)
    (hB : ∀ as, (∀ a ∈ as, a ∈ k.children) → ∀ bs, B as bs → B' as bs) : Rel R' K' B' k k' := by
  have hlist {xs : List α} {ys : List β} (h : Forall₂ R xs ys) (hxs : ∀ a ∈ xs, a ∈ k.children) :
      Forall₂ R' xs ys := forall₂_imp_mem h fun a ha => hR a (hxs a ha)
  have hoption {x : Option α} {y : Option β} (h : Option.Rel R x y)
      (hx : ∀ a ∈ x.toList, a ∈ k.children) :
      Option.Rel R' x y := optionRel_imp_mem h fun a ha => hR a (hx a ha)
  cases h <;> constructor <;>
    first
    | exact hR _ (by simp [children]) _ ‹_›
    | exact hK _ (by simp [keys]) _ ‹_›
    | exact hB _ (by simp +contextual [children]) _ ‹_›
    | exact hlist ‹_› (by simp +contextual [children])
    | exact hoption ‹_› (by simp +contextual [children])
    | exact optionRel_imp_mem ‹_› (by simpa [keys] using hK)

/-- What holds of the parts of two kinds holds of their lists of children, if it holds of what is put
    together from lists of which it holds. -/
theorem Rel.children_of {Q : List α → List β → Prop} (h : Rel R R B k k') (hnil : Q [] [])
    (hcons : ∀ {a b xs ys}, R a b → Q xs ys → Q (a :: xs) (b :: ys))
    (happend : ∀ {xs ys xs' ys'}, Q xs ys → Q xs' ys' → Q (xs ++ xs') (ys ++ ys'))
    (hB : ∀ {xs ys}, B xs ys → Q xs ys) : Q k.children k'.children := by
  have hlist {xs : List α} {ys : List β} (h : Forall₂ R xs ys) : Q xs ys := by
    induction h with
    | nil => exact hnil
    | cons hxy _ ih => exact hcons hxy ih
  have hoption {x : Option α} {y : Option β} (h : Option.Rel R x y) : Q x.toList y.toList := by
    cases h with
    | none => exact hnil
    | some hxy => exact hcons hxy hnil
  cases h with
  | module h | doBlock h | generator h => exact hB h
  | declare h | array h | object h | objectPattern h | arrayPattern h => exact hlist h
  | param h | exported h => exact hoption h
  | branch hc ht he => exact happend (hcons hc (hB ht)) (hB he)
  | loop hr hb he => exact happend (happend (hlist hr) (hB hb)) (hB he)
  | range hc hg => exact hcons hc (hoption hg)
  | function hp hg hb => exact happend (happend (hlist hp) (hoption hg)) (hB hb)
  | call hf ha => exact hcons hf (hlist ha)
  | lambda hp hb => exact happend (hlist hp) (hcons hb hnil)
  | reduce ha hr hb => exact happend (happend (hlist ha) (hlist hr)) (hB hb)
  | choose hv hc he => exact happend (hcons hv (hlist hc)) (hB he)
  | clause hp hb => exact happend (hlist hp) (hB hb)
  | element hk hv => exact happend (hoption hk) (hcons hv hnil)
  | assign h | ret h | exprStmt h | unary h | pattern h | await h | emit h => exact hcons h hnil
  | binary h h' | conj h h' | disj h h' | entry h h' | member h h' => exact hcons h (hcons h' hnil)
  | cond hc hx hy => exact hcons hc (hcons hx (hcons hy hnil))
  | importAll | importFrom | literal | ident | context | regex => exact hnil

end Imp

theorem Rel.forall_children {P : β → Prop}
    (h : Rel (fun _ b => P b) (fun _ b => P b) (fun _ bs => ∀ b ∈ bs, P b) k k') : ∀ b ∈ k'.children, P b :=
  h.children_of (Q := fun _ bs => ∀ b ∈ bs, P b) (forall_mem_nil _)
    (fun hb hbs => forall_mem_cons.mpr ⟨hb, hbs⟩)
    (fun h h' => forall_mem_append.mpr ⟨h, h'⟩) id

theorem Rel.forall₂_children (h : Rel R R (Forall₂ R) k k') : Forall₂ R k.children k'.children :=
  h.children_of .nil .cons (fun h h' => rel_append h h') id

theorem Rel.map_eq {ι : Type} {f : α → ι} {g : β → ι}
    (h : Rel (fun a b => f a = g b) (fun a b => f a = g b) (fun as bs => as.map f = bs.map g) k k') :
    k.map f = k'.map g := by
  have hlist (xs : List α) (ys : List β) :
      Forall₂ (fun a b => f a = g b) xs ys ↔ xs.map f = ys.map g := by
    rw [← forall₂_map_right_iff, ← forall₂_map_left_iff, forall₂_eq_eq_eq]
  have hoption (x : Option α) (y : Option β) :
      Option.Rel (fun a b => f a = g b) x y → x.map f = y.map g := by
    rintro (hxy | _)
    · exact congrArg some hxy
    · rfl
  cases h with
  | range hc hg => rw [map, map, hc, hoption _ _ hg]
  | function hp hg hb => rw [map, map, (hlist _ _).mp hp, hoption _ _ hg, hb]
  | param hp => rw [map, map, hoption _ _ hp]
  | exported hd => rw [map, map, hoption _ _ hd]
  | element hk hv => rw [map, map, hoption _ _ hk, hv]
  | _ => simp_all [map]

theorem Rel.refl (k : Kind α) : Rel (· = ·) (· = ·) (· = ·) k k := by
  have hlist (xs : List α) : Forall₂ (· = ·) xs xs := by rw [forall₂_eq_eq_eq]
  have hoption (x : Option α) : Option.Rel (· = ·) x x := by
    cases x with
    | none => exact .none
    | some a => exact .some rfl
  cases k <;> constructor <;> first | rfl | exact hlist _ | exact hoption _

theorem rel_map {ι : Type} {f : ι → α} {g : ι → β} {k : Kind ι} (h : ∀ c ∈ k.children, R (f c) (g c)) :
    Rel R R (Forall₂ R) (k.map f) (k.map g) := by
  have hlist {xs : List ι} (hxs : ∀ c ∈ xs, c ∈ k.children) :
      Forall₂ R (xs.map f) (xs.map g) := by
    rw [forall₂_map_left_iff, forall₂_map_right_iff]
    exact forall₂_same.mpr fun c hc => h c (hxs c hc)
  have hoption {x : Option ι} (hx : ∀ c ∈ x.toList, c ∈ k.children) :
      Option.Rel R (x.map f) (x.map g) := by
    cases x with
    | none => exact .none
    | some c => exact .some (h c (hx c (by simp)))
  cases k <;> constructor <;>
    first
    | exact h _ (by simp [children])
    | exact hlist (by simp +contextual [children])
    | exact hoption (by simp +contextual [children])

/-! ## Traversals -/

section Traversal

variable {σ : Type} {f : α → StateM σ β} {g : List β → StateM σ (List β)}

theorem traverseList_rel (h : Yields (traverseList f xs) ys) :
    Forall₂ (fun a b => Yields (f a) b) xs ys := by
  induction xs generalizing ys with
  | nil => rw [h.pure_eq]; exact .nil
  | cons x xs ih =>
    obtain ⟨y, hy, h⟩ := h.bind
    obtain ⟨zs, hzs, rfl⟩ := h.bind_pure
    exact .cons hy (ih hzs)

theorem traverseOption_rel {x : Option α} {y : Option β} (h : Yields (traverseOption f x) y) :
    Option.Rel (fun a b => Yields (f a) b) x y := by
  cases x with
  | none => rw [h.pure_eq]; exact .none
  | some x =>
    obtain ⟨y, hy, rfl⟩ := h.bind_pure
    exact .some hy

/-- What a traversal makes of a body: each member becomes something, and `g` is given the list of
    what they have become. -/
def BodyYields (f : α → StateM σ β) (g : List β → StateM σ (List β)) (xs : List α) (ys : List β) : Prop :=
  ∃ mid, Forall₂ (fun a b => Yields (f a) b) xs mid ∧ Yields (g mid) ys

theorem bodyYields_of_bind (h : Yields (traverseList f xs >>= g) ys) : BodyYields f g xs ys := by
  obtain ⟨mid, hmid, hg⟩ := h.bind
  exact ⟨mid, traverseList_rel hmid, hg⟩

theorem traverse_rel (h : Yields (k.traverse f g) k') :
    Rel (fun a b => Yields (f a) b) (fun a b => Yields (f a) b) (BodyYields f g) k k' := by
  cases k with
  | importAll | importFrom | literal | ident | context | regex => rw [h.pure_eq]; constructor
  | assign _ v | ret v | exprStmt v | unary _ v | pattern v | await _ v | emit v =>
    obtain ⟨v', hv, rfl⟩ := h.bind_pure
    constructor; exact hv
  | declare as | array as | object as | objectPattern as | arrayPattern as =>
    obtain ⟨as', ha, rfl⟩ := h.bind_pure
    constructor; exact traverseList_rel ha
  | param _ x | exported x =>
    obtain ⟨x', hx, rfl⟩ := h.bind_pure
    constructor; exact traverseOption_rel hx
  | module b | doBlock b | generator b =>
    obtain ⟨b', hb, rfl⟩ := h.bind_pure
    constructor; exact bodyYields_of_bind hb
  | binary _ l r | conj l r | disj l r | entry l r | member l r =>
    obtain ⟨l', hl, h⟩ := h.bind
    obtain ⟨r', hr, rfl⟩ := h.bind_pure
    constructor <;> assumption
  | cond c y n =>
    obtain ⟨c', hc, h⟩ := h.bind
    obtain ⟨y', hy, h⟩ := h.bind
    obtain ⟨n', hn, rfl⟩ := h.bind_pure
    exact .cond hc hy hn
  | branch c t e =>
    obtain ⟨c', hc, h⟩ := h.bind
    obtain ⟨t', ht, h⟩ := h.bind
    obtain ⟨e', he, rfl⟩ := h.bind_pure
    exact .branch hc (bodyYields_of_bind ht) (bodyYields_of_bind he)
  | loop rs b e =>
    obtain ⟨rs', hr, h⟩ := h.bind
    obtain ⟨b', hb, h⟩ := h.bind
    obtain ⟨e', he, rfl⟩ := h.bind_pure
    exact .loop (traverseList_rel hr) (bodyYields_of_bind hb) (bodyYields_of_bind he)
  | range t c g =>
    obtain ⟨c', hc, h⟩ := h.bind
    obtain ⟨g', hg, rfl⟩ := h.bind_pure
    exact .range hc (traverseOption_rel hg)
  | function n ps g b =>
    obtain ⟨ps', hp, h⟩ := h.bind
    obtain ⟨g', hg, h⟩ := h.bind
    obtain ⟨b', hb, rfl⟩ := h.bind_pure
    exact .function (traverseList_rel hp) (traverseOption_rel hg) (bodyYields_of_bind hb)
  | call f as =>
    obtain ⟨f', hf, h⟩ := h.bind
    obtain ⟨as', ha, rfl⟩ := h.bind_pure
    exact .call hf (traverseList_rel ha)
  | lambda ps b =>
    obtain ⟨ps', hp, h⟩ := h.bind
    obtain ⟨b', hb, rfl⟩ := h.bind_pure
    exact .lambda (traverseList_rel hp) hb
  | reduce as rs b =>
    obtain ⟨as', ha, h⟩ := h.bind
    obtain ⟨rs', hr, h⟩ := h.bind
    obtain ⟨b', hb, rfl⟩ := h.bind_pure
    exact .reduce (traverseList_rel ha) (traverseList_rel hr) (bodyYields_of_bind hb)
  | choose v cs e =>
    obtain ⟨v', hv, h⟩ := h.bind
    obtain ⟨cs', hc, h⟩ := h.bind
    obtain ⟨e', he, rfl⟩ := h.bind_pure
    exact .choose hv (traverseList_rel hc) (bodyYields_of_bind he)
  | clause ps b =>
    obtain ⟨ps', hp, h⟩ := h.bind
    obtain ⟨b', hb, rfl⟩ := h.bind_pure
    exact .clause (traverseList_rel hp) (bodyYields_of_bind hb)
  | element k v =>
    obtain ⟨k', hk, h⟩ := h.bind
    obtain ⟨v', hv, rfl⟩ := h.bind_pure
    exact .element (traverseOption_rel hk) hv

end Traversal

section Map

variable {ι : Type} {m : Type → Type} [Monad m] (f : β → m ι) (g : List ι → m (List ι)) (h : α → β)

@[simp]
theorem traverseList_map (xs : List α) : traverseList f (xs.map h) = traverseList (fun a => f (h a)) xs := by
  induction xs with
  | nil => rfl
  | cons x xs ih => simp only [map_cons, traverseList, ih]

@[simp]
theorem traverseOption_map (x : Option α) :
    traverseOption f (x.map h) = traverseOption (fun a => f (h a)) x := by
  cases x <;> rfl

theorem traverse_map (k : Kind α) : (k.map h).traverse f g = k.traverse (fun a => f (h a)) g := by
  cases k <;> simp only [map, traverse, traverseList_map, traverseOption_map]

end Map

@[simp]
theorem children_map (f : α → β) (k : Kind α) : (k.map f).children = k.children.map f := by
  cases k <;> simp [map, children, Option.toList_map]

end Kind

namespace Node

/-! ## Whole trees -/

theorem preorder_eq (n : Node) : n.preorder = n :: n.children.flatMap preorder := by
  rw [preorder, fold_eq, Kind.children_map]
  rfl

theorem length_preorder_lt {n c : Node} (h : c ∈ n.children) : c.preorder.length < n.preorder.length := by
  rw [preorder_eq n, length_cons, flatMap_def]
  exact Nat.lt_succ_of_le (sublist_flatten_of_mem (mem_map_of_mem h)).length_le

/-- Induction over trees: what holds of a node if it holds of its children holds of all nodes. -/
theorem ind {P : Node → Prop} (step : ∀ n, (∀ c ∈ n.children, P c) → P n) (n : Node) : P n :=
  step n fun c _ => ind step c
termination_by n.preorder.length
decreasing_by exact length_preorder_lt ‹_›

/-- The property holds of the node and of all nodes below it. -/
def Everywhere (p : Node → Prop) (n : Node) : Prop := ∀ x ∈ n.preorder, p x

instance (p : Node → Prop) [DecidablePred p] : DecidablePred (Everywhere p) := fun n =>
  inferInstanceAs (Decidable (∀ x ∈ n.preorder, p x))

namespace Everywhere

variable {p : Node → Prop} {n c : Node}

theorem iff_children : Everywhere p n ↔ p n ∧ ∀ c ∈ n.children, Everywhere p c := by
  unfold Everywhere
  rw [preorder_eq n]
  constructor
  · intro h
    refine ⟨h n mem_cons_self, fun c hc x hx => ?_⟩
    exact h x (mem_cons_of_mem _ (mem_flatMap.mpr ⟨c, hc, hx⟩))
  · rintro ⟨hn, h⟩ x hx
    rcases mem_cons.mp hx with rfl | hx
    · exact hn
    · obtain ⟨c, hc, hx⟩ := mem_flatMap.mp hx
      exact h c hc x hx

theorem here (h : Everywhere p n) : p n := (iff_children.mp h).1

theorem child (h : Everywhere p n) (hc : c ∈ n.children) : Everywhere p c := (iff_children.mp h).2 c hc

theorem imp {q : Node → Prop} (h : Everywhere p n) (hq : ∀ m, p m → q m) : Everywhere q n :=
  fun m hm => hq m (h m hm)

theorem mk (hn : p n) (h : ∀ c ∈ n.children, Everywhere p c) : Everywhere p n := iff_children.mpr ⟨hn, h⟩

theorem everywhere (h : Everywhere p n) : Everywhere (Everywhere p) n := by
  induction n using ind with
  | step n ih => exact mk h fun c hc => ih c hc (h.child hc)

end Everywhere

end Node

end Motif
