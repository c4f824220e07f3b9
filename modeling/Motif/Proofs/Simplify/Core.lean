import Motif.Proofs.Simplify.Rewrite

/-!
# The core language, simplified

Simplification keeps what programs mean only on a part of the language: without tests, without
negated order comparisons (neither `x < y` nor its opposite holds of a number that is none), with
keys that can be read off, and so on. `InCore` says what is asked of each node. Some of it has to
hold of simplified programs as well; `Becomes.head` and `Becomes.settled` carry it over.
-/

namespace Motif

open List

def Node.operator? (n : Node) : Option BinaryOp :=
  match n.kind with
  | .binary op _ _ => some op
  | _ => none

/-- An order comparison; the other comparisons are equality and its opposite. -/
def Node.IsOrder (n : Node) : Prop := ∃ op ∈ n.operator?, op ∈ [BinaryOp.lt, .lte, .gt, .gte]

instance (n : Node) : Decidable n.IsOrder :=
  inferInstanceAs (Decidable (∃ op ∈ n.operator?, op ∈ [BinaryOp.lt, .lte, .gt, .gte]))

namespace Simplify

variable {b : List Node} {p : Node → Prop}

/-- Nothing at the node has to do with patterns, and no order is negated. -/
def InCore (n : Node) : Prop :=
  match n.kind with
  | .pattern _ => False
  | .choose .. => False
  | .clause .. => False
  | .unary .not operand => operand.Everywhere fun m => ¬ m.IsOrder
  | .member _ key => key.isIdent ∨ key.isLiteral
  | .entry key _ => key.isIdent ∨ key.isLiteral
  | .exprStmt expr => expr.Everywhere fun m => m.tag ≠ .reduce
  | .declare assignments => ∀ a ∈ assignments, a.tag = .assign
  | .exported (some decl) _ => decl.tag ∈ [Tag.declare, .assign, .function]
  | _ => True

instance : DecidablePred InCore := fun n => by
  unfold InCore
  split <;> infer_instance

/-! ## Simplified trees -/

/-- The first node is simplified to the second, for some fresh ids. -/
def Becomes (n n' : Node) : Prop := Yields (simplify n) n'

def BodyBecomes (b b' : List Node) : Prop := ∃ mid, Forall₂ Becomes b mid ∧ b' = statements mid

theorem simplify_eq (n : Node) :
    simplify n = (do
      let kind ← n.kind.traverse simplify fun body => return statements body
      step { n with kind }) := by
  rw [simplify, Node.fold_eq, Kind.traverse_map]

variable {n n' : Node}

theorem Becomes.stepped (h : Becomes n n') :
    ∃ k, Kind.Rel Becomes Becomes BodyBecomes n.kind k ∧ Yields (step ⟨n.id, n.span, k⟩) n' := by
  unfold Becomes at h
  rw [simplify_eq] at h
  obtain ⟨k, hk, hstep⟩ := h.bind
  refine ⟨k, (Kind.traverse_rel hk).imp (fun _ _ _ h => h) (fun _ _ _ h => h) ?_, hstep⟩
  rintro b _ b' ⟨mid, hmid, hb⟩
  exact ⟨mid, hmid, hb.pure_eq⟩

theorem Becomes.layer (h : Becomes n n') :
    ∃ k, Kind.Rel Becomes Becomes BodyBecomes n.kind k ∧ Rewrite ⟨n.id, n.span, k⟩ n' := by
  obtain ⟨k, hrel, hstep⟩ := h.stepped
  exact ⟨k, hrel, rewrite_of_step hstep⟩

theorem bodyBecomes_nil (h : BodyBecomes [] b) : b = [] := by
  obtain ⟨mid, hmid, rfl⟩ := h
  cases hmid
  rfl

theorem Rewrite.eq_of_tag (h : Rewrite n n')
    (htag : n.tag ∉ [Tag.unary, .binary, .conj, .disj, .cond, .array, .object, .branch, .loop, .function]) :
    n' = n := by
  cases h with
  | keep => rfl
  | _ => simp [Kind.tag] at htag

theorem Rewrite.tag_of_statement (h : Rewrite n n')
    (htag : n.tag ∈ [Tag.branch, .loop, .function]) : n'.tag = n.tag := by
  cases h with
  | keep | branch | fuse | returnReduction => rfl
  | _ => simp [Kind.tag] at htag

/-! ## The heads of simplified trees -/

/-- A property of what is at the root of a tree that simplification cannot bring about. -/
structure Inherited (q : Node → Prop) : Prop where
  shape : ∀ {m m'}, m'.tag = m.tag → m'.operator? = m.operator? → q m → q m'
  literal : ∀ {m}, m.tag = .literal → q m
  negation : ∀ {m}, m.tag = .unary → q m
  inverse : ∀ {m m' op op'}, m.operator? = some op → op.inverse? = some op' →
    m'.operator? = some op' → q m → q m'

theorem operator?_eq_of_rel {R K : Node → Node → Prop} {B : List Node → List Node → Prop}
    (h : Kind.Rel R K B n.kind n'.kind) : n'.operator? = n.operator? := by
  unfold Node.operator?
  generalize n.kind = k at *
  generalize n'.kind = k' at *
  cases h <;> rfl

theorem tag_of_operator? {op : BinaryOp} (h : n.operator? = some op) : n.tag = .binary := by
  unfold Node.operator? at h
  split at h
  · rename_i hk
    rw [Node.tag, hk]
    rfl
  · cases h

theorem Becomes.head {q : Node → Prop} (hq : Inherited q) (h : Becomes n n') (hn : n.Everywhere q) : q n' := by
  induction n using Node.ind generalizing n' with | step n ih => ?_
  obtain ⟨k, hrel, hrw⟩ := h.layer
  have hchild {c c' : Node} (hc : c ∈ n.children) (h : Becomes c c') : q c' := ih c hc h (hn.child hc)
  have hself : q ⟨n.id, n.span, k⟩ := hq.shape hrel.tag_eq (operator?_eq_of_rel hrel) hn.here
  obtain ⟨i, s, k₀⟩ := n
  -- A new root is a literal, a negation, an inverted comparison, of the old kind, or a part.
  cases hrw with
  | keep => exact hself
  | unaryLiteral | binaryLiteral | array | object => exact hq.literal rfl
  | conjNegations | disjNegations => exact hq.negation rfl
  | cond | branch | fuse | returnReduction => refine hq.shape ?_ ?_ hself <;> rfl
  | invert hx hop =>
    cases hrel with
    | unary hx' =>
      refine hq.inverse ?_ hop rfl (hchild (by simp) hx')
      simp [Node.operator?, hx]
  | conjLiteral hl =>
    cases hrel with
    | conj hl' hr' =>
      split
      · exact hchild (by simp) hr'
      · exact hchild (by simp) hl'
  | disjLiteral hl =>
    cases hrel with
    | disj hl' hr' =>
      split
      · exact hchild (by simp) hl'
      · exact hchild (by simp) hr'
  | condLiteral hc =>
    cases hrel with
    | cond hc' hx' hy' =>
      split
      · exact hchild (by simp) hx'
      · exact hchild (by simp) hy'

theorem inherited_tag {tags : List Tag} (h : ∀ t ∈ [Tag.literal, .unary, .binary], t ∉ tags) :
    Inherited fun m => m.tag ∉ tags where
  shape htag _ hm := by rwa [htag]
  literal hm := hm ▸ h _ (by simp)
  negation hm := hm ▸ h _ (by simp)
  inverse _ _ hm' _ := tag_of_operator? hm' ▸ h _ (by simp)

theorem inherited_order : Inherited fun m => ¬ m.IsOrder where
  shape _ hop hm := by rwa [Node.IsOrder, hop]
  literal hm := by
    rintro ⟨op, hop, -⟩
    rw [tag_of_operator? hop] at hm
    cases hm
  negation hm := by
    rintro ⟨op, hop, -⟩
    rw [tag_of_operator? hop] at hm
    cases hm
  inverse {m m' op op'} hop hinv hop' hm := by
    simp only [Node.IsOrder, hop, hop', Option.mem_def, Option.some.injEq] at hm ⊢
    cases op <;> simp [BinaryOp.inverse?] at hinv <;> subst hinv <;> simp_all

/-! ## Declarations and statements -/

def PlainDecl (d : Node) : Prop :=
  match d.kind with
  | .assign .. => True
  | .function .. => True
  | .declare assignments => ∀ a ∈ assignments, a.tag = .assign
  | _ => False

/-- What has to hold of each node of a simplified tree: no reduction stands as a statement, and what
    is declared in an export is plain. -/
def Settled (n : Node) : Prop :=
  match n.kind with
  | .exprStmt expr => expr.tag ≠ .reduce
  | .exported (some decl) _ => PlainDecl decl
  | _ => True

def PlainExport (n : Node) : Prop :=
  match n.kind with
  | .exported (some decl) _ => PlainDecl decl
  | _ => True

def LoneReduction (b : List Node) : Prop := ∃ i s x, b = [⟨i, s, .exprStmt x⟩] ∧ x.tag = .reduce

theorem settled_of_tag (h : n.tag ∉ [Tag.exprStmt, .exported]) : Settled n := by
  unfold Settled
  split
  · rename_i hk
    simp [Node.tag, hk, Kind.tag] at h
  · rename_i hk
    simp [Node.tag, hk, Kind.tag] at h
  · trivial

def reshapedTags : List Tag := [.literal, .unary, .binary, .conj, .disj, .cond, .branch, .loop, .ret]

def madeTags : List Tag := .function :: reshapedTags

/-- A property of trees that their parts have too, where simplification takes them out of the tree. -/
structure Hereditary (P : Node → Prop) : Prop where
  part : ∀ {n c}, n.tag ∈ .exported :: reshapedTags → P n → c ∈ n.children → P c
  exported : ∀ i s items, P ⟨i, s, .exported none items⟩

structure Compositional (P : Node → Prop) : Prop extends Hereditary P where
  made : ∀ {i s k}, k.tag ∈ reshapedTags → (∀ c ∈ k.children, P c) → P ⟨i, s, k⟩
  returned : ∀ {i s name ps g j t e}, P ⟨i, s, .function name ps g [⟨j, t, .exprStmt e⟩]⟩ →
    P ⟨i, s, .function name ps g [⟨j, t, .ret e⟩]⟩

namespace Hereditary

variable (hp : Hereditary p)

include hp

theorem negated {a : Node} (hn : p n) (ha : negated? n = some a) : p a := by
  obtain ⟨i, s, k⟩ := n
  unfold negated? at ha
  split at ha
  · rename_i hk
    cases ha
    cases hk
    exact hp.part (of_decide_eq_true rfl) hn mem_cons_self
  · cases ha

theorem stripNots (n : Node) (hn : p n) : p (stripNots n).1 := by
  fun_induction Simplify.stripNots n with
  | case1 i s x inner odd heq ih =>
    rw [heq] at ih
    exact ih (hp.part (of_decide_eq_true rfl) hn mem_cons_self)
  | case2 n _ => exact hn

theorem takenBody (hn : p n) : ∀ s ∈ takenBody n, p s := by
  unfold Simplify.takenBody
  split
  · rename_i c t f hk
    have hpart {s : Node} (hs : s ∈ n.children) : p s :=
      hp.part (by simp [Node.tag, hk, Kind.tag, reshapedTags]) hn hs
    split
    · split <;> exact fun s hs => hpart (by simp [Node.children, hk, Kind.children, hs])
    · simpa using hn
  · simpa using hn

theorem taken (h : ∀ s ∈ b, p s) : ∀ s ∈ b.flatMap Simplify.takenBody, p s := by
  intro s hs
  obtain ⟨n, hn, hs⟩ := mem_flatMap.mp hs
  exact hp.takenBody (h n hn) s hs

theorem statements (h : ∀ s ∈ b, p s) : ∀ s ∈ statements b, p s := by
  intro s hs
  obtain ⟨n, hn, hs⟩ := mem_flatMap.mp hs
  have hn := hp.taken h n hn
  unfold splitExport at hs
  split at hs
  · rename_i d items hk
    rcases mem_pair.mp hs with rfl | rfl
    · exact hp.part (by simp [Node.tag, hk, Kind.tag]) hn (by simp [Node.children, hk])
    · exact hp.exported _ _ _
  · rwa [mem_singleton.mp hs]

theorem body {b' : List Node} (h : BodyBecomes b b') (hb : ∀ c ∈ b, ∀ c', Becomes c c' → p c') :
    ∀ c ∈ b', p c := by
  obtain ⟨mid, hmid, rfl⟩ := h
  refine hp.statements fun s hs => ?_
  obtain ⟨c, hc, hcs⟩ := Kind.exists_of_mem_right hmid hs
  exact hb c hc s hcs

theorem children {k k' : Kind Node} (h : Kind.Rel Becomes Becomes BodyBecomes k k')
    (hk : ∀ c ∈ k.children, ∀ c', Becomes c c' → p c') : ∀ c ∈ k'.children, p c := by
  refine (h.imp hk (fun c hkey => hk c (Kind.mem_children_of_mem_keys hkey)) ?_).forall_children
  exact fun b hb b' h => hp.body h fun c hcb => hk c (hb c hcb)

end Hereditary

theorem Compositional.rewrite (hp : Compositional p) (h : Rewrite n n') (hn : p n) : p n' := by
  have hc {c : Node} (htag : n.tag ∈ reshapedTags) (hc : c ∈ n.children) : p c :=
    hp.part (mem_cons_of_mem _ htag) hn hc
  cases h with
  | keep => exact hn
  | unaryLiteral | binaryLiteral | array | object =>
    exact hp.made (of_decide_eq_true rfl) (by simp)
  | @invert i s x op op' l r hx hop =>
    have hx' : p x := hc (of_decide_eq_true rfl) mem_cons_self
    refine hp.made (of_decide_eq_true rfl) fun c hc => hp.part ?_ hx' ?_
    · simp [Node.tag, hx, Kind.tag, reshapedTags]
    · simpa [Node.children, hx] using hc
  | conjLiteral | disjLiteral | condLiteral =>
    split <;> exact hc (of_decide_eq_true rfl) (by simp)
  | conjNegations hl hr | disjNegations hl hr =>
    have ha := hp.negated (hc (of_decide_eq_true rfl) mem_cons_self) hl
    have hb := hp.negated (hc (of_decide_eq_true rfl) (by simp)) hr
    refine hp.made (of_decide_eq_true rfl) (forall_mem_singleton.mpr ?_)
    exact hp.made (of_decide_eq_true rfl) (by simp [ha, hb])
  | @cond i s c x y =>
    have hcond := hp.stripNots c (hc (of_decide_eq_true rfl) mem_cons_self)
    have hx : p x := hc (of_decide_eq_true rfl) (by simp)
    have hy : p y := hc (of_decide_eq_true rfl) (by simp)
    refine hp.made (of_decide_eq_true rfl) ?_
    cases (stripNots c).2 <;> simp [hcond, hx, hy]
  | @branch i s c t f =>
    have hcond := hp.stripNots c (hc (of_decide_eq_true rfl) mem_cons_self)
    have hbodies : ∀ m ∈ t ++ f, p m := fun m hm => hc (of_decide_eq_true rfl) (mem_cons_of_mem _ hm)
    refine hp.made (of_decide_eq_true rfl) ?_
    cases (stripNots c).2 <;> simp <;> grind
  | @fuse i s rs j s' irs b =>
    have hinner : p ⟨j, s', .loop irs b []⟩ := hc (of_decide_eq_true rfl)
      (by simp)
    refine hp.made (of_decide_eq_true rfl) fun c hc' => ?_
    simp only [Kind.children, append_nil, append_assoc, mem_append] at hc'
    rcases hc' with hc' | hc'
    · exact hc (of_decide_eq_true rfl) (by simp [hc'])
    · exact hp.part (of_decide_eq_true rfl) hinner (by simpa using hc')
  | returnReduction => exact hp.returned hn

theorem Compositional.becomes {q : Node → Prop} (hq : Compositional q)
    (hlayer : ∀ {n n' k}, n.Everywhere p → Becomes n n' → Kind.Rel Becomes Becomes BodyBecomes n.kind k →
      Rewrite ⟨n.id, n.span, k⟩ n' → (∀ c ∈ k.children, q c) → q ⟨n.id, n.span, k⟩)
    (h : Becomes n n') (hn : n.Everywhere p) : q n' := by
  induction n using Node.ind generalizing n' with | step n ih => ?_
  obtain ⟨k, hrel, hrw⟩ := h.layer
  refine hq.rewrite hrw (hlayer hn h hrel hrw (hq.children hrel fun c hc c' h => ?_))
  exact ih c hc h (hn.child hc)

section Everywhere

variable {q : Node → Prop}

theorem hereditary_everywhere (hexport : ∀ i s items, q ⟨i, s, .exported none items⟩) :
    Hereditary (Node.Everywhere q) where
  part _ hn hc := hn.child hc
  exported i s items := .mk (hexport i s items) (forall_mem_nil _)

/-- What holds of each layer of a tree whose parts are simplified, and of all that simplification
    makes, holds of all nodes of the simplified tree. -/
theorem Becomes.everywhere (hmade : ∀ m : Node, m.tag ∈ madeTags → q m)
    (hexport : ∀ i s items, q ⟨i, s, .exported none items⟩)
    (hlayer : ∀ {n n' k}, n.Everywhere p → Becomes n n' →
      Kind.Rel Becomes Becomes BodyBecomes n.kind k → Rewrite ⟨n.id, n.span, k⟩ n' →
        q ⟨n.id, n.span, k⟩) (h : Becomes n n') (hn : n.Everywhere p) : n'.Everywhere q := by
  have hq : Compositional (Node.Everywhere q) := by
    refine ⟨hereditary_everywhere hexport, fun {i s k} htag => ?_, fun hf => ?_⟩
    · exact .mk (hmade ⟨i, s, k⟩ (mem_cons_of_mem _ htag))
    refine .mk (hmade _ mem_cons_self) fun c hc => ?_
    rcases mem_append.mp hc with hc | hc
    · exact hf.child (mem_append_left _ hc)
    · obtain rfl := mem_singleton.mp hc
      refine .mk (hmade _ (of_decide_eq_true rfl)) fun e he => ?_
      exact (hf.child (mem_append_right _ mem_cons_self)).child he
  exact hq.becomes (fun hn h hrel hrw hk => .mk (hlayer hn h hrel hrw) hk) h hn

end Everywhere

theorem Becomes.keeps (h : Becomes n n')
    (htag : n.tag ∉ [Tag.unary, .binary, .conj, .disj, .cond, .array, .object, .branch, .loop, .function]) :
    ∃ k, Kind.Rel Becomes Becomes BodyBecomes n.kind k ∧ n' = ⟨n.id, n.span, k⟩ := by
  obtain ⟨k, hrel, hrw⟩ := h.layer
  refine ⟨k, hrel, hrw.eq_of_tag ?_⟩
  have hk : k.tag = n.tag := hrel.tag_eq
  rw [Node.tag, hk]
  exact htag

theorem Becomes.assign {i : Nat} {s : Span} {t : Target} {v : Node}
    (h : Becomes ⟨i, s, .assign t v⟩ n') : ∃ v', n' = ⟨i, s, .assign t v'⟩ ∧ Becomes v v' := by
  obtain ⟨k, hrel, rfl⟩ := h.keeps (by simp [Kind.tag])
  cases hrel with
  | assign hv => exact ⟨_, rfl, hv⟩

theorem Becomes.assignments {as as' : List Node} (h : Forall₂ Becomes as as')
    (has : ∀ a ∈ as, a.tag = .assign) :
    (∀ a ∈ as', a.tag = .assign) ∧ Node.declaredNamesOf as' = Node.declaredNamesOf as := by
  induction h with
  | nil => simp
  | @cons a a' as as' ha _ ih =>
    obtain ⟨i, s, k⟩ := a
    rw [forall_mem_cons] at has
    cases k with
    | assign t v =>
      obtain ⟨v', rfl, -⟩ := ha.assign
      obtain ⟨htags, hnames⟩ := ih has.2
      refine ⟨forall_mem_cons.mpr ⟨rfl, htags⟩, ?_⟩
      simp only [Node.declaredNamesOf, Node.declaredNames, hnames]
    | _ => cases has.1

theorem Becomes.plain {d d' : Node} (h : Becomes d d') (hd : PlainDecl d) :
    PlainDecl d' ∧ d'.declaredNames = d.declaredNames := by
  obtain ⟨i, s, k⟩ := d
  cases k with
  | assign t v =>
    obtain ⟨v', rfl, -⟩ := h.assign
    exact ⟨trivial, by simp only [Node.declaredNames]⟩
  | function name ps g b =>
    obtain ⟨k, hrel, hrw⟩ := h.layer
    cases hrel
    cases hrw <;> exact ⟨trivial, by simp only [Node.declaredNames]⟩
  | declare as =>
    obtain ⟨k, hrel, rfl⟩ := h.keeps (by simp [Kind.tag])
    cases hrel with
    | declare has =>
      obtain ⟨htags, hnames⟩ := Becomes.assignments has hd
      exact ⟨htags, by simp only [Node.declaredNames, hnames]⟩
  | _ => exact hd.elim

theorem plainDecl_of_core {d : Node} (hd : InCore d)
    (htag : d.tag ∈ [Tag.declare, .assign, .function]) : PlainDecl d := by
  obtain ⟨i, s, k⟩ := d
  cases k with
  | assign | function => trivial
  | declare as => exact hd
  | _ => exact absurd htag (of_decide_eq_false rfl)

theorem settled_layer {k : Kind Node} (hn : n.Everywhere InCore)
    (hrel : Kind.Rel Becomes Becomes BodyBecomes n.kind k) : Settled ⟨n.id, n.span, k⟩ := by
  -- Only its expression statement or its declaration matters.
  obtain ⟨i, s, k₀⟩ := n
  have hhere := hn.here
  cases hrel with
  | @exprStmt e e' he =>
    have hreduce : e.Everywhere fun m => m.tag ∉ [Tag.reduce] := fun m hm => by
      simpa using hhere m hm
    have htag := he.head (inherited_tag (by decide)) hreduce
    exact fun h => htag (h ▸ mem_singleton_self _)
  | @exported d d' items hd =>
    cases hd with
    | none => trivial
    | @some d d' hd =>
      have hcore : d.Everywhere InCore := hn.child (by simp)
      exact (hd.plain (plainDecl_of_core hcore.here hhere)).1
  | _ => trivial

theorem Becomes.settled (h : Becomes n n') (hn : n.Everywhere InCore) : n'.Everywhere Settled := by
  refine h.everywhere (fun m hm => settled_of_tag fun htag => ?_) (fun _ _ _ => trivial) ?_ hn
  · exact absurd hm ((by decide : ∀ t ∈ [Tag.exprStmt, .exported], t ∉ madeTags) _ htag)
  · exact fun hn _ hrel _ => settled_layer hn hrel

end Simplify

end Motif
