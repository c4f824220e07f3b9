import Mathlib.Data.List.Pairwise
import Motif.Proofs.Annotation
import Motif.Proofs.Pattern.Layers
import Motif.Proofs.Pattern.Owners

/-!
# The walk over a tree in shape

What the walk that annotates a tree in shape changes. A node is entered before the walk goes on below it and
left afterwards (`elaborate_eq`); `Enters` says once what entering a node notes, and leaving it notes nothing
that the walk reads. From there the walk as a whole is described, over trees side by side: `Grows` for all
trees, and for trees whose ids tell nodes apart `Allots` (which locals are given out), `Marks` (which nodes
are marked with the local of an owner, and which references are told of) and `Links` (which locals collections
take apart).
-/

namespace Motif

open List
open Node (idsOf)

variable {ns : List Node} {m : Node} {id : Nat}

theorem Node.eq_of_mem_ids (hids : (idsOf ns).Nodup) {c : Node} (hm : m ∈ ns) (hc : c ∈ ns)
    (hid : id ∈ m.ids) (hid' : id ∈ c.ids) : m = c := by
  by_contra hne
  have : Std.Symm (Function.onFun List.Disjoint ids) := ⟨fun _ _ h _ hx hy => h hy hx⟩
  exact (nodup_flatMap.mp hids).2.forall hm hc hne hid hid'

theorem Node.id_notMem_below (hids : (idsOf ns).Nodup) {c : Node} (hm : m ∈ ns) (hc : c ∈ ns) :
    m.id ∉ idsOf c.children := by
  intro hmem
  have hc' := (nodup_flatMap.mp hids).1 c hc
  rw [ids_eq] at hc'
  have heq := eq_of_mem_ids hids hm hc m.id_mem (by rw [ids_eq]; exact mem_cons_of_mem _ hmem)
  exact (nodup_cons.mp hc').1 (heq ▸ hmem)

namespace Pattern

variable {s s' : State} {path : Path} {a : Annotations} {root : Node} {next : Nat}

/-! ## Steps of the walk -/

def enter (n : Node) (path : Path) : Elaborate Unit :=
  match n.kind with
  | .pattern template => enterPattern n template
  | .objectPattern _ | .arrayPattern _ => enterCollection n path
  | .element _ template => enterElement n template path
  | _ => pure ()

def leave (n : Node) : Elaborate Unit :=
  match n.kind with
  | .pattern template => do
    annotate n.id (.patternComplexity (complexity template))
    markEquality template
  | .element _ template => markEquality template
  | _ => pure ()

theorem elaborate_context {n : Node} (hn : n.tag = .context) (path : Path) :
    elaborate n path = resolveContext n path := by
  obtain ⟨i, span, k⟩ := n
  rw [elaborate, Node.fold_eq]
  cases k with
  | context => rfl
  | _ => cases hn

theorem elaborate_eq {n : Node} (hn : n.tag ≠ .context) (path : Path) :
    elaborate n path = (do
      enter n path
      n.children.forM fun c => elaborate c (n.frame :: path)
      leave n) := by
  have hchildren : ((n.kind.map elaborate).children.forM fun child => child (n.frame :: path)) =
      n.children.forM fun c => elaborate c (n.frame :: path) := by
    rw [Kind.children_map, forM_eq_forM, forM_map]
    rfl
  rw [elaborate, Node.fold_eq, ← elaborate]
  dsimp only
  rw [hchildren]
  obtain ⟨i, span, k⟩ := n
  cases k with
  | context => exact absurd rfl hn
  | _ => rfl

def patternKeys : List AnnotationKey :=
  [.patternLocal, .patternParent, .patternContext, .patternComplexity, .patternEquality]

abbrev State.notes (s : State) : Annotations := s.session.annotations

def State.noted (s : State) (a : Annotations) (next : Nat) : State :=
  { s with session := { s.session with annotations := a }, nextLocal := next }

/-- What is noted about a node before the walk goes on below it. A pattern or an element gets the next local,
    which is known to its template too, a collection pattern is told which local it takes apart, and an
    element which one the collection around it takes apart. -/
structure Enters (n : Node) (path : Path) (s : State) (a : Annotations) (next : Nat) : Prop where
  le : s.nextLocal ≤ next
  notes : s.notes.SameExcept patternKeys a
  contexts : ∀ id, a.context? id = s.notes.context? id
  kept : ∀ id, (s.notes.local? id).isSome → (a.local? id).isSome
  locals : ∀ id, id ≠ n.id → (∀ t ∈ tested? n, id ≠ t.id) → a.local? id = s.notes.local? id
  parents : ∀ id, id ≠ n.id → a.parent? id = s.notes.parent? id
  given : ∀ t ∈ tested? n, s.nextLocal < next ∧ a.local? n.id = some s.nextLocal ∧
    a.local? t.id = some s.nextLocal
  taken : n.tag ∈ collections → ∀ l, (s.notes.local? n.id).or (resolved s.notes path) = some l →
    a.parent? n.id = some l
  member : n.tag = .element → ∀ f, path.parent? = some f → ∀ l, s.notes.parent? f.id = some l →
    a.parent? n.id = some l

section Steps

variable {n : Node} {path : Path} {s : State} {a : Annotations} {next : Nat}

theorem Enters.plain (hn : n.tag ∉ boundaries ++ collections) : Enters n path s s.notes s.nextLocal := by
  rw [mem_append, not_or] at hn
  refine ⟨Nat.le_refl _, .refl _ _, fun _ => rfl, fun _ h => h, fun _ _ _ => rfl,
    fun _ _ => rfl, fun t ht => ?_,
    fun h => absurd h hn.2, fun h => absurd (h ▸ of_decide_eq_true rfl) hn.1⟩
  exact absurd (tag_of_tested? ht) hn.1

theorem local?_annotate_both (a : Annotations) (i j l id : Nat) :
    ((a.annotate i (.patternLocal l)).annotate j (.patternLocal l)).local? id =
      if id = i ∨ id = j then some l else a.local? id := by
  rw [Annotations.local?_annotate, Annotations.local?_annotate]
  by_cases hj : j = id
  · simp [hj]
  · by_cases hi : i = id
    · simp [hi]
    · simp [hi, hj, Ne.symm hi, Ne.symm hj]

theorem Enters.boundary {t : Node} (ht : tested? n = some t) (hnotes : s.notes.SameExcept patternKeys a)
    (hlocals : ∀ id, a.local? id = if id = n.id ∨ id = t.id then some s.nextLocal else s.notes.local? id)
    (hcontexts : ∀ id, a.context? id = s.notes.context? id)
    (hparents : ∀ id, id ≠ n.id → a.parent? id = s.notes.parent? id)
    (hmember : n.tag = .element → ∀ f, path.parent? = some f → ∀ l, s.notes.parent? f.id = some l →
      a.parent? n.id = some l) : Enters n path s a (s.nextLocal + 1) := by
  have hdisjoint : ∀ tag ∈ boundaries, tag ∉ collections := by decide
  refine ⟨Nat.le_succ _, hnotes, hcontexts, fun id hid => ?_, fun id hn hother => ?_, hparents, fun u hu => ?_,
    fun h => absurd h (hdisjoint _ (tag_of_tested? ht)), hmember⟩
  · rw [hlocals]
    split
    · rfl
    · exact hid
  · rw [hlocals, if_neg (not_or.mpr ⟨hn, hother t ht⟩)]
  · obtain rfl : t = u := Option.some.inj (ht.symm.trans hu)
    exact ⟨Nat.lt_succ_self _, by rw [hlocals, if_pos (.inl rfl)], by rw [hlocals, if_pos (.inr rfl)]⟩

theorem sameExcept_both (a : Annotations) (i j l : Nat) : a.SameExcept [.patternLocal]
    ((a.annotate i (.patternLocal l)).annotate j (.patternLocal l)) :=
  .trans (.annotate a i (of_decide_eq_true rfl)) (.annotate _ j (of_decide_eq_true rfl))

theorem exists_enterPattern {t : Node} (ht : tested? n = some t) (hn : n.tag = .pattern) :
    ∃ a next, ((enterPattern n t).run s).2 = s.noted a next ∧ Enters n path s a next := by
  have hsame := sameExcept_both s.notes n.id t.id s.nextLocal
  refine ⟨_, _, rfl, .boundary ht (hsame.mono (by decide)) (local?_annotate_both s.notes n.id t.id s.nextLocal)
    (hsame.context? (by decide)) (fun id _ => hsame.parent? (by decide) id) fun h => ?_⟩
  rw [hn] at h
  cases h

theorem exists_enterElement {t : Node} (ht : tested? n = some t) :
    ∃ a next, ((enterElement n t path).run s).2 = s.noted a next ∧ Enters n path s a next := by
  let a := (s.notes.annotate t.id (.patternLocal s.nextLocal)).annotate n.id (.patternLocal s.nextLocal)
  have hsame : s.notes.SameExcept [.patternLocal] a := sameExcept_both s.notes t.id n.id s.nextLocal
  have hlocals (id : Nat) : a.local? id =
      if id = n.id ∨ id = t.id then some s.nextLocal else s.notes.local? id :=
    (local?_annotate_both s.notes t.id n.id s.nextLocal id).trans (if_congr or_comm rfl rfl)
  have hread : (annotations.run s : Id _) = pure (s.notes, s) := rfl
  cases hparent : path.parent?.bind fun frame => s.notes.parent? frame.id with
  | none =>
    refine ⟨a, s.nextLocal + 1, ?_, .boundary ht (hsame.mono (by decide)) hlocals (hsame.context? (by decide))
      (fun id _ => hsame.parent? (by decide) id) fun _ f hf l hl => ?_⟩
    · simp only [enterElement, StateT.run_bind, hread, pure_bind, hparent]
      rfl
    · rw [hf, Option.bind_some, hl] at hparent
      cases hparent
  | some p =>
    have hnoted : a.SameExcept [.patternParent] (a.annotate n.id (.patternParent p)) :=
      .annotate a n.id mem_cons_self
    refine ⟨a.annotate n.id (.patternParent p), s.nextLocal + 1, ?_, .boundary ht
      (.trans (hsame.mono (by decide)) (hnoted.mono (by decide)))
      (fun id => (hnoted.local? (by decide) id).trans (hlocals id))
      (fun id => (hnoted.context? (by decide) id).trans (hsame.context? (by decide) id))
      (fun id hid => ?_) fun _ f hf l hl => ?_⟩
    · simp only [enterElement, StateT.run_bind, hread, pure_bind, hparent]
      rfl
    · rw [Annotations.parent?_annotate, if_neg (Ne.symm hid)]
      exact hsame.parent? (by decide) id
    · rw [hf, Option.bind_some, hl] at hparent
      rw [Annotations.parent?_annotate, if_pos rfl, hparent]

theorem Enters.collection (hn : n.tag ∈ collections) {l : Nat} (hnext : s.nextLocal ≤ next)
    (hsame : s.notes.SameExcept [.patternLocal] a)
    (hlocals : ∀ id, a.local? id = s.notes.local? id ∨ id = n.id ∧ (a.local? id).isSome)
    (hl : ∀ k, (s.notes.local? n.id).or (resolved s.notes path) = some k → k = l) :
    Enters n path s (a.annotate n.id (.patternParent l)) next := by
  have hdisjoint : ∀ tag ∈ collections, tag ∉ boundaries ∧ tag ≠ .element := by decide
  have hnoted : a.SameExcept [.patternParent] (a.annotate n.id (.patternParent l)) :=
    .annotate a n.id mem_cons_self
  refine ⟨hnext, .trans (hsame.mono (by decide)) (hnoted.mono (by decide)),
    fun id => (hnoted.context? (by decide) id).trans (hsame.context? (by decide) id),
    fun id hid => ?_, fun id hid _ => ?_, fun id hid => ?_,
    fun t ht => absurd (tag_of_tested? ht) (hdisjoint _ hn).1, fun _ k hk => ?_,
    fun h => absurd h (hdisjoint _ hn).2⟩
  · rw [hnoted.local? (by decide)]
    rcases hlocals id with heq | ⟨-, hsome⟩
    · rwa [heq]
    · exact hsome
  · rw [hnoted.local? (by decide)]
    exact (hlocals id).resolve_right fun h => hid h.1
  · rw [Annotations.parent?_annotate, if_neg (Ne.symm hid)]
    exact hsame.parent? (by decide) id
  · rw [Annotations.parent?_annotate, if_pos rfl, hl k hk]

theorem exists_enterCollection (hn : n.tag ∈ collections) :
    ∃ a next, ((enterCollection n path).run s).2 = s.noted a next ∧ Enters n path s a next := by
  have hread : (annotations.run s : Id _) = pure (s.notes, s) := rfl
  cases hfound : (s.notes.local? n.id).or
      ((path.nearest? boundaries barriers).bind fun frame => s.notes.local? frame.id) with
  | some l =>
    refine ⟨s.notes.annotate n.id (.patternParent l), s.nextLocal, ?_, .collection hn (Nat.le_refl _)
      (.refl _ _) (fun _ => .inl rfl) fun k hk => ?_⟩
    · simp only [enterCollection, collectionLocal, StateT.run_bind, hread, pure_bind, hfound]
      rfl
    · rw [nearest?_eq] at hfound
      exact Option.some.inj (hk.symm.trans hfound)
  | none =>
    let l := s.nextLocal
    refine ⟨(s.notes.annotate n.id (.patternLocal l)).annotate n.id (.patternParent l), l + 1, ?_,
      .collection hn (Nat.le_succ _) (.annotate _ _ mem_cons_self) (fun id => ?_) fun k hk => ?_⟩
    · simp only [enterCollection, collectionLocal, StateT.run_bind, hread, pure_bind, hfound]
      rfl
    · rw [Annotations.local?_annotate]
      split
      · exact .inr ⟨Eq.symm ‹_›, rfl⟩
      · exact .inl rfl
    · rw [nearest?_eq] at hfound
      cases hk.symm.trans hfound

theorem exists_enters (n : Node) (path : Path) (s : State) :
    ∃ a next, ((enter n path).run s).2 = s.noted a next ∧ Enters n path s a next := by
  obtain ⟨i, span, k⟩ := n
  cases k with
  | pattern t => exact exists_enterPattern rfl rfl
  | element key t => exact exists_enterElement rfl
  | objectPattern | arrayPattern => exact exists_enterCollection (of_decide_eq_true rfl)
  | _ => exact ⟨_, _, rfl, .plain (of_decide_eq_true rfl)⟩

def lastKeys : List AnnotationKey := [.patternComplexity, .patternEquality]

theorem exists_leaves (n : Node) (s : State) :
    ∃ a, ((leave n).run s).2 = s.noted a s.nextLocal ∧ s.notes.SameExcept lastKeys a := by
  have hequality (t : Node) (s : State) :
      ∃ a, ((markEquality t).run s).2 = s.noted a s.nextLocal ∧ s.notes.SameExcept lastKeys a := by
    have hread : (annotations.run s : Id _) = pure (s.notes, s) := rfl
    simp only [markEquality, StateT.run_bind, hread, pure_bind]
    split
    · exact ⟨s.notes, rfl, .refl _ _⟩
    · exact ⟨_, rfl, .annotate _ t.id (by decide)⟩
  obtain ⟨i, span, k⟩ := n
  cases k with
  | pattern t =>
    let a := s.notes.annotate i (.patternComplexity (complexity t))
    obtain ⟨a', hrun, hsame⟩ := hequality t (s.noted a s.nextLocal)
    exact ⟨a', hrun, .trans (.annotate _ i (of_decide_eq_true rfl)) hsame⟩
  | element key t => exact hequality t s
  | _ => exact ⟨s.notes, rfl, .refl _ _⟩

/-! ## Context references -/

theorem run_marks (l : Nat) (frames : Path) (s : State) :
    ∃ a, ((frames.forM fun frame => annotate frame.id (.patternContext l)).run s).2 =
        s.noted a s.nextLocal ∧ s.notes.SameExcept [.patternContext] a ∧
      ∀ id, a.context? id = mark (decide (id ∈ frames.ids)) (some l) (s.notes.context? id) := by
  induction frames generalizing s with
  | nil => exact ⟨s.notes, rfl, .refl _ _, fun _ => rfl⟩
  | cons f frames ih =>
    let b := s.notes.annotate f.id (.patternContext l)
    obtain ⟨a, hrun, hsame, hcontexts⟩ := ih (s.noted b s.nextLocal)
    refine ⟨a, hrun, .trans (.annotate _ f.id mem_cons_self) hsame, fun id => ?_⟩
    have hfirst : b.context? id = mark (decide (id = f.id)) (some l) (s.notes.context? id) := by
      rw [Annotations.context?_annotate]
      by_cases hid : f.id = id
      · simp [hid, mark]
      · simp [hid, Ne.symm hid, mark]
    rw [hcontexts]
    show mark _ _ (b.context? id) = _
    rw [hfirst, mark_mark]
    simp [Path.ids]

theorem run_resolveContext_none (n : Node) (howner : owner? path = none) :
    ((resolveContext n path).run s).2 = { s with session := s.session.report (remark n) } := by
  unfold resolveContext
  rw [nearest?_eq, howner]
  rfl

theorem run_resolveContext_some (n : Node) {f : Frame} {l : Nat} (howner : owner? path = some f)
    (hl : s.notes.local? f.id = some l) : ((resolveContext n path).run s).2 =
      (((n.frame :: (path.upTo fun frame => frame.id == f.id).1).forM fun frame =>
        annotate frame.id (.patternContext l)).run s).2 := by
  unfold resolveContext
  rw [nearest?_eq, howner]
  have hread : (annotations.run s : Id _) = pure (s.notes, s) := rfl
  simp only [StateT.run_bind, hread, pure_bind, hl]
  rfl

end Steps

/-! ## The walk is not given up -/

/-- No local is taken back, the walk goes on, and it deals with patterns only. -/
structure Grows (s s' : State) : Prop where
  running : s.aborted = none → s'.aborted = none
  nextId : s'.session.nextId = s.session.nextId
  told : ∃ ds, s'.session.diagnostics = s.session.diagnostics ++ ds ∧ ∀ d ∈ ds, d.kind = .patternContext
  notes : s.notes.SameExcept patternKeys s'.notes
  locals : ∀ id, (s.notes.local? id).isSome → (s'.notes.local? id).isSome

theorem Grows.noted (hnotes : s.notes.SameExcept patternKeys a)
    (h : ∀ id, (s.notes.local? id).isSome → (a.local? id).isSome) : Grows s (s.noted a next) :=
  ⟨fun h => h, rfl, ⟨[], (append_nil _).symm, forall_mem_nil _⟩, hnotes, h⟩

theorem Grows.refl (s : State) : Grows s s := .noted (.refl _ _) fun _ h => h

theorem Grows.trans {s₁ s₂ : State} (h : Grows s s₁) (h' : Grows s₁ s₂) : Grows s s₂ where
  running hs := h'.running (h.running hs)
  nextId := h'.nextId.trans h.nextId
  told := by
    obtain ⟨ds, hds, hkinds⟩ := h.told
    obtain ⟨ds', hds', hkinds'⟩ := h'.told
    exact ⟨ds ++ ds', by rw [hds', hds, append_assoc], forall_mem_append.mpr ⟨hkinds, hkinds'⟩⟩
  notes := h.notes.trans h'.notes
  locals id hid := h'.locals id (h.locals id hid)

theorem Grows.of_sameExcept {keys : List AnnotationKey} (h : s.notes.SameExcept keys a)
    (hkeys : keys ⊆ patternKeys) (hlocal : .patternLocal ∉ keys) : Grows s (s.noted a next) :=
  .noted (h.mono hkeys) fun id hid => by rwa [h.local? hlocal]

/-- The owner that a reference with these ancestors would have has a local. -/
def Owned (path : Path) (a : Annotations) : Prop := ∀ f, owner? path = some f → (a.local? f.id).isSome

def Settled (path : Path) (s : State) : Prop := ∀ f ∈ path, f.tag ∈ boundaries → (s.notes.local? f.id).isSome

theorem Settled.owned (h : Settled path s) : Owned path s.notes :=
  fun f hf => h f (mem_of_owner? hf) (tag_of_owner? hf)

theorem Grows.settled (h : Grows s s') (hpath : Settled path s) : Settled path s' :=
  fun f hf htag => h.locals f.id (hpath f hf htag)

theorem Enters.owner {n : Node} (h : Enters n path s a next) (hn : n.tag ∈ boundaries) :
    (a.local? n.id).isSome := by
  obtain ⟨t, ht⟩ := exists_tested? hn
  rw [(h.given t ht).2.1]
  rfl

theorem grows_resolveContext (n : Node) (hpath : Owned path s.notes) :
    Grows s ((resolveContext n path).run s).2 := by
  cases howner : owner? path with
  | none =>
    rw [run_resolveContext_none n howner]
    exact ⟨fun h => h, rfl, ⟨[remark n], rfl, forall_mem_singleton.mpr rfl⟩, .refl _ _, fun _ h => h⟩
  | some f =>
    obtain ⟨l, hl⟩ := Option.isSome_iff_exists.mp (hpath f howner)
    obtain ⟨a, hrun, hsame, -⟩ := run_marks l (n.frame :: (path.upTo fun g => g.id == f.id).1) s
    rw [run_resolveContext_some n howner hl, hrun]
    exact .of_sameExcept hsame (by decide) (by decide)

theorem grows_forM (ih : ∀ n ∈ ns, ∀ s, Settled path s → Grows s ((elaborate n path).run s).2)
    (hpath : Settled path s) : Grows s ((ns.forM fun n => elaborate n path).run s).2 := by
  induction ns generalizing s with
  | nil => exact .refl s
  | cons n ns ihns =>
    rw [forall_mem_cons] at ih
    have hn := ih.1 s hpath
    exact hn.trans (ihns ih.2 (hn.settled hpath))

/-- Whatever the tree is like, the walk over it is not given up: a context reference is looked up
    below its owner, which has got a local by then. -/
theorem grows_elaborate (n : Node) (path : Path) (s : State) (hpath : Settled path s) :
    Grows s ((elaborate n path).run s).2 := by
  induction n using Node.ind generalizing path s with
  | step n ih =>
    by_cases hn : n.tag = .context
    · rw [elaborate_context hn]
      exact grows_resolveContext n hpath.owned
    · rw [elaborate_eq hn]
      obtain ⟨a, next, henter, henters⟩ := exists_enters n path s
      have hgrows : Grows s ((enter n path).run s).2 := henter ▸ .noted henters.notes henters.kept
      have hinner : Settled (n.frame :: path) ((enter n path).run s).2 :=
        forall_mem_cons.mpr ⟨fun htag => henter ▸ henters.owner htag, hgrows.settled hpath⟩
      refine (hgrows.trans (grows_forM (fun c hc s => ih c hc _ s) hinner)).trans ?_
      obtain ⟨a', hleave, hsame⟩ := exists_leaves n _
      exact hleave ▸ .of_sameExcept hsame (by decide) (by decide)

/-! ## Locals that are given out -/

section Apart

variable {n : Node} {ns : List Node} {path : Path}

theorem apart_cons (hids : (path.ids ++ idsOf (n :: ns)).Nodup) :
    (∀ id ∈ path.ids, id ∉ idsOf [n]) ∧ (∀ id ∈ path.ids, id ∉ idsOf ns) ∧
      ∀ id ∈ idsOf [n], id ∉ idsOf ns := by
  have hn : idsOf [n] = n.ids := append_nil _
  rw [nodup_append', Node.idsOf_cons] at hids
  rw [hn]
  exact ⟨fun id hid hmem => hids.2.2 hid (mem_append_left _ hmem),
    fun id hid hmem => hids.2.2 hid (mem_append_right _ hmem),
    fun id hid => (nodup_append'.mp hids.2.1).2.2 hid⟩

theorem apart_node (hids : (path.ids ++ n.ids).Nodup) :
    (∀ id ∈ path.ids, id ∉ n.ids) ∧ n.id ∉ idsOf n.children := by
  obtain ⟨-, hnodup, hpath⟩ := nodup_append'.mp hids
  rw [Node.ids_eq] at hnodup
  exact ⟨fun id hid => hpath hid, (nodup_cons.mp hnodup).1⟩

theorem notMem_idsOf_singleton : id ∉ idsOf [n] ↔ id ∉ n.ids ∧ id ∉ idsOf n.children := by
  rw [Node.idsOf_cons, Node.idsOf_nil, append_nil, Node.ids_eq, mem_cons]
  tauto

theorem notMem_idsOf_cons : id ∉ idsOf (n :: ns) ↔ id ∉ idsOf [n] ∧ id ∉ idsOf ns := by
  rw [Node.idsOf_cons, Node.idsOf_cons, Node.idsOf_nil, append_nil, mem_append, not_or]

theorem locatedIn_cons : locatedIn (n :: ns) path = locatedIn [n] path ++ locatedIn ns path := by
  simp [locatedIn]

theorem locatedIn_node : locatedIn [n] path = (path, n) :: locatedIn n.children (n.frame :: path) := by
  rw [locatedIn, flatMap_singleton, Node.located_eq]
  rfl

abbrev nodesOf (ns : List Node) : List Node := ns.flatMap Node.preorder

theorem id_mem_of_mem_nodesOf (h : m ∈ nodesOf ns) : m.id ∈ idsOf ns := by
  obtain ⟨root, hroot, hm⟩ := mem_flatMap.mp h
  exact mem_flatMap.mpr ⟨root, hroot, mem_map_of_mem hm⟩

theorem mem_nodesOf_cons : m ∈ nodesOf (n :: ns) ↔ m ∈ nodesOf [n] ∨ m ∈ nodesOf ns := by
  simp [nodesOf]

theorem mem_nodesOf_node : m ∈ nodesOf [n] ↔ m = n ∨ m ∈ nodesOf n.children := by
  rw [nodesOf, flatMap_singleton, Node.preorder_eq]
  exact mem_cons

theorem mem_preorder_of_child {c : Node} (hm : m ∈ n.preorder) (hc : c ∈ m.children) : c ∈ n.preorder := by
  have hself : n.Everywhere fun x => x ∈ n.preorder := fun _ hx => hx
  exact (hself.everywhere m hm).child hc |>.here

end Apart

section Walk

variable {n : Node} {ns : List Node} {path : Path} {s s₁ s₂ : State} {a a' : Annotations} {next : Nat}

theorem Enters.outside (h : Enters n path s a next) (hid : id ∉ n.ids) :
    a.local? id = s.notes.local? id ∧ a.parent? id = s.notes.parent? id := by
  have hn : id ≠ n.id := fun heq => hid (heq ▸ n.id_mem)
  refine ⟨h.locals id hn fun t ht heq => hid (heq ▸ ?_), h.parents id hn⟩
  exact Node.id_mem_of_child (mem_children_of_tested? ht)

structure Allots (ns : List Node) (s s' : State) : Prop where
  next : s.nextLocal ≤ s'.nextLocal
  locals : ∀ id, id ∉ idsOf ns → s'.notes.local? id = s.notes.local? id
  parents : ∀ id, id ∉ idsOf ns → s'.notes.parent? id = s.notes.parent? id
  given : ∀ b ∈ nodesOf ns, b.tag ∈ boundaries →
    ∃ l, s'.notes.local? b.id = some l ∧ s.nextLocal ≤ l ∧ l < s'.nextLocal
  distinct : ∀ b ∈ nodesOf ns, ∀ c ∈ nodesOf ns, b.tag ∈ boundaries → c.tag ∈ boundaries →
    s'.notes.local? b.id = s'.notes.local? c.id → b.id = c.id

namespace Allots

theorem nil (s : State) : Allots [] s s where
  next := Nat.le_refl _
  locals _ _ := rfl
  parents _ _ := rfl
  given _ hb := by cases hb
  distinct _ hb := by cases hb

theorem cons (h : Allots [n] s s₁) (h' : Allots ns s₁ s₂) (hids : (path.ids ++ idsOf (n :: ns)).Nodup) :
    Allots (n :: ns) s s₂ := by
  have hid {b : Node} (hb : b ∈ nodesOf [n]) : b.id ∉ idsOf ns :=
    (apart_cons hids).2.2 _ (id_mem_of_mem_nodesOf hb)
  have hgiven {b : Node} (hb : b ∈ nodesOf [n]) (htag : b.tag ∈ boundaries) :
      ∃ l, s₂.notes.local? b.id = some l ∧ s.nextLocal ≤ l ∧ l < s₁.nextLocal := by
    rw [h'.locals _ (hid hb)]
    exact h.given b hb htag
  -- What is given out later is given out from a higher number on.
  have hcross {b c : Node} (hb : b ∈ nodesOf [n]) (hc : c ∈ nodesOf ns) (hbtag : b.tag ∈ boundaries)
      (hctag : c.tag ∈ boundaries) : s₂.notes.local? b.id ≠ s₂.notes.local? c.id := by
    obtain ⟨l, hl, -, hlt⟩ := hgiven hb hbtag
    obtain ⟨l', hl', hle, -⟩ := h'.given c hc hctag
    rw [hl, hl']
    simp only [ne_eq, Option.some.injEq]
    omega
  refine ⟨Nat.le_trans h.next h'.next, fun id hid => ?_, fun id hid => ?_, fun b hb htag => ?_,
    fun b hb c hc hbtag hctag heq => ?_⟩
  · rw [notMem_idsOf_cons] at hid
    rw [h'.locals id hid.2, h.locals id hid.1]
  · rw [notMem_idsOf_cons] at hid
    rw [h'.parents id hid.2, h.parents id hid.1]
  · rcases mem_nodesOf_cons.mp hb with hb | hb
    · obtain ⟨l, hl, hle, hlt⟩ := hgiven hb htag
      exact ⟨l, hl, hle, Nat.lt_of_lt_of_le hlt h'.next⟩
    · obtain ⟨l, hl, hle, hlt⟩ := h'.given b hb htag
      exact ⟨l, hl, Nat.le_trans h.next hle, hlt⟩
  · rcases mem_nodesOf_cons.mp hb with hb | hb <;> rcases mem_nodesOf_cons.mp hc with hc | hc
    · rw [h'.locals _ (hid hb), h'.locals _ (hid hc)] at heq
      exact h.distinct b hb c hc hbtag hctag heq
    · exact absurd heq (hcross hb hc hbtag hctag)
    · exact absurd heq.symm (hcross hc hb hctag hbtag)
    · exact h'.distinct b hb c hc hbtag hctag heq

theorem node (henters : Enters n path s a next) (hbelow : Allots n.children (s.noted a next) s₁)
    (hleaves : s₁.notes.SameExcept lastKeys a') (hids : (path.ids ++ n.ids).Nodup) :
    Allots [n] s (s₁.noted a' s₁.nextLocal) := by
  have hlocal (id : Nat) : a'.local? id = s₁.notes.local? id := hleaves.local? (by decide) id
  have hgiven (htag : n.tag ∈ boundaries) : s.nextLocal < next ∧ a'.local? n.id = some s.nextLocal := by
    obtain ⟨t, ht⟩ := exists_tested? htag
    obtain ⟨hlt, hown, -⟩ := henters.given t ht
    exact ⟨hlt, by rw [hlocal, hbelow.locals _ (apart_node hids).2]; exact hown⟩
  have hapart {b : Node} (hb : b ∈ nodesOf n.children) (hbtag : b.tag ∈ boundaries)
      (htag : n.tag ∈ boundaries) : a'.local? b.id ≠ a'.local? n.id := by
    obtain ⟨l, hl, hle, -⟩ := hbelow.given b hb hbtag
    obtain ⟨hlt, hown⟩ := hgiven htag
    have hle' : next ≤ l := hle
    rw [hown, hlocal, hl]
    simp only [ne_eq, Option.some.injEq]
    omega
  refine ⟨Nat.le_trans henters.le hbelow.next, fun id hid => ?_, fun id hid => ?_, fun b hb htag => ?_,
    fun b hb c hc hbtag hctag heq => ?_⟩
  · rw [notMem_idsOf_singleton] at hid
    exact (hlocal id).trans ((hbelow.locals id hid.2).trans (henters.outside hid.1).1)
  · rw [notMem_idsOf_singleton] at hid
    exact (hleaves.parent? (by decide) id).trans ((hbelow.parents id hid.2).trans (henters.outside hid.1).2)
  · rcases mem_nodesOf_node.mp hb with rfl | hb
    · obtain ⟨hlt, hown⟩ := hgiven htag
      exact ⟨_, hown, Nat.le_refl _, Nat.lt_of_lt_of_le hlt hbelow.next⟩
    · obtain ⟨l, hl, hle, hlt⟩ := hbelow.given b hb htag
      exact ⟨l, (hlocal b.id).trans hl, Nat.le_trans henters.le hle, hlt⟩
  · rcases mem_nodesOf_node.mp hb with rfl | hb <;> rcases mem_nodesOf_node.mp hc with rfl | hc
    · rfl
    · exact absurd heq.symm (hapart hc hctag hbtag)
    · exact absurd heq (hapart hb hbtag hctag)
    · refine hbelow.distinct b hb c hc hbtag hctag ?_
      rw [← hlocal, ← hlocal]
      exact heq

theorem resolved_eq (h : Allots ns s s₁) (hpath : ∀ f, owner? path = some f → f.id ∉ idsOf ns) :
    resolved s₁.notes path = resolved s.notes path :=
  resolved_congr fun f hf => h.locals f.id (hpath f hf)

end Allots

theorem Enters.resolved_eq (h : Enters n path s a next) (hids : (path.ids ++ n.ids).Nodup) :
    resolved a path = resolved s.notes path :=
  resolved_congr fun _ hf => (h.outside
    ((apart_node hids).1 _ (mem_map_of_mem (mem_of_owner? hf)))).1

/-! ## Marks -/

/-- Which nodes a walk over trees with these ancestors marks with the local of an owner, and what it tells.
    Inside the trees what is marked is read off the tree, and outside them only the ancestors nearer than
    the owner can get a mark. -/
structure Marks (ns : List Node) (path : Path) (s s' : State) : Prop where
  told : s'.session.diagnostics = s.session.diagnostics ++
    ((locatedIn ns path).filter isUnresolved).map fun x => remark x.2
  outside : ∀ id, id ∉ idsOf ns → s'.notes.context? id =
    mark (ns.any opens && decide (id ∈ (nearer path).ids)) (resolved s.notes path) (s.notes.context? id)
  inside : ∀ x ∈ locatedIn ns path, s'.notes.context? x.2.id =
    mark (opens x.2) (resolved s'.notes x.1) (s.notes.context? x.2.id)

namespace Marks

theorem nil (s : State) : Marks [] path s s where
  told := (append_nil _).symm
  outside _ _ := rfl
  inside _ hx := by cases hx

theorem cons (h : Marks [n] path s s₁) (h' : Marks ns path s₁ s₂) (hwalk : Allots [n] s s₁)
    (hrest : Allots ns s₁ s₂) (hids : (path.ids ++ idsOf (n :: ns)).Nodup) : Marks (n :: ns) path s s₂ := by
  obtain ⟨hpath₁, hpath₂, hapart⟩ := apart_cons hids
  have hnearer {id : Nat} (hid : id ∉ path.ids) : decide (id ∈ (nearer path).ids) = false :=
    decide_eq_false fun hmem => hid (((takeWhile_sublist _).map _).subset hmem)
  refine ⟨?_, fun id hid => ?_, fun x hx => ?_⟩
  · rw [h'.told, h.told, append_assoc, ← map_append, ← filter_append, ← locatedIn_cons]
  · rw [notMem_idsOf_cons] at hid
    have hresolved := hwalk.resolved_eq fun f hf => hpath₁ _ (mem_map_of_mem (mem_of_owner? hf))
    rw [h'.outside id hid.2, h.outside id hid.1, hresolved, mark_mark, any_cons,
      any_cons, any_nil, Bool.or_false, Bool.and_or_distrib_right]
  · rw [locatedIn_cons, mem_append] at hx
    rcases hx with hx | hx
    · -- The trees that follow neither mark the first one nor change the locals in sight of it.
      have hid := id_mem_idsOf hx
      have howner (f : Frame) (hf : owner? x.1 = some f) : f.id ∉ idsOf ns :=
        (owner_of_located hx hf).elim (hpath₂ _) (hapart _)
      rw [h'.outside _ (hapart _ hid), hnearer fun hmem => hpath₁ _ hmem hid, Bool.and_false,
        hrest.resolved_eq howner]
      exact h.inside x hx
    · have hid := id_mem_idsOf hx
      rw [h'.inside x hx, h.outside _ fun hmem => hapart _ hmem hid, hnearer fun hmem => hpath₂ _ hmem hid,
        Bool.and_false]
      rfl

theorem node (hn : n.tag ≠ .context) (henters : Enters n path s a next)
    (hbelow : Marks n.children (n.frame :: path) (s.noted a next) s₁)
    (hwalk : Allots n.children (s.noted a next) s₁) (hleaves : s₁.notes.SameExcept lastKeys a')
    (hids : (path.ids ++ n.ids).Nodup) : Marks [n] path s (s₁.noted a' s₁.nextLocal) := by
  have hopens : opens n = (decide (n.tag ∉ ends) && n.children.any opens) := by
    rw [opens_eq, beq_false_of_ne hn, Bool.false_or]
  have hcontext (id : Nat) : a'.context? id = s₁.notes.context? id := hleaves.context? (by decide) id
  -- Seen from a node at which the search ends, no reference below it looks for an owner above it.
  have hmark (id : Nat) (hid : id ∉ idsOf n.children) : a'.context? id =
      mark (opens n && decide (id = n.id ∨ id ∈ (nearer path).ids)) (resolved s.notes path)
        (s.notes.context? id) := by
    have hbelow := hbelow.outside id hid
    rw [hcontext, hbelow, nearer_cons, Node.frame_tag, hopens]
    by_cases hend : n.tag ∈ ends
    · simp [hend, Path.ids, mark]
      exact henters.contexts id
    · have hresolved : resolved a (n.frame :: path) = resolved s.notes path := by
        rw [resolved, owner?_inner hend]
        exact henters.resolved_eq hids
      rw [if_neg hend]
      show mark _ (resolved a _) (a.context? id) = _
      rw [hresolved, henters.contexts]
      simp [hend, Path.ids]
  refine ⟨?_, fun id hid => ?_, fun x hx => ?_⟩
  · have hunresolved : isUnresolved (path, n) = false := by
      rw [isUnresolved, beq_false_of_ne hn, Bool.false_and]
    rw [locatedIn_node, filter_cons_of_neg (by simp [hunresolved])]
    exact hbelow.told
  · rw [notMem_idsOf_singleton] at hid
    refine (hmark id hid.2).trans ?_
    have hne : id ≠ n.id := fun heq => hid.1 (heq ▸ n.id_mem)
    simp [hne]
  · rw [locatedIn_node] at hx
    rcases mem_cons.mp hx with rfl | hx
    · refine (hmark n.id (apart_node hids).2).trans ?_
      have hresolved : resolved a' path = resolved s.notes path := by
        refine resolved_congr fun f hf => ?_
        have hid := (apart_node hids).1 _ (mem_map_of_mem (mem_of_owner? hf))
        rw [hleaves.local? (by decide), hwalk.locals f.id (notMem_idsOf_singleton.mp ?_).2]
        · exact (henters.outside hid).1
        · simpa using hid
      show mark _ _ _ = mark _ (resolved a' path) _
      rw [hresolved]
      simp
    · refine (hcontext x.2.id).trans ((hbelow.inside x hx).trans ?_)
      show mark _ _ (a.context? _) = mark _ (resolved a' x.1) _
      rw [henters.contexts, resolved_congr fun f _ => hleaves.local? (by decide) f.id]

end Marks

theorem marks_context (hn : n.kind = .context) (howned : Owned path s.notes)
    (hids : (path.ids ++ n.ids).Nodup) : Marks [n] path s ((resolveContext n path).run s).2 := by
  have htag : n.tag = .context := by rw [Node.tag, hn]; rfl
  have hlocated : locatedIn [n] path = [(path, n)] := by
    rw [locatedIn_node, Node.children, hn]
    rfl
  have hopens : opens n = true := by
    rw [opens_eq, htag]
    rfl
  cases howner : owner? path with
  | none =>
    have hresolved (a : Annotations) : resolved a path = none := by rw [resolved, howner]; rfl
    have hunresolved : isUnresolved (path, n) = true := by
      rw [isUnresolved, htag, howner]
      rfl
    rw [run_resolveContext_none n howner]
    refine ⟨?_, fun id _ => ?_, fun x hx => ?_⟩
    · rw [hlocated, filter_cons_of_pos hunresolved]
      rfl
    · rw [hresolved, mark_none]
      rfl
    · rw [hlocated, mem_singleton] at hx
      subst hx
      rw [hresolved, mark_none]
      rfl
  | some f =>
    obtain ⟨l, hl⟩ := Option.isSome_iff_exists.mp (howned f howner)
    have hresolved : resolved s.notes path = some l := by
      rw [resolved, howner]
      exact hl
    have hunresolved : isUnresolved (path, n) = false := by
      rw [isUnresolved, howner]
      simp
    -- The marks go to the context itself and to all that stands between it and its owner.
    obtain ⟨a, hrun, hsame, hcontexts⟩ := run_marks l (n.frame :: nearer path) s
    rw [run_resolveContext_some n howner hl, upTo_owner howner (nodup_append'.mp hids).1, hrun]
    refine ⟨?_, fun id hid => ?_, fun x hx => ?_⟩
    · rw [hlocated, filter_cons_of_neg (by simp [hunresolved])]
      exact (append_nil _).symm
    · have hne : id ≠ n.id := fun heq => (notMem_idsOf_singleton.mp hid).1 (heq ▸ n.id_mem)
      rw [hresolved, any_cons, hopens]
      refine (hcontexts id).trans ?_
      simp [Path.ids, hne]
    · rw [hlocated, mem_singleton] at hx
      subst hx
      rw [hopens]
      refine (hcontexts n.id).trans ?_
      show mark _ _ _ = mark true (resolved a path) _
      rw [resolved_congr fun f _ => hsame.local? (by decide) f.id, hresolved]
      simp [Path.ids]

theorem allots_context (hn : n.kind = .context) (howned : Owned path s.notes) :
    Allots [n] s ((resolveContext n path).run s).2 := by
  have hnone {b : Node} (hb : b ∈ nodesOf [n]) : b.tag ∉ boundaries := by
    rcases mem_nodesOf_node.mp hb with rfl | hb
    · rw [Node.tag, hn]
      decide
    · rw [Node.children, hn] at hb
      cases hb
  have hgiven {s' : State} (hnext : s.nextLocal ≤ s'.nextLocal)
      (hlocals : ∀ id, s'.notes.local? id = s.notes.local? id)
      (hparents : ∀ id, s'.notes.parent? id = s.notes.parent? id) : Allots [n] s s' :=
    ⟨hnext, fun id _ => hlocals id, fun id _ => hparents id, fun _ hb htag => absurd htag (hnone hb),
      fun _ hb _ _ htag => absurd htag (hnone hb)⟩
  cases howner : owner? path with
  | none =>
    rw [run_resolveContext_none n howner]
    exact hgiven (Nat.le_refl _) (fun _ => rfl) fun _ => rfl
  | some f =>
    obtain ⟨l, hl⟩ := Option.isSome_iff_exists.mp (howned f howner)
    obtain ⟨a, hrun, hsame, -⟩ := run_marks l (n.frame :: (path.upTo fun g => g.id == f.id).1) s
    rw [run_resolveContext_some n howner hl, hrun]
    exact hgiven (Nat.le_refl _) (hsame.local? (by decide)) (hsame.parent? (by decide))

/-! ## Collections -/

/-- Nothing is known about locals inside trees with these ancestors, except that a tree may have the
    local of its owner. -/
structure Untold (ns : List Node) (path : Path) (a : Annotations) : Prop where
  tops : ∀ n ∈ ns, a.local? n.id = none ∨ a.local? n.id = resolved a path
  below : ∀ n ∈ ns, ∀ id ∈ idsOf n.children, a.local? id = none

namespace Untold

theorem head (h : Untold (n :: ns) path a) : Untold [n] path a where
  tops := forall_mem_singleton.mpr (h.tops n mem_cons_self)
  below := forall_mem_singleton.mpr (h.below n mem_cons_self)

theorem tail (h : Untold (n :: ns) path s.notes) (hwalk : Allots [n] s s₁)
    (hids : (path.ids ++ idsOf (n :: ns)).Nodup) : Untold ns path s₁.notes := by
  obtain ⟨hpath, -, hapart⟩ := apart_cons hids
  have hlater (id : Nat) (hid : id ∈ idsOf ns) : s₁.notes.local? id = s.notes.local? id :=
    hwalk.locals id fun hmem => hapart id hmem hid
  refine ⟨fun m hm => ?_, fun m hm id hid => ?_⟩
  · rw [hwalk.resolved_eq fun f hf => hpath _ (mem_map_of_mem (mem_of_owner? hf)),
      hlater m.id (mem_flatMap.mpr ⟨m, hm, m.id_mem⟩)]
    exact h.tops m (mem_cons_of_mem _ hm)
  · have hmem : id ∈ m.ids := by
      rw [Node.ids_eq]
      exact mem_cons_of_mem _ hid
    rw [hlater id (mem_flatMap.mpr ⟨m, hm, hmem⟩)]
    exact h.below m (mem_cons_of_mem _ hm) id hid

theorem children (h : Untold [n] path s.notes) (henters : Enters n path s a next)
    (hids : (path.ids ++ n.ids).Nodup) : Untold n.children (n.frame :: path) a := by
  have hself := (apart_node hids).2
  have hinner : (idsOf n.children).Nodup := by
    have hnodup := (nodup_append'.mp hids).2.1
    rw [Node.ids_eq] at hnodup
    exact (nodup_cons.mp hnodup).2
  have hblank (id : Nat) (hid : id ∈ idsOf n.children) (hne : ∀ t ∈ tested? n, id ≠ t.id) :
      a.local? id = none := by
    rw [henters.locals id (fun heq => hself (heq ▸ hid)) hne]
    exact h.below n mem_cons_self id hid
  refine ⟨fun c hc => ?_, fun c hc id hid => ?_⟩
  · by_cases hc' : ∃ t ∈ tested? n, c.id = t.id
    · obtain ⟨t, ht, hc'⟩ := hc'
      obtain ⟨-, hown, htemplate⟩ := henters.given t ht
      have howner : owner? (n.frame :: path) = some n.frame := by
        rw [owner?_cons, Node.frame_tag, if_pos (tag_of_tested? ht)]
      right
      rw [hc', htemplate, resolved, howner]
      exact hown.symm
    · exact .inl (hblank c.id (mem_flatMap.mpr ⟨c, hc, c.id_mem⟩) fun t ht heq => hc' ⟨t, ht, heq⟩)
  · -- The template is a child of the node, so it is not below one.
    have hmem : id ∈ c.ids := by
      rw [Node.ids_eq]
      exact mem_cons_of_mem _ hid
    refine hblank id (mem_flatMap.mpr ⟨c, hc, hmem⟩) fun t ht heq => ?_
    exact Node.id_notMem_below hinner (mem_children_of_tested? ht) hc (heq ▸ hid)

end Untold

structure Links (ns : List Node) (path : Path) (s s' : State) : Prop where
  collections : ∀ x ∈ locatedIn ns path, x.2.tag ∈ collections →
    ∀ l, resolved s'.notes x.1 = some l → s'.notes.parent? x.2.id = some l
  members : ∀ n ∈ nodesOf ns, n.tag ∈ Pattern.collections → ∀ e ∈ n.children, e.tag = .element →
    ∀ l, s'.notes.parent? n.id = some l → s'.notes.parent? e.id = some l
  tops : ∀ n ∈ ns, n.tag = .element → ∀ f, path.parent? = some f →
    ∀ l, s.notes.parent? f.id = some l → s'.notes.parent? n.id = some l

namespace Links

theorem nil (s : State) : Links [] path s s where
  collections _ hx := by cases hx
  members _ hn := by cases hn
  tops _ hn := by cases hn

theorem cons (h : Links [n] path s s₁) (h' : Links ns path s₁ s₂) (hwalk : Allots [n] s s₁)
    (hrest : Allots ns s₁ s₂) (hids : (path.ids ++ idsOf (n :: ns)).Nodup) : Links (n :: ns) path s s₂ := by
  obtain ⟨hpath₁, hpath₂, hapart⟩ := apart_cons hids
  have hparent {id : Nat} (hid : id ∈ idsOf [n]) : s₂.notes.parent? id = s₁.notes.parent? id :=
    hrest.parents id (hapart id hid)
  refine ⟨fun x hx htag l hl => ?_, fun m hm htag e he hetag l hl => ?_, forall_mem_cons.mpr
    ⟨fun htag f hf l hl => ?_, fun m hm htag f hf l hl => h'.tops m hm htag f hf l ?_⟩⟩
  · rw [locatedIn_cons, mem_append] at hx
    rcases hx with hx | hx
    · rw [hrest.resolved_eq fun f hf => (owner_of_located hx hf).elim (hpath₂ _) (hapart _)] at hl
      rw [hparent (id_mem_idsOf hx)]
      exact h.collections x hx htag l hl
    · exact h'.collections x hx htag l hl
  · rcases mem_nodesOf_cons.mp hm with hm | hm
    · have he' : e ∈ nodesOf [n] := by
        rw [nodesOf, flatMap_singleton] at hm ⊢
        exact mem_preorder_of_child hm he
      rw [hparent (id_mem_of_mem_nodesOf hm)] at hl
      rw [hparent (id_mem_of_mem_nodesOf he')]
      exact h.members m hm htag e he hetag l hl
    · exact h'.members m hm htag e he hetag l hl
  · rw [hparent (by simpa using n.id_mem)]
    exact h.tops n mem_cons_self htag f hf l hl
  · rwa [hwalk.parents f.id (hpath₁ _ (mem_map_of_mem (mem_of_mem_head? hf)))]

theorem node (huntold : Untold [n] path s.notes) (henters : Enters n path s a next)
    (hbelow : Links n.children (n.frame :: path) (s.noted a next) s₁)
    (hwalk : Allots n.children (s.noted a next) s₁) (hleaves : s₁.notes.SameExcept lastKeys a')
    (hids : (path.ids ++ n.ids).Nodup) : Links [n] path s (s₁.noted a' s₁.nextLocal) := by
  obtain ⟨hpath, hself⟩ := apart_node hids
  have hparent (id : Nat) : a'.parent? id = s₁.notes.parent? id := hleaves.parent? (by decide) id
  have hresolved (path : Path) : resolved a' path = resolved s₁.notes path :=
    resolved_congr fun f _ => hleaves.local? (by decide) f.id
  have hown : a'.parent? n.id = a.parent? n.id := (hparent n.id).trans (hwalk.parents _ hself)
  refine ⟨fun x hx htag l hl => ?_, fun m hm htag e he hetag l hl => ?_, fun m hm htag f hf l hl => ?_⟩
  · rw [locatedIn_node] at hx
    rcases mem_cons.mp hx with rfl | hx
    · refine hown.trans (henters.taken htag l ?_)
      have habove : resolved s₁.notes path = resolved a path := hwalk.resolved_eq fun f hf hmem =>
        hpath _ (mem_map_of_mem (mem_of_owner? hf)) (by rw [Node.ids_eq]; exact mem_cons_of_mem _ hmem)
      have hl' : resolved s.notes path = some l := by
        rw [← henters.resolved_eq hids, ← habove, ← hresolved]
        exact hl
      rcases huntold.tops n mem_cons_self with hnone | hsome
      · rw [hnone, Option.none_or, hl']
      · rw [hsome, hl', Option.some_or]
    · exact (hparent x.2.id).trans (hbelow.collections x hx htag l ((hresolved x.1).symm.trans hl))
  · refine (hparent e.id).trans ?_
    rcases mem_nodesOf_node.mp hm with rfl | hm
    · exact hbelow.tops e he hetag m.frame rfl l (hown.symm.trans hl)
    · exact hbelow.members m hm htag e he hetag l ((hparent m.id).symm.trans hl)
  · obtain rfl := mem_singleton.mp hm
    exact hown.trans (henters.member htag f hf l hl)

end Links

theorem links_context (hn : n.kind = .context) (s s' : State) : Links [n] path s s' := by
  have htag : n.tag = .context := by rw [Node.tag, hn]; rfl
  have hchildren : n.children = [] := by rw [Node.children, hn]; rfl
  refine ⟨fun x hx h => ?_, fun m hm h => ?_, fun m hm h => ?_⟩
  · rw [locatedIn_node, hchildren] at hx
    obtain rfl := mem_singleton.mp hx
    rw [htag] at h
    exact absurd h (by decide)
  · rw [mem_nodesOf_node, hchildren] at hm
    rcases hm with rfl | hm
    · rw [htag] at h
      exact absurd h (by decide)
    · cases hm
  · obtain rfl := mem_singleton.mp hm
    rw [htag] at h
    cases h

/-! ## The walk -/

structure Visits (ns : List Node) (path : Path) (s s' : State) : Prop extends
    Allots ns s s', Marks ns path s s' where
  links : Untold ns path s.notes → Links ns path s s'

theorem Visits.cons (h : Visits [n] path s s₁) (h' : Visits ns path s₁ s₂)
    (hids : (path.ids ++ idsOf (n :: ns)).Nodup) : Visits (n :: ns) path s s₂ where
  toAllots := h.toAllots.cons h'.toAllots hids
  toMarks := h.toMarks.cons h'.toMarks h.toAllots h'.toAllots hids
  links huntold := (h.links huntold.head).cons (h'.links (huntold.tail h.toAllots hids)) h.toAllots
    h'.toAllots hids

theorem Visits.node (hn : n.tag ≠ .context) (henters : Enters n path s a next)
    (hbelow : Visits n.children (n.frame :: path) (s.noted a next) s₁)
    (hleaves : s₁.notes.SameExcept lastKeys a') (hids : (path.ids ++ n.ids).Nodup) :
    Visits [n] path s (s₁.noted a' s₁.nextLocal) where
  toAllots := hbelow.toAllots.node henters hleaves hids
  toMarks := hbelow.toMarks.node hn henters hbelow.toAllots hleaves hids
  links huntold := .node huntold henters (hbelow.links (huntold.children henters hids)) hbelow.toAllots
    hleaves hids

theorem visits_forM (ih : ∀ n ∈ ns, ∀ s, Owned path s.notes → Visits [n] path s ((elaborate n path).run s).2)
    (howned : Owned path s.notes) (hids : (path.ids ++ idsOf ns).Nodup) :
    Visits ns path s ((ns.forM fun n => elaborate n path).run s).2 := by
  induction ns generalizing s with
  | nil => exact ⟨.nil s, .nil s, fun _ => .nil s⟩
  | cons n ns ihns =>
    rw [forall_mem_cons] at ih
    have hsub : (path.ids ++ idsOf ns).Sublist (path.ids ++ idsOf (n :: ns)) :=
      (List.Sublist.refl _).append (sublist_append_right _ _)
    have hn := ih.1 s howned
    refine hn.cons (ihns ih.2 (fun f hf => ?_) (hsub.nodup hids)) hids
    rw [hn.locals f.id ((apart_cons hids).1 _ (mem_map_of_mem (mem_of_owner? hf)))]
    exact howned f hf

theorem visits_elaborate (n : Node) (path : Path) (s : State) (howned : Owned path s.notes)
    (hids : (path.ids ++ n.ids).Nodup) : Visits [n] path s ((elaborate n path).run s).2 := by
  induction n using Node.ind generalizing path s with
  | step n ih =>
    by_cases hn : n.tag = .context
    · have hkind : n.kind = .context := by
        obtain ⟨i, span, k⟩ := n
        cases k with
        | context => rfl
        | _ => cases hn
      rw [elaborate_context hn]
      exact ⟨allots_context hkind howned, marks_context hkind howned hids, fun _ => links_context hkind _ _⟩
    · rw [elaborate_eq hn]
      have hinner : (Path.ids (n.frame :: path) ++ idsOf n.children).Nodup := by
        rw [Node.ids_eq] at hids
        exact (perm_middle.nodup_iff).mp hids
      obtain ⟨a, next, henter, henters⟩ := exists_enters n path s
      -- Entering a node gives it a local if it needs one.
      have howned' : Owned (n.frame :: path) a := by
        intro f hf
        rw [owner?_cons, Node.frame_tag] at hf
        split at hf
        · rename_i hboundary
          cases hf
          exact henters.owner hboundary
        · split at hf
          · cases hf
          · exact henters.kept f.id (howned f hf)
      have hbelow : Visits n.children (n.frame :: path) (s.noted a next)
          ((n.children.forM fun c => elaborate c (n.frame :: path)).run (s.noted a next)).2 := by
        refine visits_forM (fun c hc s howned => ih c hc _ s howned ?_) howned' hinner
        refine List.Sublist.nodup ?_ hinner
        exact (List.Sublist.refl _).append (sublist_flatten_of_mem (mem_map_of_mem hc))
      obtain ⟨a', hleave, hleaves⟩ := exists_leaves n
        ((n.children.forM fun c => elaborate c (n.frame :: path)).run (s.noted a next)).2
      show Visits [n] path s ((leave n).run
        ((n.children.forM fun c => elaborate c (n.frame :: path)).run ((enter n path).run s).2).2).2
      rw [henter, hleave]
      exact .node hn henters hbelow hleaves hids

end Walk

/-! ## The pass -/

theorem exists_elaborated (root : Node) (session : Session) :
    ∃ root' nextId s, (Desugar.shape root).run session.nextId = (root', nextId) ∧
      (elaborate root' []).run { session := { session with nextId } } = ((), s) ∧
      run root session = (.ok root', s.session) ∧ Grows { session := { session with nextId } } s := by
  obtain ⟨root', nextId, hshape⟩ : ∃ root' nextId,
      (Desugar.shape root).run session.nextId = (root', nextId) := ⟨_, _, rfl⟩
  obtain ⟨s, helaborate⟩ : ∃ s, (elaborate root' []).run { session := { session with nextId } } =
      ((), s) := ⟨_, rfl⟩
  have hgrows := grows_elaborate root' [] { session := { session with nextId } } fun f hf => by cases hf
  rw [helaborate] at hgrows
  refine ⟨root', nextId, s, hshape, helaborate, ?_, hgrows⟩
  unfold run
  rw [hshape]
  dsimp only
  rw [helaborate]
  dsimp only
  rw [hgrows.running rfl]

theorem exists_run (root : Node) (session : Session) :
    ∃ root' session', run root session = (.ok root', session') ∧ Desugar.Shapes root root' := by
  obtain ⟨root', _, s, hshape, -, hrun, -⟩ := exists_elaborated root session
  exact ⟨root', s.session, hrun, .of_run hshape⟩

theorem run_visits {session : Session} (hids : Distinct session.nextId root.ids) :
    ∃ root' nextId s, (Desugar.shape root).run session.nextId = (root', nextId) ∧
      run root session = (.ok root', s.session) ∧ Distinct s.session.nextId root'.ids ∧
      Visits [root'] [] { session := { session with nextId } } s := by
  obtain ⟨root', nextId, s, hshape, helaborate, hrun, hgrows⟩ := exists_elaborated root session
  have hdistinct := (Desugar.kept_shape root).here.1.distinct hids
  rw [hshape] at hdistinct
  have hvisits := visits_elaborate root' [] { session := { session with nextId } }
    (fun f hf => by cases hf) hdistinct.nodup
  rw [helaborate] at hvisits
  exact ⟨root', nextId, s, hshape, hrun, hgrows.nextId ▸ hdistinct, hvisits⟩

theorem untold_empty (root : Node) : Untold [root] [] {} where
  tops _ _ := .inl rfl
  below _ _ _ _ := rfl

theorem Visits.resolved_owner (h : Visits [root] [] s s') {x : Path × Node} {f : Frame}
    (hx : x ∈ root.located []) (hf : owner? x.1 = some f) :
    ∃ l, s'.notes.local? f.id = some l ∧ resolved s'.notes x.1 = some l := by
  rw [resolved, hf]
  rcases Node.mem_located hx f (mem_of_owner? hf) with hpath | ⟨y, hy, rfl⟩
  · cases hpath
  · have hy' : y.2 ∈ nodesOf [root] := by
      rw [nodesOf, flatMap_singleton, ← root.map_snd_located []]
      exact mem_map_of_mem hy
    obtain ⟨l, hl, -⟩ := h.given y.2 hy' (tag_of_owner? hf)
    exact ⟨l, hl, hl⟩

theorem Visits.context_eq (h : Visits [root] [] s s') {x : Path × Node} {f : Frame} (hx : x ∈ root.located [])
    (hopens : opens x.2 = true) (hf : owner? x.1 = some f) :
    s'.notes.context? x.2.id = s'.notes.local? f.id ∧ (s'.notes.local? f.id).isSome := by
  obtain ⟨l, hl, hresolved⟩ := h.resolved_owner hx hf
  rw [h.inside x (by rwa [locatedIn, flatMap_singleton]), hopens, hresolved, hl]
  exact ⟨rfl, rfl⟩

theorem Visits.exists_owner (h : Visits [root] [] s s') (herrors : s'.session.hasErrors = false)
    {x : Path × Node} (hx : x ∈ root.located []) (htag : x.2.tag = .context) : ∃ f, owner? x.1 = some f := by
  by_contra hnone
  have hunresolved : isUnresolved x = true := by
    rw [isUnresolved, htag]
    cases howner : owner? x.1 with
    | none => rfl
    | some f => exact absurd ⟨f, howner⟩ hnone
  have hlocated : x ∈ locatedIn [root] [] := by rwa [locatedIn, flatMap_singleton]
  refine any_eq_false.mp herrors (remark x.2) ?_ rfl
  rw [h.told]
  exact mem_append_right _
    (mem_map.mpr ⟨x, mem_filter.mpr ⟨hlocated, hunresolved⟩, rfl⟩)

end Pattern

end Motif
