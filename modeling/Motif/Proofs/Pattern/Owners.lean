import Motif.Pass.Pattern
import Motif.Proofs.Pattern.Shape

/-!
# Owners of context references

Every node of a tree with its ancestors. A context reference belongs to the nearest pattern or element
around it, unless a function or lambda is nearer; the ancestors that are nearer than its owner see it. A
pattern or an element owns the local of what it tests values against, its template.
-/

namespace Motif

open List
open Node (idsOf)

variable {path : Path} {x : Path × Node} {n : Node}

/-! ## Nodes with their ancestors -/

def Path.ids (path : Path) : List Nat := path.map Frame.id

@[simp]
theorem Node.frame_id (n : Node) : n.frame.id = n.id := rfl

@[simp]
theorem Node.frame_tag (n : Node) : n.frame.tag = n.tag := rfl

/-- All nodes of a tree with the ways to them. -/
def Node.located : Node → Path → List (Path × Node) :=
  Node.fold fun n below path => (path, n) :: below.children.flatMap fun located => located (n.frame :: path)

theorem Node.located_eq (n : Node) (path : Path) :
    n.located path = (path, n) :: n.children.flatMap fun c => c.located (n.frame :: path) := by
  unfold located
  rw [fold_eq, Kind.children_map, flatMap_map]
  rfl

theorem Node.map_snd_located (n : Node) (path : Path) : (n.located path).map Prod.snd = n.preorder := by
  induction n using Node.ind generalizing path with
  | step n ih =>
    rw [located_eq, preorder_eq, map_cons, map_flatMap]
    exact congrArg (n :: ·) (flatMap_congr fun c hc => ih c hc _)

theorem Node.map_located (n : Node) (path : Path) : (n.located path).map (fun x => x.2.id) = n.ids := by
  rw [ids, ← n.map_snd_located path, map_map]
  rfl

theorem Node.id_mem_ids (h : x ∈ n.located path) : x.2.id ∈ n.ids := by
  rw [← map_located n path]
  exact mem_map_of_mem h

theorem Node.mem_located (h : x ∈ n.located path) :
    ∀ f ∈ x.1, f ∈ path ∨ ∃ y ∈ n.located path, f = y.2.frame := by
  induction n using Node.ind generalizing path with
  | step n ih =>
    rw [located_eq] at h ⊢
    rcases mem_cons.mp h with rfl | h
    · exact fun f hf => .inl hf
    · obtain ⟨c, hc, hx⟩ := mem_flatMap.mp h
      intro f hf
      rcases ih c hc hx f hf with hpath | ⟨y, hy, heq⟩
      · rcases mem_cons.mp hpath with rfl | hpath
        · exact .inr ⟨_, mem_cons_self, rfl⟩
        · exact .inl hpath
      · exact .inr ⟨y, mem_cons_of_mem _ (mem_flatMap.mpr ⟨c, hc, hy⟩), heq⟩

namespace Pattern

variable {f : Frame}

/-! ## Owners -/

/-- The nodes at which the search for the owner of a context reference ends. -/
def ends : List Tag := boundaries ++ barriers

/-- The owner of a context reference with these ancestors. -/
def owner? (path : Path) : Option Frame :=
  (path.find? fun f => f.tag ∈ ends).filter fun f => f.tag ∈ boundaries

def nearer (path : Path) : Path := path.takeWhile fun f => f.tag ∉ ends

def resolved (a : Annotations) (path : Path) : Option Nat := (owner? path).bind fun f => a.local? f.id

theorem mem_ends {t : Tag} : t ∈ ends ↔ t ∈ boundaries ∨ t ∈ barriers := mem_append

theorem owner?_cons (f : Frame) (path : Path) : owner? (f :: path) = if f.tag ∈ boundaries then some f
      else if f.tag ∈ barriers then none else owner? path := by
  unfold owner?
  rw [find?_cons]
  by_cases hboundary : f.tag ∈ boundaries
  · simp [mem_ends, hboundary]
  · by_cases hbarrier : f.tag ∈ barriers <;> simp [mem_ends, hboundary, hbarrier]

theorem nearest?_eq (path : Path) : path.nearest? boundaries barriers = owner? path := by
  induction path with
  | nil => rfl
  | cons f path ih => simp only [Path.nearest?, owner?_cons, ih, contains_iff_mem]

theorem mem_of_owner? (h : owner? path = some f) : f ∈ path :=
  mem_of_find?_eq_some (Option.filter_eq_some_iff.mp h).1

theorem tag_of_owner? (h : owner? path = some f) : f.tag ∈ boundaries :=
  of_decide_eq_true (Option.filter_eq_some_iff.mp h).2

theorem owner?_inner (h : n.tag ∉ ends) (path : Path) : owner? (n.frame :: path) = owner? path := by
  rw [mem_ends, not_or] at h
  rw [owner?_cons, Node.frame_tag, if_neg h.1, if_neg h.2]

theorem nearer_cons (f : Frame) (path : Path) :
    nearer (f :: path) = if f.tag ∈ ends then [] else f :: nearer path := by
  unfold nearer
  rw [takeWhile_cons]
  by_cases h : f.tag ∈ ends <;> simp [h]

theorem upTo_owner (h : owner? path = some f) (hids : path.ids.Nodup) :
    (path.upTo fun frame => frame.id == f.id).1 = nearer path := by
  induction path with
  | nil => rfl
  | cons g path ih =>
    obtain ⟨hg, hids⟩ := nodup_cons.mp hids
    rw [owner?_cons] at h
    rw [nearer_cons, Path.upTo, takeWhile_cons]
    by_cases hboundary : g.tag ∈ boundaries
    · rw [if_pos hboundary] at h
      cases h
      simp [mem_ends, hboundary]
    · rw [if_neg hboundary] at h
      split at h
      · cases h
      · rename_i hbarrier
        have hne : g.id ≠ f.id := fun heq => hg (heq ▸ mem_map_of_mem (mem_of_owner? h))
        rw [if_pos (by simpa using hne), if_neg (by simp [mem_ends, hboundary, hbarrier])]
        exact congrArg (g :: ·) (ih h hids)

def opens : Node → Bool :=
  Node.fold fun n below => n.tag == .context || decide (n.tag ∉ ends) && below.children.any fun below => below

theorem opens_eq (n : Node) :
    opens n = (n.tag == .context || decide (n.tag ∉ ends) && n.children.any opens) := by
  unfold opens
  rw [Node.fold_eq, Kind.children_map, any_map]
  rfl

/-- A context reference stands below the node, with no pattern, element, function or lambda between
    them. -/
inductive SeesContext : Node → Prop where
  | child {n c} (hc : c ∈ n.children) (h : c.tag = .context) : SeesContext n
  | through {n c} (hc : c ∈ n.children) (htag : c.tag ∉ ends) (h : SeesContext c) : SeesContext n

theorem sees_iff (n : Node) : n.children.any opens = true ↔ SeesContext n := by
  induction n using Node.ind with
  | step n ih =>
    rw [any_eq_true]
    constructor
    · rintro ⟨c, hc, hopens⟩
      rw [opens_eq, Bool.or_eq_true, Bool.and_eq_true] at hopens
      rcases hopens with htag | ⟨htag, hsees⟩
      · exact .child hc (beq_iff_eq.mp htag)
      · exact .through hc (of_decide_eq_true htag) ((ih c hc).mp hsees)
    · rintro (⟨hc, htag⟩ | ⟨hc, htag, hsees⟩)
      · exact ⟨_, hc, by rw [opens_eq, htag]; rfl⟩
      · refine ⟨_, hc, ?_⟩
        rw [opens_eq, (ih _ hc).mpr hsees]
        simp [htag]

/-- The context references in a tree that belong to the pattern or element around it. -/
def openContexts : Node → List Nat :=
  Node.fold fun n below =>
    if n.tag = .context then [n.id] else if n.tag ∈ ends then [] else below.children.flatten

theorem openContexts_eq (n : Node) :
    openContexts n = if n.tag = .context then [n.id] else if n.tag ∈ ends then []
      else n.children.flatMap openContexts := by
  unfold openContexts
  rw [Node.fold_eq, Kind.children_map]
  rfl

theorem openContexts_child {n c : Node} (hn : n.tag ∉ ends) (hc : c ∈ n.children) :
    openContexts c ⊆ openContexts n := by
  intro id hid
  have hcontext : n.tag ≠ .context := by
    obtain ⟨i, span, k⟩ := n
    cases k with
    | context => cases hc
    | _ => simp [Kind.tag]
  rw [openContexts_eq n, if_neg hcontext, if_neg hn]
  exact mem_flatMap.mpr ⟨c, hc, hid⟩

theorem opens_iff (n : Node) : opens n = true ↔ openContexts n ≠ [] := by
  induction n using Node.ind with
  | step n ih =>
    rw [opens_eq, openContexts_eq]
    by_cases hcontext : n.tag = .context
    · simp [hcontext]
    · by_cases hends : n.tag ∈ ends
      · simp [hcontext, hends]
      · rw [if_neg hcontext, if_neg hends, beq_false_of_ne hcontext, decide_eq_true hends,
          Bool.false_or, Bool.true_and, any_eq_true, Ne, flatMap_eq_nil_iff]
        simp only [not_forall, exists_prop]
        exact exists_congr fun c => and_congr_right fun hc => ih c hc

def remark (n : Node) : Diagnostic :=
  .about n .patternContext "relative context reference used outside of a pattern"

def isUnresolved (x : Path × Node) : Bool := x.2.tag == .context && (owner? x.1).isNone

def locatedIn (ns : List Node) (path : Path) : List (Path × Node) := ns.flatMap fun n => n.located path

theorem id_mem_idsOf {ns : List Node} (h : x ∈ locatedIn ns path) : x.2.id ∈ idsOf ns := by
  obtain ⟨n, hn, hx⟩ := mem_flatMap.mp h
  exact mem_flatMap.mpr ⟨n, hn, Node.id_mem_ids hx⟩

theorem owner_of_located {ns : List Node} (h : x ∈ locatedIn ns path) (hf : owner? x.1 = some f) :
    f.id ∈ path.ids ∨ f.id ∈ idsOf ns := by
  obtain ⟨n, hn, hx⟩ := mem_flatMap.mp h
  rcases Node.mem_located hx f (mem_of_owner? hf) with hpath | ⟨y, hy, rfl⟩
  · exact .inl (mem_map_of_mem hpath)
  · exact .inr (mem_flatMap.mpr ⟨n, hn, Node.id_mem_ids hy⟩)

theorem resolved_congr {a a' : Annotations} (h : ∀ f, owner? path = some f → a'.local? f.id = a.local? f.id) :
    resolved a' path = resolved a path := by
  unfold resolved
  cases howner : owner? path with
  | none => rfl
  | some f => exact h f howner

/-! ## Templates -/

/-- The template that a pattern or an element has. -/
def tested? (n : Node) : Option Node :=
  match n.kind with
  | .pattern template => some template
  | .element _ template => some template
  | _ => none

theorem mem_children_of_tested? {t : Node} (h : t ∈ tested? n) : t ∈ n.children := by
  obtain ⟨i, span, k⟩ := n
  cases k with
  | pattern template =>
    cases h
    exact mem_singleton.mpr rfl
  | element key template =>
    cases h
    exact mem_append_right _ (mem_singleton.mpr rfl)
  | _ => cases h

theorem tag_of_tested? {t : Node} (h : t ∈ tested? n) : n.tag ∈ boundaries := by
  obtain ⟨i, span, k⟩ := n
  cases k with
  | pattern => exact mem_cons_self
  | element => exact mem_cons_of_mem _ mem_cons_self
  | _ => cases h

theorem exists_tested? (h : n.tag ∈ boundaries) : ∃ t, t ∈ tested? n := by
  obtain ⟨i, span, k⟩ := n
  cases k with
  | pattern t => exact ⟨t, rfl⟩
  | element key t => exact ⟨t, rfl⟩
  | _ => exact absurd h (of_decide_eq_false rfl)

def collections : List Tag := [.objectPattern, .arrayPattern]

/-- A mark that is set if there is a reason and a local to mark with. -/
def mark (reason : Bool) (l old : Option Nat) : Option Nat := if reason then l.or old else old

theorem mark_mark (reason reason' : Bool) (l old : Option Nat) :
    mark reason' l (mark reason l old) = mark (reason || reason') l old := by
  cases reason <;> cases reason' <;> cases l <;> rfl

theorem mark_none (reason : Bool) (old : Option Nat) : mark reason none old = old := by
  cases reason <;> rfl

end Pattern

end Motif
