import Mathlib.Data.List.SplitBy
import Motif.Proofs.Tree.Numbering
import Motif.Visit

/-!
# Walks

What a group visitor does to a body is said without its loop: the body is cut into maximal runs of matching
statements and into single other ones, and the runs that are long enough are handed over from left to right.
Visitors that only look at nodes are called for each node before and after what is below it, with its
ancestors, and leave the tree as it is.
-/

namespace Motif

open List

theorem Kind.map_id {α : Type} (k : Kind α) : k.map id = k := by
  cases k <;> simp [Kind.map]

theorem Node.height_lt_of_child {n c : Node} (hc : c ∈ n.children) : c.height < n.height := by
  have hle (hs : List Nat) (start : Nat) : start ≤ hs.foldl max start ∧ ∀ h ∈ hs, h ≤ hs.foldl max start := by
    induction hs generalizing start with
    | nil => exact ⟨Nat.le_refl _, forall_mem_nil _⟩
    | cons h hs ih =>
      obtain ⟨hstart, hrest⟩ := ih (max start h)
      rw [forall_mem_cons, foldl_cons]
      exact ⟨Nat.le_trans (Nat.le_max_left ..) hstart, Nat.le_trans (Nat.le_max_right ..) hstart, hrest⟩
  have heq : n.height = (n.children.map height).foldl max 0 + 1 := by
    rw [height, fold_eq, Kind.children_map]
    rfl
  rw [heq]
  exact Nat.lt_succ_of_le ((hle _ 0).2 _ (mem_map_of_mem hc))

namespace Visit

variable {σ : Type}

/-! ## Runs of statements -/

/-- A list that is cut into runs of members that satisfy `p` and into single members that do not. No two runs
    are side by side. -/
structure Cut {α : Type} (p : α → Bool) (xs : List α) (parts : List (List α)) : Prop where
  whole : parts.flatten = xs
  part : ∀ part ∈ parts, part ≠ [] ∧ ((∀ x ∈ part, p x = true) ∨ ∃ x, part = [x] ∧ p x = false)
  maximal : parts.IsChain fun a b => ¬ ((∀ x ∈ a, p x = true) ∧ ∀ x ∈ b, p x = true)

def rewritePart (p : Node → Bool) (handler : List Node → Walk σ (List Node)) (size : Nat) (part : List Node) :
    Walk σ (List Node) :=
  if part.all p && size ≤ part.length then handler part else pure part

section Cuts

variable {α : Type} {p : α → Bool} {xs : List α} {parts : List (List α)}

abbrev together (p : α → Bool) (x y : α) : Bool := p x && p y

theorem isChain_of_forall (h : ∀ x ∈ xs, p x = true) : xs.IsChain fun x y => together p x y = true := by
  induction xs with
  | nil => exact .nil
  | cons x xs ih =>
    rw [forall_mem_cons] at h
    cases xs with
    | nil => exact .singleton x
    | cons y xs => exact .cons_cons (by simp [h.1, h.2 y mem_cons_self]) (ih h.2)

theorem part_of_isChain (h : xs.IsChain fun x y => together p x y = true) :
    (∀ x ∈ xs, p x = true) ∨ ∃ x, xs = [x] ∧ p x = false := by
  induction xs with
  | nil => exact .inl nofun
  | cons x xs ih =>
    cases xs with
    | nil =>
      cases hx : p x with
      | true => exact .inl (forall_mem_singleton.mpr hx)
      | false => exact .inr ⟨x, rfl, hx⟩
    | cons y xs =>
      obtain ⟨hxy, hrest⟩ := isChain_cons_cons.mp h
      obtain ⟨hx, hy⟩ := (Bool.and_eq_true ..).mp hxy
      rcases ih hrest with hall | ⟨z, hz, hfalse⟩
      · exact .inl (forall_mem_cons.mpr ⟨hx, hall⟩)
      · cases hz
        rw [hy] at hfalse
        cases hfalse

theorem cut_iff : Cut p xs parts ↔ xs.splitBy (together p) = parts := by
  constructor
  · rintro ⟨rfl, hpart, hmaximal⟩
    refine splitBy_flatten (fun hnil => (hpart _ hnil).1 rfl) (fun part hmem => ?_) ?_
    · rcases (hpart part hmem).2 with hall | ⟨x, rfl, -⟩
      · exact isChain_of_forall hall
      · exact .singleton x
    · refine hmaximal.imp_of_mem_imp fun a b ha hb hnot => ?_
      have hne (part) (hmem : part ∈ parts) := (hpart part hmem).1
      refine ⟨hne a ha, hne b hb, ?_⟩
      -- A part that does not match as a whole is a single member that does not match.
      rcases (hpart a ha).2 with halla | ⟨x, rfl, hx⟩
      · rcases (hpart b hb).2 with hallb | ⟨y, rfl, hy⟩
        · exact absurd ⟨halla, hallb⟩ hnot
        · simp [hy]
      · simp [hx]
  · rintro rfl
    refine ⟨flatten_splitBy _ xs, fun part hmem => ?_, ?_⟩
    · exact ⟨ne_nil_of_mem_splitBy hmem, part_of_isChain (isChain_of_mem_splitBy hmem)⟩
    · refine (isChain_getLast_head_splitBy _ xs).imp fun a b ⟨ha, hb, hparted⟩ hboth => ?_
      rw [together, hboth.1 _ (getLast_mem ha), hboth.2 _ (head_mem hb)] at hparted
      cases hparted

end Cuts

theorem flushRun_eq {p : Node → Bool} (handler : List Node → Walk σ (List Node)) (size : Nat) {run : List Node}
    (hrun : ∀ n ∈ run, p n = true) :
    flushRun handler size run =
      (do return (← (run.splitBy (together p)).mapM (rewritePart p handler size)).flatten) := by
  cases run with
  | nil => rfl
  | cons n run =>
    have hall : (n :: run).all p = true := all_eq_true.mpr hrun
    rw [splitBy_of_isChain (cons_ne_nil n run) (isChain_of_forall hrun)]
    simp [flushRun, rewritePart, hall]

/-- The loop over the statements of a body, with the run that it has not come to the end of. -/
theorem rewriteRuns_eq (p : Node → Bool) (handler : List Node → Walk σ (List Node)) (size : Nat)
    (done run rest : List Node) (hrun : ∀ n ∈ run, p n = true) :
    rewriteRuns p handler size done run rest =
      (do return done ++ (← ((run ++ rest).splitBy (together p)).mapM
        (rewritePart p handler size)).flatten) := by
  induction rest generalizing done run with
  | nil =>
    rw [rewriteRuns, flushRun_eq handler size hrun, append_nil]
    simp
  | cons n rest ih =>
    rw [rewriteRuns]
    split
    · next hn =>
      rw [ih done (run ++ [n]) (forall_mem_append.mpr ⟨hrun, forall_mem_singleton.mpr hn⟩), append_assoc]
      rfl
    · next hn =>
      -- Here the run ends, and the statement is a part of its own.
      have hparted (x : Node) : together p x n = false ∧ together p n x = false := by simp [hn]
      have hsplit : (run ++ n :: rest).splitBy (together p) =
          run.splitBy (together p) ++ [n] :: rest.splitBy (together p) := by
        rw [splitBy_append_cons _ fun x _ => (hparted x).1]
        have hx (x) (hx : x ∈ [n].getLast?) (y) (_ : y ∈ rest.head?) : together p x y = false :=
          Option.some.inj hx ▸ (hparted y).2
        exact congrArg _ (splitBy_append hx)
      have hsingle : rewritePart p handler size [n] = pure [n] := by simp [rewritePart, hn]
      rw [hsplit, mapM_append, mapM_cons, hsingle, flushRun_eq handler size hrun]
      simp [ih, append_assoc]

/-- Over a body that is not left alone after an abort, a group visitor hands the maximal runs of matching
    statements over from left to right, if they are long enough, and puts the answers in their places. Several
    group visitors do so one after the other. -/
theorem applyGroups_rewrites_runs (w : Walker σ) (path : Path) (body : List Node) {s : State σ}
    (hs : s.aborted = none) :
    (∀ predicate size handler, ∃ parts,
      (∀ parts', Cut (fun n => predicate.holds n path) body parts' ↔ parts' = parts) ∧
        (applyGroups [.groups predicate size handler] w body path).run s =
          (do return (← parts.mapM (rewritePart (fun n => predicate.holds n path)
            (fun part => handler w part path) size)).flatten : Walk σ _).run s) ∧
      ∀ visitors, (applyGroups visitors w body path).run s =
        (visitors.foldlM (fun body v => applyGroups [v] w body path) body).run s := by
  refine ⟨fun predicate size handler => ?_, fun visitors => ?_⟩
  · refine ⟨body.splitBy (together fun n => predicate.holds n path), fun parts' => cut_iff.trans eq_comm, ?_⟩
    have hgroup := rewriteRuns_eq (fun n => predicate.holds n path) (fun part => handler w part path)
      size [] [] body
      (forall_mem_nil _)
    have hrun : (applyGroups [.groups predicate size handler] w body path).run s =
        (applyGroup w path body (.groups predicate size handler)).run s := by
      obtain ⟨session, own, walked, _⟩ := s
      cases hs
      rfl
    rw [hrun, applyGroup, hgroup]
    rfl
  · have hone (body) (v) : applyGroups [v] w body path =
        (do if ← isAborted then return body else applyGroup w path body v) := by
      rw [applyGroups, foldlM_cons]
      exact bind_pure _
    rw [applyGroups, funext fun body => funext fun v => hone body v]

def runsBody : List Node :=
  let name (s : String) : Node := .ofKind (.ident s)
  [.ofKind (.exprStmt (name "a")), .ofKind (.exprStmt (name "b")), .ofKind (.ret (name "c")),
    .ofKind (.exprStmt (name "d"))]

def keepLast : Handler Nat (List Node) := fun _ group _ => do
  modify fun s => { s with own := s.own + 1 }
  return group.drop (group.length - 1)

theorem applyGroups_rewrites_runs_pair :
    let s : State Nat := { session := {}, own := 0 }
    let walker : Walker Nat := ⟨fun n _ => pure n, fun n _ => pure n⟩
    s.aborted = none ∧
      Cut (fun n => (Predicate.tags [.exprStmt]).holds n []) runsBody
        [runsBody.take 2, [runsBody[2]], [runsBody[3]]] ∧
      (applyGroups [.groups (.tags [.exprStmt]) 2 keepLast] walker runsBody []).run s =
        (runsBody.drop 1, { s with own := 1 }) := by
  intro s walker
  have hcut : Cut (fun n => (Predicate.tags [.exprStmt]).holds n []) runsBody
      [runsBody.take 2, [runsBody[2]], [runsBody[3]]] := cut_iff.mpr rfl
  obtain ⟨parts, hparts, hrun⟩ := (applyGroups_rewrites_runs walker [] runsBody (s := s) rfl).1
    (.tags [.exprStmt]) 2 keepLast
  rw [← (hparts _).mp hcut] at hrun
  exact ⟨rfl, hcut, hrun⟩

/-! ## Walks that give back what they are given -/

/-- A walk gives this back, whatever state it is in; and what it does to a state that is related to another one
    is what a second program does to that one. -/
structure Mirrors {α τ : Type} (before after : State σ → τ → Prop) (x : Walk σ α) (a : α) (y : StateM τ Unit) :
    Prop where
  returns : ∀ s, (x.run s).1 = a
  acts : ∀ s t, before s t → after (x.run s).2 (y.run t).2

section Mirrors

variable {α β τ : Type} {before between after : State σ → τ → Prop} {x : Walk σ α} {a : α}
  {y z : StateM τ Unit}

theorem mirrors_pure (before : State σ → τ → Prop) (a : α) : Mirrors before before (pure a) a (pure ()) :=
  ⟨fun _ => rfl, fun _ _ => id⟩

theorem Mirrors.bind {f : α → Walk σ β} {b : β} (hx : Mirrors before between x a y)
    (hf : Mirrors between after (f a) b z) : Mirrors before after (x >>= f) b (do y; z) where
  returns s := by
    show ((f (x.run s).1).run (x.run s).2).1 = b
    rw [hx.returns]
    exact hf.returns _
  acts s t h := by
    show after ((f (x.run s).1).run (x.run s).2).2 (z.run (y.run t).2).2
    rw [hx.returns]
    exact hf.acts _ _ (hx.acts s t h)

theorem Mirrors.return (hx : Mirrors before after x a y) (f : α → β) :
    Mirrors before after (do return f (← x)) (f a) y where
  returns s := congrArg f (hx.returns s)
  acts := hx.acts

theorem mirrors_traverse {step : Node → Walk σ Node} {check : Node → StateM τ Unit} {k : Kind Node}
    (h : ∀ c ∈ k.children, Mirrors before before (step c) c (check c)) :
    Mirrors before before (k.traverse step pure) k (k.children.forM check) := by
  have hlist (cs : List Node) (hcs : ∀ c ∈ cs, Mirrors before before (step c) c (check c)) :
      Mirrors before before (Kind.traverseList step cs) cs (cs.forM check) := by
    induction cs with
    | nil => exact mirrors_pure before []
    | cons c cs ih =>
      rw [forall_mem_cons] at hcs
      exact hcs.1.bind ((ih hcs.2).return (c :: ·))
  refine ⟨fun s => ?_, fun s t hst => ?_⟩
  · obtain ⟨kind, s', hrun⟩ : ∃ kind s', (k.traverse step pure).run s = (kind, s') := ⟨_, _, rfl⟩
    have hsame (c : Node) (hc : c ∈ k.children) (c' : Node) (hc' : Yields (step c) c') : id c = id c' := by
      obtain ⟨s, s', hrun⟩ := hc'
      exact ((h c hc).returns s).symm.trans (congrArg Prod.fst hrun)
    have hkind := Kind.map_eq_of_traverse (.of_run hrun) hsame
    rw [Kind.map_id, Kind.map_id] at hkind
    rw [hrun, hkind]
  · have hacts := (hlist k.children h).acts s t hst
    rw [← Kind.children_traverse] at hacts
    exact hacts

theorem mirrors_descend {visitors : List (Visitor σ)} {levels : Nat} {n : Node} {path : Path}
    {check : Node → StateM τ Unit} (hgroups : ∀ w body path, applyGroups visitors w body path = pure body)
    (h : ∀ c ∈ n.children,
      Mirrors before before (visit visitors (walker visitors levels) c (n.frame :: path)) c
      (check c)) :
    Mirrors before before ((walker visitors (levels + 1)).descend n path) n (n.children.forM check) := by
  have hpure : (fun body => applyGroups visitors (walker visitors levels) body (n.frame :: path)) = pure :=
    funext fun body => hgroups _ body _
  have hreturn := (mirrors_traverse h).return fun kind => ({ n with kind } : Node)
  rw [← hpure] at hreturn
  obtain ⟨i, span, kind⟩ := n
  exact hreturn

end Mirrors

/-! ## Visitors that look -/

/-- A handler that gives back its node and does not steer the walk. It may do what it likes with the session and
    with the state of the visitors, but it does not walk itself, keep children from being walked or abort. -/
def Handler.Looks (handler : Handler σ Node) : Prop :=
  ∃ act : Node → Path → State σ → State σ, ∀ w n path s,
    (handler w n path).run s = (n, act n path s) ∧ (act n path s).walked = s.walked ∧
      (act n path s).aborted = s.aborted

/-- A visitor of breadth or depth order whose handlers look. -/
def Visitor.Looks : Visitor σ → Prop
  | .matching _ _ handler => handler.Looks
  | .byTag _ table => ∀ entry ∈ table, entry.2.Looks
  | .groups .. => False

/-- A time at which the visitors of an order are called for a node, with its ancestors. -/
structure Call where
  order : Order
  node : Node
  path : Path

/-- What is called for a tree: for each node before what is below it, and once more afterwards. -/
def calls : Node → Path → List Call :=
  Node.fold fun n below path =>
    ⟨.breadth, n, path⟩ :: below.children.flatMap (· (n.frame :: path)) ++ [⟨.depth, n, path⟩]

/-- Calls the handlers of all the visitors that act at a time, in the order of the table. -/
def Call.perform (visitors : List (Visitor σ)) (c : Call) : Walk σ Unit :=
  visitors.forM fun v => discard (applyOne ⟨fun n _ => pure n, fun n _ => pure n⟩ c.order c.path c.node v)

theorem calls_eq (n : Node) (path : Path) :
    calls n path = ⟨.breadth, n, path⟩ :: n.children.flatMap (calls · (n.frame :: path))
      ++ [⟨.depth, n, path⟩] := by
  rw [calls, Node.fold_eq, Kind.children_map, flatMap_map]
  rfl

/-- The same state, of a walk that goes on and will walk the children of every node. -/
def Free (s t : State σ) : Prop := s = t ∧ s.walked = [] ∧ s.aborted = none

variable {visitors : List (Visitor σ)} {n : Node} {path : Path}

theorem Handler.Looks.mirrors {handler : Handler σ Node} (h : handler.Looks) (w w' : Walker σ) (n : Node)
    (path : Path) : Mirrors Free Free (handler w n path) n (discard (handler w' n path)) := by
  obtain ⟨act, hact⟩ := h
  refine ⟨fun s => by rw [(hact w n path s).1], ?_⟩
  rintro s _ ⟨rfl, hwalked, haborted⟩
  obtain ⟨hrun, hw, ha⟩ := hact w n path s
  have hrun' : ((discard (handler w' n path) : Walk σ Unit).run s).2 = act n path s :=
    congrArg Prod.snd (hact w' n path s).1
  rw [hrun, hrun']
  exact ⟨rfl, hw.trans hwalked, ha.trans haborted⟩

theorem mirrors_applyOne {v : Visitor σ} (h : v.Looks) (w w' : Walker σ) (order : Order) (n : Node)
    (path : Path) :
    Mirrors Free Free (applyOne w order path n v) n (discard (applyOne w' order path n v)) := by
  have hpure : Mirrors Free Free (pure n) n (discard (pure n : Walk σ Node)) := mirrors_pure Free n
  cases v with
  | matching o predicate handler =>
    rw [applyOne, applyOne]
    split
    · exact Handler.Looks.mirrors h w w' n path
    · exact hpure
  | byTag o table =>
    rw [applyOne, applyOne]
    cases hfound : if o == order then table.reverse.lookup n.tag else none with
    | none => exact hpure
    | some handler =>
      obtain ⟨-, hlookup⟩ := Option.ite_none_right_eq_some.mp hfound
      obtain ⟨front, back, htable, -⟩ := lookup_eq_some_iff.mp hlookup
      have hmem : (n.tag, handler) ∈ table := mem_reverse.mp (htable ▸ by simp)
      exact Handler.Looks.mirrors (h _ hmem) w w' n path
  | groups => exact h.elim

theorem mirrors_guarded {x : Walk σ Node} {y : Walk σ Unit} (hx : Mirrors Free Free x n y) :
    Mirrors Free Free (do if ← isAborted then return n else x) n y where
  returns s := by
    show (StateT.run (if s.aborted.isSome then pure n else x : Walk σ Node) s).1 = n
    split
    · rfl
    · exact hx.returns s
  acts s t hst := by
    have hgoes : s.aborted.isSome = false := by rw [hst.2.2]; rfl
    show Free (StateT.run (if s.aborted.isSome then pure n else x : Walk σ Node) s).2 _
    rw [hgoes]
    exact hx.acts s t hst

theorem mirrors_applyAll (h : ∀ v ∈ visitors, v.Looks) (w : Walker σ) (order : Order) (n : Node)
    (path : Path) :
    Mirrors Free Free (applyAll visitors w order n path) n (Call.perform visitors ⟨order, n, path⟩) := by
  induction visitors with
  | nil => exact mirrors_pure Free n
  | cons v visitors ih =>
    rw [forall_mem_cons] at h
    rw [applyAll, foldlM_cons]
    exact (mirrors_guarded (mirrors_applyOne h.1 w _ order n path)).bind (ih h.2)

theorem applyGroups_of_looks (h : ∀ v ∈ visitors, v.Looks) (w : Walker σ) (body : List Node) (path : Path) :
    applyGroups visitors w body path = pure body := by
  induction visitors with
  | nil => rfl
  | cons v visitors ih =>
    rw [forall_mem_cons] at h
    have hone : applyGroup w path body v = pure body := by
      cases v with
      | groups => exact h.1.elim
      | matching | byTag => rfl
    rw [applyGroups, foldlM_cons, hone]
    simp only [ite_self, bind_pure_comp]
    exact ih h.2

def skip (w : Walker σ) (n : Node) (path : Path) : Walk σ Node := do
  if ← takeWalked n.id then pure n else w.descend n path

theorem visit_eq (visitors : List (Visitor σ)) (w : Walker σ) (n : Node) (path : Path) :
    visit visitors w n path = (do
      if ← isAborted then return n
      else
        let n ← applyAll visitors w .breadth n path
        let n ← skip w n path
        applyAll visitors w .depth n path) := by
  have hjoin (b : Bool) (n : Node) (f : Node → Walk σ Node) :
      (if b then pure n >>= f else w.descend n path >>= f) =
        (if b then pure n else w.descend n path) >>= f := by
    cases b <;> rfl
  unfold visit skip
  simp only [bind_assoc, hjoin]

theorem mirrors_visit {w : Walker σ} {below : Walk σ Unit} (h : ∀ v ∈ visitors, v.Looks)
    (hdescend : Mirrors Free Free (w.descend n path) n below) :
    Mirrors Free Free (visit visitors w n path) n
      (do Call.perform visitors ⟨.breadth, n, path⟩; below; Call.perform visitors ⟨.depth, n, path⟩) := by
  have hskip : Mirrors Free Free (skip w n path) n below := by
    refine ⟨fun s => ?_, ?_⟩
    · show (StateT.run (if s.walked.contains n.id then pure n else w.descend n path : Walk σ Node) _).1 = n
      split
      · rfl
      · exact hdescend.returns _
    · rintro ⟨session, own, walked, aborted⟩ _ ⟨rfl, rfl, rfl⟩
      exact hdescend.acts _ _ ⟨rfl, rfl, rfl⟩
  have hbreadth := mirrors_applyAll h w .breadth n path
  rw [visit_eq]
  exact mirrors_guarded (hbreadth.bind (hskip.bind (mirrors_applyAll h w .depth n path)))

theorem forM_flatMap {α β : Type} (f : α → List β) (act : β → Walk σ Unit) (xs : List α) :
    (xs.flatMap f).forM act = xs.forM fun x => (f x).forM act := by
  induction xs with
  | nil => rfl
  | cons x xs ih =>
    rw [forM_eq_forM, flatMap_cons, forM_append, ← forM_eq_forM, ih]
    rfl

theorem mirrors_calls (h : ∀ v ∈ visitors, v.Looks) {levels : Nat} (hlevels : n.height < levels)
    (path : Path) :
    Mirrors Free Free (visit visitors (walker visitors levels) n path) n
      ((calls n path).forM (Call.perform visitors)) := by
  induction n using Node.ind generalizing levels path with
  | step n ih =>
    obtain ⟨levels, rfl⟩ := Nat.exists_eq_add_one_of_ne_zero (Nat.ne_zero_of_lt hlevels)
    have hdescend : Mirrors Free Free ((walker visitors (levels + 1)).descend n path) n
        (n.children.forM fun c => (calls c (n.frame :: path)).forM (Call.perform visitors)) :=
      mirrors_descend (applyGroups_of_looks h) fun c hc =>
        ih c hc (Nat.lt_of_lt_of_le (Node.height_lt_of_child hc) (Nat.le_of_lt_succ hlevels)) _
    have hvisit := mirrors_visit h hdescend
    have hbelow : (n.children.flatMap (calls · (n.frame :: path))).forM (Call.perform visitors) =
        n.children.forM fun c => (calls c (n.frame :: path)).forM (Call.perform visitors) := forM_flatMap _ _ _
    rw [calls_eq, forM_eq_forM, cons_append, forM_cons, forM_append, forM_cons, forM_nil,
      ← forM_eq_forM, hbelow]
    simpa using hvisit

/-- Visitors that only look are called for every node of a tree before and after what is below it, from left to
    right and with the ancestors of the node. The tree stays as it is. -/
theorem run_makes_calls (h : ∀ v ∈ visitors, v.Looks) (root : Node) {s : State σ} (hwalked : s.walked = [])
    (haborted : s.aborted = none) :
    (run visitors root).run s = (root, (((calls root []).forM (Call.perform visitors)).run s).2) := by
  have hvisit := mirrors_calls h (Nat.lt_add_of_pos_right (Nat.zero_lt_two) : root.height < root.height + 2) []
  exact Prod.ext (hvisit.returns s) (hvisit.acts s s ⟨rfl, hwalked, haborted⟩).1

def record (order : Order) : Handler (List (Order × Frame × Path)) Node := fun _ n path => do
  modify fun s => { s with own := s.own ++ [(order, n.frame, path)] }
  return n

theorem looks_record (order : Order) : (record order).Looks :=
  ⟨fun n path s => { s with own := s.own ++ [(order, n.frame, path)] }, fun _ _ _ _ => ⟨rfl, rfl, rfl⟩⟩

/-- Both operands have the id of the module. -/
def sameIds : Node :=
  let name (s : String) : Node := { Node.ofKind (.ident s) with id := 1 }
  let sum : Node := { Node.ofKind (.binary .add (name "a") (name "b")) with id := 2 }
  { Node.ofKind (.module [sum]) with id := 1 }

theorem run_makes_calls_same_ids :
    let visitors := [.matching .breadth .any (record .breadth),
      .byTag .depth [(.ident, record .depth), (.module, record .depth)]]
    let s : State (List (Order × Frame × Path)) := { session := {}, own := [] }
    (∀ v ∈ visitors, v.Looks) ∧ s.walked = [] ∧ s.aborted = none ∧
      (run visitors sameIds).run s = (sameIds, { s with own := [
        (.breadth, ⟨1, .module⟩, []),
        (.breadth, ⟨2, .binary⟩, [⟨1, .module⟩]),
        (.breadth, ⟨1, .ident⟩, [⟨2, .binary⟩, ⟨1, .module⟩]),
        (.depth, ⟨1, .ident⟩, [⟨2, .binary⟩, ⟨1, .module⟩]),
        (.breadth, ⟨1, .ident⟩, [⟨2, .binary⟩, ⟨1, .module⟩]),
        (.depth, ⟨1, .ident⟩, [⟨2, .binary⟩, ⟨1, .module⟩]),
        (.depth, ⟨1, .module⟩, [])] }) := by
  intro visitors s
  have hlooks : ∀ v ∈ visitors, v.Looks := by
    simp only [visitors, forall_mem_cons, Visitor.Looks, looks_record, not_mem_nil, false_imp_iff, and_true,
      implies_true]
  exact ⟨hlooks, rfl, rfl, run_makes_calls hlooks sameIds rfl rfl⟩

end Visit

end Motif
