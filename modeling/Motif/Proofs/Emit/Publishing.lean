import Mathlib.Data.String.Basic
import Motif.Proofs.Emit.Declared

/-!
# Branches publish what they write

Branches that are generated each on its own copy of the table of names leave behind one table. A name that
no branch has written has the id from before the branches. A name that some branch has written has a merged
id, which is in none of the tables and belongs to no other name; each branch that goes on ends with one
assignment to it for each such name, in order, from the branch's own id of the name
(`branchSet_publishes`).
-/

namespace Motif.Emit

open Script IdAllocator List

variable {arms : List (List Stmt × NameTable × Bool)} {id name : String} {names : List String}
  {branches : List Branch} {base t : NameTable} {codes : List (List Stmt)}

/-! ## Tables -/

namespace NameTable

def Has (t : NameTable) (name id : String) : Prop := ∃ ids, (name, ids) ∈ t.versions ∧ id ∈ ids

theorem has_of_current? (h : t.current? name = some id) : t.Has name id := by
  obtain ⟨ids, hids, hhead⟩ := Option.bind_eq_some_iff.mp h
  exact ⟨ids, Dict.mem_of_get? hids, mem_of_mem_head? hhead⟩

theorem has_push (t : NameTable) (name id : String) :
    (t.push name id).Has name id ∧ ∀ other own, t.Has other own → (t.push name id).Has other own := by
  obtain ⟨entries⟩ := t
  unfold Has push
  dsimp only
  induction entries with
  | nil => exact ⟨⟨[id], mem_singleton_self _, mem_singleton_self _⟩, by simp⟩
  | cons entry rest ih =>
    obtain ⟨first, ids⟩ := entry
    unfold insert
    split
    · next heq =>
      subst heq
      refine ⟨⟨id :: ids, mem_cons_self, mem_cons_self⟩, ?_⟩
      rintro other own ⟨owns, hmem, hown⟩
      rcases mem_cons.mp hmem with hhere | hmem
      · cases hhere
        exact ⟨id :: ids, mem_cons_self, mem_cons_of_mem _ hown⟩
      · exact ⟨owns, mem_cons_of_mem _ hmem, hown⟩
    · split
      · refine ⟨⟨[id], mem_cons_self, mem_singleton_self _⟩, ?_⟩
        rintro other own ⟨owns, hmem, hown⟩
        exact ⟨owns, mem_cons_of_mem _ hmem, hown⟩
      · obtain ⟨⟨news, hnews, hid⟩, hkept⟩ := ih
        refine ⟨⟨news, mem_cons_of_mem _ hnews, hid⟩, ?_⟩
        rintro other own ⟨owns, hmem, hown⟩
        rcases mem_cons.mp hmem with hhere | hmem
        · exact ⟨owns, mem_cons.mpr (.inl hhere), hown⟩
        · obtain ⟨owns', hmem', hown'⟩ := hkept other own ⟨owns, hmem, hown⟩
          exact ⟨owns', mem_cons_of_mem _ hmem', hown'⟩

end NameTable

/-! ## Runs in parts -/

section Inversion

variable {α β : Type} {setting : Setting} {s s' : State}

theorem Emits.bind_inv {x : Emit α} {f : α → Emit β} {b : β} (h : Emits setting (x >>= f) s b s') :
    ∃ a s₁, Emits setting x s a s₁ ∧ Emits setting (f a) s₁ b s' := by
  unfold Emits at *
  rw [ReaderT.run_bind, StateT.run_bind] at h
  cases hrun : (x.run setting).run s with
  | error e =>
    rw [hrun] at h
    cases h
  | ok result =>
    rw [hrun] at h
    exact ⟨result.1, result.2, rfl, h⟩

/-- What a write does to names and to the ids to come, whatever function it is in. -/
structure Writes (s : State) (name id : String) (s' : State) : Prop where
  next : id = s.nextId name
  current : ∀ other, s'.names.current? other = if other = name then some id else s.names.current? other
  count : ∀ other, s'.count other = if other = name then s.count name + 1 else s.count other
  has : s'.names.Has name id
  grows : ∀ other own, s.names.Has other own → s'.names.Has other own

theorem writes_of_emits (h : Emits setting (writeName name) s id s') : Writes s name id s' := by
  obtain ⟨hhas, hgrows⟩ := s.names.has_push name (s.nextId name)
  obtain ⟨constants, ids, names, _ | ⟨frame, frames⟩⟩ := s <;> cases h <;>
    exact ⟨rfl, fun other => NameTable.current?_push _ _ _ _, fun other => count_version name other _ rfl,
      hhas, hgrows⟩

theorem emits_readName_inv (h : Emits setting (readName name) s id s') :
    (s.names.current? name = some id ∧ s' = s) ∨
      (s.names.current? name = none ∧ Emits setting (writeName name) s id s') := by
  obtain ⟨_, _, hget, h⟩ := h.bind_inv
  cases hget
  cases hname : s.names.current? name with
  | some own =>
    rw [hname] at h
    cases h
    exact .inl ⟨rfl, rfl⟩
  | none =>
    rw [hname] at h
    exact .inr ⟨rfl, h⟩

/-- Branches are run one after the other, all with the same names to begin with. -/
inductive Runs (setting : Setting) (base : NameTable) :
    List Branch → State → List (List Stmt × NameTable × Bool) → State → Prop where
  | nil {s : State} : Runs setting base [] s [] s
  | cons {b : Branch} {branches : List Branch} {s s₁ s' : State} {code : List Stmt}
      {arms : List (List Stmt × NameTable × Bool)}
      (hcode : Emits setting b.code { s with names := base } code s₁)
      (hrest : Runs setting base branches { s₁ with names := base } arms s') :
      Runs setting base (b :: branches) s ((code, s₁.names, b.terminates) :: arms) s'

theorem runs_of_emits (h : Emits setting (runBranches base branches) s arms s') :
    Runs setting base branches s arms s' := by
  induction branches generalizing s arms with
  | nil =>
    cases h
    exact .nil
  | cons b branches ih =>
    obtain ⟨_, _, hmodify, h⟩ := Emits.bind_inv h
    cases hmodify
    obtain ⟨code, s₁, hcode, h⟩ := h.bind_inv
    obtain ⟨_, _, hget, h⟩ := h.bind_inv
    cases hget
    obtain ⟨_, _, hmodify, h⟩ := h.bind_inv
    cases hmodify
    obtain ⟨rest, s₂, hrest, h⟩ := h.bind_inv
    cases h
    exact .cons hcode (ih hrest)

def writtenNames (base : NameTable) (arms : List (List Stmt × NameTable × Bool)) : List String :=
  (arms.flatMap fun arm => arm.2.1.modifiedSince base).foldl (fun names name => insertName name names) []

theorem emits_branchSet_inv (h : Emits setting (branchSet branches) s codes s') :
    ∃ arms s₁ merged, Emits setting (runBranches s.names branches) s arms s₁ ∧
      Emits setting ((writtenNames s.names arms).foldlM (fun arms name => mergeName name arms) arms)
        s₁ merged s' ∧ codes = merged.map Prod.fst := by
  obtain ⟨_, _, hget, h⟩ := h.bind_inv
  cases hget
  obtain ⟨arms, s₁, harms, h⟩ := h.bind_inv
  obtain ⟨merged, s₂, hmerge, h⟩ := h.bind_inv
  cases h
  exact ⟨arms, s₁, merged, harms, hmerge, rfl⟩

theorem Runs.names_eq (h : Runs setting base branches s arms s') (hs : s.names = base) : s'.names = base := by
  induction h with
  | nil => exact hs
  | cons _ _ ih => exact ih rfl

end Inversion

/-! ## The names to merge -/

theorem insertName_sorted (h : names.Pairwise (· < ·)) : (insertName name names).Pairwise (· < ·) := by
  induction names with
  | nil => exact pairwise_singleton _ _
  | cons first rest ih =>
    rw [pairwise_cons] at h
    unfold insertName
    split
    · exact pairwise_cons.mpr h
    · next hne =>
      split
      · next hlt =>
        refine pairwise_cons.mpr ⟨?_, pairwise_cons.mpr h⟩
        exact forall_mem_cons.mpr ⟨hlt, fun other hother => lt_trans hlt (h.1 other hother)⟩
      · next hle =>
        refine pairwise_cons.mpr ⟨fun other hother => ?_, ih h.2⟩
        rcases mem_insertName.mp hother with rfl | hother
        · exact lt_of_le_of_ne (not_lt.mp hle) hne
        · exact h.1 other hother

theorem writtenNames_sorted (base : NameTable) (arms : List (List Stmt × NameTable × Bool)) :
    (writtenNames base arms).Pairwise (· < ·) := by
  have hfold (names sorted : List String) (h : sorted.Pairwise (· < ·)) :
      (names.foldl (fun names name => insertName name names) sorted).Pairwise (· < ·) := by
    induction names generalizing sorted with
    | nil => exact h
    | cons name names ih => exact ih _ (insertName_sorted h)
  exact hfold _ [] List.Pairwise.nil

theorem mem_writtenNames :
    name ∈ writtenNames base arms ↔ ∃ arm ∈ arms, name ∈ arm.2.1.modifiedSince base := by
  unfold writtenNames
  rw [mem_foldl_insertName, mem_flatMap]
  exact or_iff_left not_mem_nil

theorem NameTable.Covers.mem_modifiedSince (h : base.Covers t) :
    name ∈ t.modifiedSince base ↔ t.current? name ≠ base.current? name := by
  unfold modifiedSince
  rw [mem_filter, bne_iff_ne, and_iff_right_iff_imp]
  intro hne
  have hsome : (t.current? name).isSome := by
    by_contra hnone
    rw [Option.not_isSome_iff_eq_none] at hnone
    rw [hnone, ne_comm, ← Option.isSome_iff_ne_none] at hne
    have := h name hne
    rw [hnone] at this
    cases this
  obtain ⟨id, hid⟩ := Option.isSome_iff_exists.mp hsome
  exact mem_keys hid

/-! ## Merging -/

namespace State

def outsideId (s : State) (name : String) : String := (s.names.current? name).getD (s.nextId name)

def mergedId (s : State) (name : String) : String :=
  versionId name (if (s.names.current? name).isSome then s.count name else s.count name + 1)

def mergeLine (s : State) (table : NameTable) (name : String) : Stmt :=
  assignId (s.mergedId name) (.name ((table.current? name).getD (s.outsideId name)))

end State

structure Merged (s : State) (names : List String) (arms arms' : List (List Stmt × NameTable × Bool))
    (s' : State) : Prop where
  current : ∀ name ∈ names, s'.names.current? name = some (s.mergedId name)
  others : ∀ name ∉ names, s'.names.current? name = s.names.current? name
  count : ∀ name ∉ names, s'.count name = s.count name
  outside : ∀ name ∈ names, s'.names.Has name (s.outsideId name)
  grows : ∀ name id, s.names.Has name id → s'.names.Has name id
  arms : arms' = arms.map fun arm =>
    (if arm.2.2 then arm.1 else arm.1 ++ names.map (s.mergeLine arm.2.1), arm.2)

section Merging

variable {setting : Setting} {s s' : State} {arms arms' : List (List Stmt × NameTable × Bool)}

theorem merged_of_emits_mergeName (h : Emits setting (mergeName name arms) s arms' s') :
    Merged s [name] arms arms' s' := by
  obtain ⟨before, s₁, hread, h⟩ := h.bind_inv
  obtain ⟨merged, s₂, hwrite, h⟩ := h.bind_inv
  cases h
  have hwrites := writes_of_emits hwrite
  -- The name has an id before it gets the merged one, if only for the sake of the branches.
  have hbefore : before = s.outsideId name ∧ merged = s.mergedId name ∧ s₁.names.Has name before ∧
      (∀ other id, s.names.Has other id → s₁.names.Has other id) ∧
      ∀ other ≠ name, s₁.names.current? other = s.names.current? other ∧ s₁.count other = s.count other := by
    rw [hwrites.next]
    unfold State.nextId State.outsideId State.mergedId
    rcases emits_readName_inv hread with ⟨hname, rfl⟩ | ⟨hname, hfirst⟩
    · rw [hname]
      exact ⟨rfl, rfl, NameTable.has_of_current? hname, fun _ _ h => h, fun _ _ => ⟨rfl, rfl⟩⟩
    · have hnew := writes_of_emits hfirst
      rw [hname, hnew.count, if_pos rfl]
      refine ⟨hnew.next, rfl, hnew.has, hnew.grows, fun other hother => ?_⟩
      rw [hnew.current, hnew.count, if_neg hother, if_neg hother]
      exact ⟨rfl, rfl⟩
  obtain ⟨rfl, rfl, hhas, hgrows, hothers⟩ := hbefore
  have hne {other : String} (hother : other ∉ [name]) : other ≠ name :=
    fun heq => hother (mem_singleton.mpr heq)
  constructor
  case current =>
    intro other hother
    rw [hwrites.current, if_pos (mem_singleton.mp hother), mem_singleton.mp hother]
  case others =>
    intro other hother
    rw [hwrites.current, if_neg (hne hother), (hothers other (hne hother)).1]
  case count =>
    intro other hother
    rw [hwrites.count, if_neg (hne hother), (hothers other (hne hother)).2]
  case outside =>
    intro other hother
    rw [mem_singleton.mp hother]
    exact hwrites.grows _ _ hhas
  case grows => exact fun other id h => hwrites.grows other id (hgrows other id h)
  case arms => rfl

theorem Merged.outsideId (h : Merged s names arms arms' s') (hname : name ∉ names) :
    s'.outsideId name = s.outsideId name := by
  unfold State.outsideId State.nextId
  rw [h.others name hname, h.count name hname]

theorem Merged.mergedId (h : Merged s names arms arms' s') (hname : name ∉ names) :
    s'.mergedId name = s.mergedId name := by
  unfold State.mergedId
  rw [h.others name hname, h.count name hname]

theorem Merged.mergeLine (h : Merged s names arms arms' s') (table : NameTable) (hname : name ∉ names) :
    s'.mergeLine table name = s.mergeLine table name := by
  unfold State.mergeLine
  rw [h.mergedId hname, h.outsideId hname]

theorem Merged.cons {s₁ : State} {arms₁ : List (List Stmt × NameTable × Bool)} (hname : name ∉ names)
    (hfirst : Merged s [name] arms arms₁ s₁) (hrest : Merged s₁ names arms₁ arms' s') :
    Merged s (name :: names) arms arms' s' := by
  have hother {other : String} (h : other ∈ names) : other ∉ [name] := by
    rw [mem_singleton]
    rintro rfl
    exact hname h
  have hhere {other : String} (hmem : other ∈ name :: names) (hlater : other ∉ names) : other ∈ [name] :=
    mem_singleton.mpr ((mem_cons.mp hmem).resolve_right hlater)
  constructor
  case current =>
    intro other hmem
    by_cases hlater : other ∈ names
    · rw [hrest.current other hlater, hfirst.mergedId (hother hlater)]
    · rw [hrest.others other hlater, hfirst.current other (hhere hmem hlater)]
  case others =>
    intro other hmem
    rw [mem_cons, not_or] at hmem
    rw [hrest.others other hmem.2, hfirst.others other (mem_singleton.not.mpr hmem.1)]
  case count =>
    intro other hmem
    rw [mem_cons, not_or] at hmem
    rw [hrest.count other hmem.2, hfirst.count other (mem_singleton.not.mpr hmem.1)]
  case outside =>
    intro other hmem
    by_cases hlater : other ∈ names
    · rw [← hfirst.outsideId (hother hlater)]
      exact hrest.outside other hlater
    · exact hrest.grows _ _ (hfirst.outside other (hhere hmem hlater))
  case grows => exact fun other id h => hrest.grows other id (hfirst.grows other id h)
  case arms =>
    rw [hrest.arms, hfirst.arms, map_map]
    refine map_congr_left fun arm _ => ?_
    have hlines : names.map (s₁.mergeLine arm.2.1) = names.map (s.mergeLine arm.2.1) :=
      map_congr_left fun other hmem => hfirst.mergeLine arm.2.1 (hother hmem)
    dsimp only [Function.comp_apply]
    rw [hlines]
    split
    · rfl
    · rw [append_assoc]
      rfl

theorem merged_of_emits (hnodup : names.Nodup)
    (h : Emits setting (names.foldlM (fun arms name => mergeName name arms) arms) s arms' s') :
    Merged s names arms arms' s' := by
  induction names generalizing s arms with
  | nil =>
    cases h
    refine ⟨forall_mem_nil _, fun _ _ => rfl, fun _ _ => rfl, forall_mem_nil _, fun _ _ h => h, ?_⟩
    simp
  | cons name names ih =>
    rw [nodup_cons] at hnodup
    rw [foldlM_cons] at h
    obtain ⟨arms₁, s₁, hfirst, hrest⟩ := h.bind_inv
    exact (merged_of_emits_mergeName hfirst).cons hnodup.1 (ih hnodup.2 hrest)

end Merging

/-! ## Branch sets -/

/-- What branches have made public. The names that some branch has written are in order; `merged` is the
    id that such a name has afterwards, `outside` the one for branches that do not know the name. -/
structure Published (base final : NameTable) (arms : List (List Stmt × NameTable × Bool))
    (codes : List (List Stmt)) (written : List String) (merged outside : String → String) : Prop where
  sorted : written.Pairwise (· < ·)
  mem_written : ∀ name, name ∈ written ↔ ∃ arm ∈ arms, arm.2.1.current? name ≠ base.current? name
  others : ∀ name ∉ written, final.current? name = base.current? name
  current : ∀ name ∈ written, final.current? name = some (merged name)
  /-- A merged id is in no table from before the merging. -/
  fresh : ∀ name ∈ written, ∀ other, ¬ base.Has other (merged name) ∧
    ∀ arm ∈ arms, ¬ arm.2.1.Has other (merged name)
  alone : ∀ name ∈ written, ∀ other, final.Has other (merged name) → other = name
  /-- A name without an id before the branches has got one that is in no table from before the merging. -/
  known : ∀ name ∈ written, final.Has name (outside name) ∧ outside name ≠ merged name ∧
    (base.current? name = some (outside name) ∨ base.current? name = none ∧
      ∀ other, ¬ base.Has other (outside name) ∧ ∀ arm ∈ arms, ¬ arm.2.1.Has other (outside name))
  codes : codes = arms.map fun arm =>
    if arm.2.2 then arm.1
    else arm.1 ++ written.map fun name =>
      assignId (merged name) (.name ((arm.2.1.current? name).getD (outside name)))

section Publishing

variable {setting : Setting} {s s' : State}

theorem Tidy.not_has (hs : Tidy True setting s) (ht : t.Declared True s.frames) (hname : Plain name) {k : Nat}
    (hk : s.count name ≤ k) (other : String) : ¬ t.Has other (versionId name k) := by
  rintro ⟨ids, hentry, hid⟩
  obtain ⟨-, scope, hscope, hmem⟩ := (ht _ hentry).2 _ hid
  obtain ⟨f, hf, rfl⟩ := mem_map.mp hscope
  exact (hs.given trivial f hf _ hmem).ne_versionId hname hk rfl

theorem NameTable.Declared.eq_of_has {frames : List Frame} (h : t.Declared True frames) {other : String}
    {k : Nat} (hname : Plain name) (hhas : t.Has other (versionId name k)) : other = name := by
  obtain ⟨ids, hentry, hid⟩ := hhas
  obtain ⟨hother, hids⟩ := h _ hentry
  obtain ⟨j, hj⟩ := (hids _ hid).1
  exact (versionId_inj hname.undecorated (hother trivial).undecorated hj).1.symm

theorem published_of_emits (hs : Tidy True setting s)
    (hbranches : ∀ b ∈ branches, (namesOnly True setting).MakesBranch b b)
    (h : Emits setting (branchSet branches) s codes s') : ∃ arms s₁, Runs setting s.names branches s arms s₁ ∧
      Published s.names s'.names arms codes (writtenNames s.names arms) s₁.mergedId s₁.outsideId := by
  have hholds : (namesOnly True setting).Holds s := ⟨hs, False.elim⟩
  have hfinal := ((does_branchSet (forall₂_same.mpr hbranches) s).post hholds h).1
  obtain ⟨arms, s₁, arms', harms, hmerge, rfl⟩ := emits_branchSet_inv h
  have hruns := runs_of_emits harms
  obtain ⟨hs₁, hlater, hfits⟩ := (does_runBranches (forall₂_same.mpr hbranches) rfl).post hholds harms
  have hsorted := writtenNames_sorted s.names arms
  have hmerged := merged_of_emits (hsorted.imp ne_of_lt) hmerge
  have hnames : s₁.names = s.names := hruns.names_eq rfl
  have hplain (name : String) (hname : name ∈ writtenNames s.names arms) : Plain name := by
    obtain ⟨arm, harm, hmodified⟩ := mem_writtenNames.mp hname
    exact (hfits arm harm).table.modified hmodified trivial
  -- No table of a branch has an id that the counter of the name has not come to.
  have hfresh (name : String) (hname : name ∈ writtenNames s.names arms) (k : Nat)
      (hk : s₁.count name ≤ k) (other : String) : ¬ s.names.Has other (versionId name k) ∧
        ∀ arm ∈ arms, ¬ arm.2.1.Has other (versionId name k) :=
    ⟨hs₁.not_has (hlater.declared hs.table) (hplain name hname) hk other,
      fun arm harm => hs₁.not_has (hfits arm harm).table (hplain name hname) hk other⟩
  refine ⟨arms, s₁, hruns, ?_⟩
  constructor
  case sorted => exact hsorted
  case mem_written =>
    intro name
    rw [mem_writtenNames]
    exact exists_congr fun arm => and_congr_right fun harm => (hfits arm harm).covers.mem_modifiedSince
  case others =>
    intro name hname
    rw [hmerged.others name hname, hnames]
  case current => exact hmerged.current
  case fresh =>
    intro name hname
    refine hfresh name hname _ ?_
    split
    · exact Nat.le_refl _
    · exact Nat.le_succ _
  case alone => exact fun name hname other => hfinal.table.eq_of_has (hplain name hname)
  case known =>
    intro name hname
    have hundecorated := (hplain name hname).undecorated
    refine ⟨hmerged.outside name hname, ?_⟩
    unfold State.outsideId State.mergedId
    rw [hnames]
    cases hown : s.names.current? name with
    | some own =>
      refine ⟨fun heq => ?_, .inl rfl⟩
      have hhas := NameTable.has_of_current? hown
      exact (hfresh name hname _ (Nat.le_refl _) name).1 (heq ▸ hhas)
    | none =>
      -- The read from before the branches draws a version of its own, and the merge the next one.
      refine ⟨fun heq => ?_, .inr ⟨rfl, hfresh name hname _ (Nat.le_refl _)⟩⟩
      exact absurd (versionId_inj hundecorated hundecorated heq).2 (Nat.ne_of_lt (Nat.lt_succ_self _))
  case codes =>
    rw [hmerged.arms, map_map]
    rfl

theorem Runs.terminates (h : Runs setting base branches s arms s') :
    arms.map (fun arm => arm.2.2) = branches.map Branch.terminates := by
  induction h with
  | nil => rfl
  | cons _ _ ih => rw [map_cons, map_cons, ih]

def returns (body : List Node) : Bool := body.getLast?.any fun last => last.tag == .ret

theorem terminates_compile (body : List Node) : terminates (body.map compile) = returns body := by
  unfold terminates returns
  rw [getLast?_map]
  cases body.getLast? with
  | none => rfl
  | some last => exact congrArg (fun n => n.tag == .ret) (compile_node last)

/-- From a state, branches that succeed publish what they have written: each is generated with the names
    from before the branches, and the ones that end by returning are left as they are. -/
def State.Publishes (setting : Setting) (s : State) : Prop :=
  ∀ (keepResult : Bool) (bodies : List (List Node)) (codes : List (List Stmt)) (s' : State),
    (∀ body ∈ bodies, ∀ n ∈ body, n.Everywhere WellNamed) →
      Emits setting (branchSet (bodies.map fun body => branch keepResult (body.map compile))) s codes s' →
        ∃ arms s₁ written merged outside,
          Runs setting s.names (bodies.map fun body => branch keepResult (body.map compile)) s arms s₁ ∧
            arms.map (fun arm => arm.2.2) = bodies.map returns ∧
            Published s.names s'.names arms codes written merged outside

theorem Tidy.publishes (hs : Tidy True setting s) : s.Publishes setting := by
  intro keepResult bodies codes s' hbodies h
  have hbranches : ∀ b ∈ bodies.map fun body => branch keepResult (body.map compile),
      (namesOnly True setting).MakesBranch b b := by
    refine forall_mem_map.mpr fun body hbody => makesBranch_branch keepResult ?_
    refine forall₂_same.mpr (forall_mem_map.mpr fun n hn => ?_)
    exact makes_compile_self n (namesOnly_grants (fun _ => hbodies body hbody n hn) []) nofun
  obtain ⟨arms, s₁, hruns, hpublished⟩ := published_of_emits hs hbranches h
  refine ⟨arms, s₁, _, _, _, hruns, ?_, hpublished⟩
  rw [hruns.terminates, map_map]
  exact map_congr_left fun body _ => terminates_compile body

end Publishing

/-- Where the names of a tree are plain, branches publish what they write and nothing else in every state
    that code generation comes to: a look at the state before and after the code of every node, and so
    before the first statement of branches, changes nothing if it does nothing in such states. All tidy
    states are such. -/
theorem branchSet_publishes (setting : Setting) (root : Node) (hroot : root.Everywhere WellNamed) :
    (∀ look : Emit Unit, (∀ s : State, s.Publishes setting → Emits setting look s () s) →
      ((programBy (compileWatched look) root).run setting).run {} = ((program root).run setting).run {}) ∧
      ∀ s : State, Tidy True setting s → s.Publishes setting := by
  refine ⟨fun look hlook => ?_, fun s hs => hs.publishes⟩
  refine (programBy_does (namesOnly True setting) fun n hn => ?_).1
  refine makes_compileWatched (fun inner s hs => ?_) n (namesOnly_grants (fun _ => hroot.child hn) []) nofun
  exact hlook s (Tidy.publishes hs.tidy)

/-! ### Branches that write different names -/

def writeTrue (name : String) : Node := .ofKind (.assign (.name name) (.ofKind (.literal (.bool true))))

def threeBodies : List (List Node) :=
  [[writeTrue "x"], [writeTrue "y", .ofKind (.ret (.ofKind (.ident "y")))], []]

def threeCodes : List (List Stmt) :=
  [[assignId "x$1" (.literal (.bool true)), assignId "x$2" (.name "x$1"), assignId "y$2" (.name "y$1")],
    [assignId "y" (.literal (.bool true)), .ret (.name "y")],
    [assignId "x$2" (.name "x"), assignId "y$2" (.name "y$1")]]

def stateWithX : State where
  ids := { versions := [("x", 1)] }
  names := { versions := [("x", ["x"])] }
  frames := [{ hoisted := ["x"] }]

theorem branchSet_publishes_threeBodies :
    (Node.ofKind (.module [writeTrue "x"])).Everywhere WellNamed ∧ Tidy True ⟨{}, {}⟩ stateWithX ∧
      ∃ s' arms s₁ written merged outside,
        Emits ⟨{}, {}⟩ (branchSet (threeBodies.map fun body => branch false (body.map compile)))
          stateWithX threeCodes s' ∧
        Runs ⟨{}, {}⟩ stateWithX.names (threeBodies.map fun body => branch false (body.map compile))
          stateWithX arms s₁ ∧
        arms.map (fun arm => arm.2.2) = [false, true, false] ∧
        Published stateWithX.names s'.names arms threeCodes written merged outside := by
  have hroot : (Node.ofKind (.module [writeTrue "x"])).Everywhere WellNamed := by decide
  have hbodies : ∀ body ∈ threeBodies, ∀ n ∈ body, n.Everywhere WellNamed := by decide
  have htidy : Tidy True ⟨{}, {}⟩ stateWithX := by
    have hmakes : (namesOnly True ⟨{}, {}⟩).Makes (compile (writeTrue "x")) (compile (writeTrue "x")) :=
      makes_compile_self _ (namesOnly_grants (fun _ => hroot.child mem_cons_self) []) nofun
    refine ((hmakes.stmt _).post ⟨tidy_start, False.elim⟩ (a := [assignId "x" (.literal (.bool true))]) ?_).1
    rfl
  let s' : State :=
    { ids := { versions := [("x", 3), ("y", 3)] }
      names := { versions := [("x", ["x$2", "x"]), ("y", ["y$2", "y$1"])] }
      frames := [{ hoisted := ["x", "x$1", "y", "x$2", "y$1", "y$2"] }] }
  have hemits : Emits ⟨{}, {}⟩ (branchSet (threeBodies.map fun body => branch false (body.map compile)))
      stateWithX threeCodes s' := by
    rfl
  obtain ⟨arms, s₁, written, merged, outside, hruns, hreturns, hpublished⟩ :=
    (branchSet_publishes ⟨{}, {}⟩ _ hroot).2 stateWithX htidy false threeBodies _ s' hbodies hemits
  exact ⟨hroot, htidy, s', arms, s₁, written, merged, outside, hemits, hruns, hreturns, hpublished⟩

end Motif.Emit
