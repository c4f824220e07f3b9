import Motif.Proofs.Async.Stands

/-!
# Awaiting a collection as a whole

Whatever is awaited is stood for by a continuation, and by a group if it is a collection. This is shown by
following the awaiting itself, item by item; from then on it is kept by every move. So the continuation of
a collection has an outcome when it is time to, and the right one (`awaitAll_gathered`).
-/

namespace Motif.Async

open List

variable {κ ρ σ : Type} {client : Client κ ρ σ} {s s' : Scene κ ρ σ} {m : Move κ ρ}
  {moves : List (Move κ ρ)} {a : List (Work κ ρ σ)} {w w₀ w₁ : World κ ρ σ}
  {group target index c : Nat} {children : List Nat} {item : Awaitable} {items : List Awaitable}

/-! ## Frames of awaiting -/

theorem Grown.frame (h : Grown a w w₁) :
    Frame (· < w.groups.length) (· < w.continuations.length) ⟨a, w⟩ ⟨a, w₁⟩ := by
  refine (h.effect (m := .noted)).frame (fun _ => id) (fun _ => id) (fun _ _ _ _ => nofun) ?_
  intro c outcome hc hsettles
  cases hsettles with
  | fresh hle => exact Nat.not_lt.mpr hle hc

theorem frame_register (h : w.queue.InBounds) (c group index : Nat) :
    Frame (· ≠ group) (fun _ => True) ⟨a, w⟩ ⟨a, ((onSettled c (.slot group index)).run w).2⟩ := by
  have ht := touches_onSettled (a := a) h c (.slot group index)
  obtain ⟨xs, hpath, hxs⟩ := ht.path
  refine ⟨⟨xs, hpath, ?_, ?_⟩, Nat.le_of_eq (congrArg List.length ht.groups.symm), ?_, ?_⟩
  · intro x hx group' index' hne hconcerns
    obtain rfl := hxs x hx
    cases hconcerns
    exact hne rfl
  · intro d outcome _ hmem
    cases hxs _ hmem
  · intro group' _
    show ((onSettled c _).run w).2.groups[group']? = _
    rw [ht.groups]
  · intro d x _ hx
    cases x with
    | group group' =>
      obtain ⟨g, hg, htarget⟩ := hx
      exact ⟨g, ht.groups ▸ hg, htarget⟩
    | coroutine i =>
      obtain ⟨co, hco, hdone⟩ := hx
      exact ⟨co, ht.coroutines ▸ hco, hdone⟩
    | race =>
      rcases hpath.mem_callbacks hx with hmem | ⟨_, hregister⟩
      · exact hmem
      · cases hxs _ hregister

theorem frame_awaitItems (h : w.queue.InBounds) (group index : Nat) (items : List Awaitable) :
    Frame (fun group' => group' < w.groups.length ∧ group' ≠ group) (· < w.continuations.length) ⟨a, w⟩
      ⟨a, ((awaitItems group index items).run w).2⟩ := by
  induction items generalizing index w with
  | nil => exact .refl _ _ _
  | cons item rest ih =>
    have hgrown : Grown a w ((awaitValue item).run w).2 := grown_awaitValue item h
    have ht := touches_onSettled (a := a) hgrown.inBounds ((awaitValue item).run w).1 (.slot group index)
    have hregister := frame_register (a := a) hgrown.inBounds ((awaitValue item).run w).1 group index
    refine ((hgrown.frame.mono ?_ fun _ => id).trans (hregister.mono ?_ fun _ _ => trivial)).trans
      ((ih ht.inBounds (index + 1)).mono ?_ ?_)
    · exact fun _ hgroup' => hgroup'.1
    · exact fun _ hgroup' => hgroup'.2
    · intro group' hgroup'
      refine ⟨Nat.lt_of_lt_of_le hgroup'.1 ?_, hgroup'.2⟩
      rw [ht.groups]
      exact hgrown.groups_le
    · intro d hd
      exact Nat.lt_of_lt_of_le hd (Nat.le_trans hgrown.length_le ht.length_le)

/-! ## A group is set up -/

/-- A group whose places are given to children one after the other. -/
structure Collects (s : Scene κ ρ σ) (group target size : Nat) (children : List Nat) : Prop where
  exclusive : Exclusive s target (.group group)
  record : s.world.groups[group]? = some { target, slots := List.replicate size none, remaining := size }
  unsettled : s.world.outcome? target = none
  places : ∀ index, .slot group index ∈ s.ledger.callbacks → index < children.length
  due : ∀ {index c : Nat}, children[index]? = some c → s.ledger.Due c (.slot group index)

variable {size : Nat}

theorem Collects.frame (h : Collects s group target size children)
    (hf : Frame (· = group) (· = target) s s') : Collects s' group target size children := by
  obtain ⟨xs, hpath, hconcerns, hsettle⟩ := hf.path
  have hconcerns : ∀ index, ∀ x ∈ xs, ¬ x.Concerns (.slot group index) :=
    fun index x hx => hconcerns x hx group index rfl
  refine ⟨⟨?_, ?_⟩, (hf.group group rfl).trans h.record, ?_, ?_, ?_⟩
  · exact Nat.lt_of_lt_of_le h.exclusive.lt hpath.length_le
  · exact fun x hx => h.exclusive.only x (hf.settledBy _ x rfl hx)
  · exact (hpath.outcome?_eq h.exclusive.lt fun outcome => hsettle _ outcome rfl).trans h.unsettled
  · intro index hmem
    rcases hpath.mem_callbacks hmem with hmem | ⟨d, hregister⟩
    · exact h.places index hmem
    · exact absurd rfl (hconcerns index _ hregister)
  · exact fun hc => hpath.due (h.due hc) (hconcerns _)

theorem Collects.register (h : Collects ⟨a, w⟩ group target size children) (hbounds : w.queue.InBounds)
    (hlt : c < w.continuations.length) :
    Collects ⟨a, ((onSettled c (.slot group children.length)).run w).2⟩ group target size
      (children ++ [c]) := by
  have ht := touches_onSettled (a := a) hbounds c (.slot group children.length)
  have hstep := step_onSettled (a := a) hbounds hlt (.slot group children.length)
  have hf := frame_register (a := a) hbounds c group children.length
  refine ⟨⟨?_, ?_⟩, ?_, ?_, ?_, ?_⟩
  · exact Nat.lt_of_lt_of_le h.exclusive.lt ht.length_le
  · exact fun x hx => h.exclusive.only x (hf.settledBy _ x trivial hx)
  · exact ht.groups ▸ h.record
  · exact (hstep.outcome?_eq h.exclusive.lt fun _ => nofun).trans h.unsettled
  · intro index hmem
    rw [length_append, length_singleton]
    rcases hstep.path.mem_callbacks hmem with hmem | ⟨d, hregister⟩
    · exact Nat.lt_succ_of_lt (h.places index hmem)
    · cases mem_singleton.mp hregister
      exact Nat.lt_succ_self _
  · intro index d hd
    rcases getElem?_concat_eq_some hd with hold | ⟨rfl, rfl⟩
    · refine hstep.path.due (h.due hold) (forall_mem_singleton.mpr fun hconcerns => ?_)
      cases hconcerns
      exact Nat.lt_irrefl _ (lt_of_getElem? hold)
    · refine hstep.due_register (Ledger.copies_eq_zero.mpr fun hmem => ?_)
      exact Nat.lt_irrefl _ (h.places _ hmem)

theorem Collects.gathers (h : Collects s group target children.length children)
    (hpos : 0 < children.length) : Gathers s group target children := by
  refine ⟨h.exclusive, h.places, _, h.record, rfl, .inl ⟨?_, fun hc => ⟨none, ?_, .due (h.due hc)⟩, ?_, hpos,
    .inl h.unsettled⟩⟩
  · exact length_replicate
  · rw [getElem?_replicate, if_pos (lt_of_getElem? hc)]
  · rw [countP_replicate]
    rfl

theorem collects_new (hs : Sound ⟨a, w⟩) (size : Nat) :
    Collects ⟨a, ((newGroup w.continuations.length size).run (newContinuation.run w).2).2⟩
      w.groups.length w.continuations.length size [] := by
  have hcallbacks {callback : Callback κ} (hmem : callback ∈ (Scene.ledger ⟨a,
      ((newGroup w.continuations.length size).run (newContinuation.run w).2).2⟩).callbacks) :
      callback ∈ (Scene.ledger ⟨a, w⟩).callbacks := by
    have hstep : Ledger.Step (Scene.ledger ⟨a, w⟩) (.add none) (Scene.ledger ⟨a,
        ((newGroup w.continuations.length size).run (newContinuation.run w).2).2⟩) := .add
    exact hstep.perm_callbacks.mem_iff.mp hmem
  have hnobody (x : Settler) := hs.not_settledBy (Nat.le_refl _) x
  refine ⟨⟨?_, ?_⟩, ?_, ?_, ?_, ?_⟩
  · exact lt_newContinuation w
  · intro x hx
    cases x with
    | group group =>
      obtain ⟨g, hg, htarget⟩ := hx
      rcases getElem?_concat_eq_some hg with hold | ⟨rfl, -⟩
      · exact absurd ⟨g, hold, htarget⟩ (hnobody (.group group))
      · rfl
    | race => exact absurd (hcallbacks hx) (hnobody .race)
    | coroutine i => exact absurd hx (hnobody (.coroutine i))
  · exact getElem?_concat_length
  · exact outcome?_newContinuation w
  · exact fun index hmem => absurd (hs.callbacks _ (hcallbacks hmem)) (Nat.lt_irrefl _)
  · exact fun hc => nomatch hc

abbrev NewGroup (w w' : World κ ρ σ) (group : Nat) : Prop :=
  w.groups.length ≤ group ∧ group < w'.groups.length

/-- The continuation has been made between the two worlds. -/
abbrev NewContinuation (w w' : World κ ρ σ) (c : Nat) : Prop :=
  w.continuations.length ≤ c ∧ c < w'.continuations.length

theorem lt_of_outcome? {outcome : Outcome} (h : w.outcome? c = some outcome) : c < w.continuations.length := by
  obtain ⟨k, hk, -⟩ := Option.bind_eq_some_iff.mp h
  exact lt_of_getElem? hk

theorem Stands.lt {G C : Nat → Prop} (h : Stands G C s item c)
    (hleaves : ∀ leaf ∈ item.leaves, leaf < s.world.continuations.length) :
    c < s.world.continuations.length := by
  cases h with
  | ready h | empty h => exact lt_of_outcome? h
  | pending => exact hleaves _ (mem_singleton.mpr rfl)
  | many _ _ hgathers => exact hgathers.exclusive.lt

abbrev withGroup (w : World κ ρ σ) (items : List Awaitable) : World κ ρ σ :=
  ((newGroup w.continuations.length items.length).run (newContinuation.run w).2).2

theorem gathers_of_collects {w' : World κ ρ σ} (hne : items ≠ []) (hgrown : Grown a w (withGroup w items))
    (h : ∃ more : List Nat, more.length = items.length ∧
      Collects ⟨a, w'⟩ w.groups.length w.continuations.length items.length ([] ++ more) ∧
      ∀ {index : Nat} {item : Awaitable} {d : Nat}, items[index]? = some item → more[index]? = some d →
        Stands (NewGroup (withGroup w items) w') (NewContinuation (withGroup w items) w') ⟨a, w'⟩ item d) :
    ∃ children : List Nat, Gathers ⟨a, w'⟩ w.groups.length w.continuations.length children ∧
      w'.outcome? w.continuations.length = none ∧ items.length = children.length ∧
      ∀ {index : Nat} {item : Awaitable} {d : Nat}, items[index]? = some item → children[index]? = some d →
        Stands (NewGroup w w') (NewContinuation w w') ⟨a, w'⟩ item d := by
  obtain ⟨children, hlength, hcollects, hstands⟩ := h
  rw [nil_append, ← hlength] at hcollects
  have hpos : 0 < children.length := hlength ▸ length_pos_iff.mpr hne
  refine ⟨children, hcollects.gathers hpos, hcollects.unsettled, hlength.symm,
    fun hitem hd => (hstands hitem hd).mono ?_ ?_⟩
  · exact fun _ hgroup => ⟨Nat.le_trans hgrown.groups_le hgroup.1, hgroup.2⟩
  · exact fun _ hc => ⟨Nat.le_trans hgrown.length_le hc.1, hc.2⟩

theorem Stands.awaitRest {w₂ : World κ ρ σ} {index' : Nat}
    (h : Stands (NewGroup w w₁) (NewContinuation w w₁) ⟨a, w₁⟩ item c) (hbounds : w₁.queue.InBounds)
    (hgroup : group < w.groups.length) (hw₂ : ((onSettled c (.slot group index)).run w₁).2 = w₂)
    (rest : List Awaitable) : Stands (NewGroup w ((awaitItems group index' rest).run w₂).2)
      (NewContinuation w ((awaitItems group index' rest).run w₂).2)
      ⟨a, ((awaitItems group index' rest).run w₂).2⟩ item c := by
  have ht := touches_onSettled (a := a) hbounds c (.slot group index)
  have hregister := frame_register (a := a) hbounds c group index
  rw [hw₂] at ht hregister
  have hrest := frame_awaitItems (a := a) ht.inBounds group index' rest
  have hgroups : w₂.groups.length = w₁.groups.length := congrArg List.length ht.groups
  -- its groups are newer than the one that it gets a place in
  have hnew {group' : Nat} (h : NewGroup w w₁ group') : group' ≠ group := by
    rintro rfl
    exact absurd hgroup (Nat.not_lt.mpr h.1)
  have h₂ : Stands (NewGroup w w₁) (NewContinuation w w₁) ⟨a, w₂⟩ item c :=
    h.frame (hregister.mono (fun _ => hnew) fun _ _ => trivial)
  refine (h₂.frame (hrest.mono ?_ ?_)).mono ?_ ?_
  · intro group' h
    exact ⟨hgroups ▸ h.2, hnew h⟩
  · intro d h
    exact Nat.lt_of_lt_of_le h.2 ht.length_le
  · intro group' h
    exact ⟨h.1, Nat.lt_of_lt_of_le (hgroups ▸ h.2) hrest.groups_le⟩
  · intro d h
    exact ⟨h.1, Nat.lt_of_lt_of_le h.2 (Nat.le_trans ht.length_le hrest.continuations_le)⟩

mutual

theorem stands_awaitValue : ∀ (item : Awaitable) {w : World κ ρ σ}, Sound ⟨a, w⟩ →
    (∀ leaf ∈ item.leaves, leaf < w.continuations.length) →
    Stands (NewGroup w ((awaitValue item).run w).2) (NewContinuation w ((awaitValue item).run w).2)
      ⟨a, ((awaitValue item).run w).2⟩ item ((awaitValue item).run w).1
  | .ready v, w, _, _ => by
    refine .ready ?_
    show (w.continuations ++ [_])[w.continuations.length]?.bind _ = _
    rw [getElem?_concat_length]
    rfl
  | .pending c, w, _, _ => .pending
  | .many [], w, _, _ => by
    refine .empty ?_
    refine (outcome?_settle (lt_newContinuation w) _).trans ?_
    rw [outcome?_newContinuation, Option.none_or]
  | .many (item :: rest), w, hs, hleaves => by
    have hnew : Grown a w (withGroup w (item :: rest)) := grown_new hs.inBounds _
    have hall : Grown a w ((awaitValue (.many (item :: rest))).run w).2 := grown_awaitValue _ hs.inBounds
    obtain ⟨children, hgathers, -, hlength, hstands⟩ :=
      gathers_of_collects (cons_ne_nil item rest) hnew
        (stands_awaitItems (item :: rest) hs hnew (Nat.le_refl _) (collects_new hs _)
          fun leaf hleaf => Nat.lt_of_lt_of_le (hleaves leaf hleaf) hnew.length_le)
    obtain ⟨g, hg, -⟩ := hgathers.record
    refine .many ⟨Nat.le_refl _, ?_⟩ ⟨Nat.le_refl _, hgathers.exclusive.lt⟩ hgathers hlength hstands
    exact lt_of_getElem? hg

theorem stands_awaitItems : ∀ (items : List Awaitable) {w₀ w : World κ ρ σ} {group target size : Nat}
    {children : List Nat}, Sound ⟨a, w₀⟩ → Grown a w₀ w → w₀.groups.length ≤ group →
    Collects ⟨a, w⟩ group target size children → (∀ leaf ∈ leavesOf items, leaf < w.continuations.length) →
    ∃ more, more.length = items.length ∧
      Collects ⟨a, ((awaitItems group children.length items).run w).2⟩ group target size (children ++ more) ∧
      ∀ {index : Nat} {item : Awaitable} {d : Nat}, items[index]? = some item → more[index]? = some d →
        Stands (NewGroup w ((awaitItems group children.length items).run w).2)
          (NewContinuation w ((awaitItems group children.length items).run w).2)
          ⟨a, ((awaitItems group children.length items).run w).2⟩ item d
  | [], w₀, w, group, target, size, children, _, _, _, hcollects, _ => by
    refine ⟨[], rfl, ?_, fun hitem => nomatch hitem⟩
    rw [append_nil]
    exact hcollects
  | item :: rest, w₀, w, group, target, size, children, hs, hgrown, hgroup, hcollects, hleaves => by
    have hleaves := forall_mem_append.mp hleaves
    have hgroup' := (List.getElem?_eq_some_iff.mp hcollects.record).1
    -- the item
    obtain ⟨c, w₁, hawait⟩ : ∃ c w₁, (awaitValue item).run w = (c, w₁) := ⟨_, _, rfl⟩
    have hvalue : Grown a w w₁ := by
      have := grown_awaitValue (a := a) item hgrown.inBounds
      rwa [hawait] at this
    have hitem : Stands (NewGroup w w₁) (NewContinuation w w₁) ⟨a, w₁⟩ item c := by
      have := stands_awaitValue item (hs.grown hgrown) hleaves.1
      rwa [hawait] at this
    have hc : c < w₁.continuations.length :=
      hitem.lt fun leaf hleaf => Nat.lt_of_lt_of_le (hleaves.1 leaf hleaf) hvalue.length_le
    -- its place
    have hcollects₁ : Collects ⟨a, w₁⟩ group target size children := by
      refine hcollects.frame (hvalue.frame.mono ?_ ?_)
      · rintro _ rfl
        exact hgroup'
      · rintro _ rfl
        exact hcollects.exclusive.lt
    obtain ⟨w₂, hregister⟩ : ∃ w₂, ((onSettled c (.slot group children.length)).run w₁).2 = w₂ := ⟨_, rfl⟩
    have ht := touches_onSettled (a := a) hvalue.inBounds c (.slot group children.length)
    have hcollects₂ := hcollects₁.register hvalue.inBounds hc
    rw [hregister] at ht hcollects₂
    -- the rest
    have hgrown₂ : Grown a w₀ w₂ := by
      refine (hgrown.trans hvalue).touch ht ?_
      rintro x rfl
      exact ⟨hgroup, (List.getElem?_eq_some_iff.mp hcollects₂.record).1⟩
    have hle : w.continuations.length ≤ w₂.continuations.length := Nat.le_trans hvalue.length_le ht.length_le
    have hgroups : w.groups.length ≤ w₂.groups.length := by
      rw [ht.groups]
      exact hvalue.groups_le
    obtain ⟨more, hlength, hcollects', hstands⟩ := stands_awaitItems rest hs hgrown₂ hgroup hcollects₂
      fun leaf hleaf => Nat.lt_of_lt_of_le (hleaves.2 leaf hleaf) hle
    have hrun : ((awaitItems group children.length (item :: rest)).run w).2 =
        ((awaitItems group (children ++ [c]).length rest).run w₂).2 := by
      rw [awaitItems, StateT.run_bind, hawait, length_append, ← hregister]
      rfl
    rw [hrun]
    refine ⟨c :: more, congrArg Nat.succ hlength, ?_, ?_⟩
    · rw [← append_cons] at hcollects'
      exact hcollects'
    · intro index item' d hitem' hd
      cases index with
      | zero =>
        cases hitem'
        cases hd
        exact hitem.awaitRest hvalue.inBounds hgroup' hregister rest
      | succ index =>
        refine (hstands hitem' hd).mono ?_ ?_
        · exact fun _ hnew => ⟨Nat.le_trans hgroups hnew.1, hnew.2⟩
        · exact fun _ hnew => ⟨Nat.le_trans hle hnew.1, hnew.2⟩

end

theorem fst_awaitMany (items : List Awaitable) (w : World κ ρ σ) :
    ((awaitValue (.many items)).run w).1 = w.continuations.length := by
  cases items <;> rfl

theorem gathers_awaitMany (hs : Sound ⟨a, w⟩) (hne : items ≠ [])
    (hleaves : ∀ leaf ∈ leavesOf items, leaf < w.continuations.length) : ∃ children : List Nat,
      Gathers ⟨a, ((awaitValue (.many items)).run w).2⟩ w.groups.length w.continuations.length children ∧
      ((awaitValue (.many items)).run w).2.outcome? w.continuations.length = none ∧
      items.length = children.length ∧
      ∀ {index : Nat} {item : Awaitable} {d : Nat}, items[index]? = some item → children[index]? = some d →
        Stands (NewGroup w ((awaitValue (.many items)).run w).2)
          (NewContinuation w ((awaitValue (.many items)).run w).2)
          ⟨a, ((awaitValue (.many items)).run w).2⟩ item d := by
  cases items with
  | nil => exact absurd rfl hne
  | cons item rest =>
    have hnew : Grown a w (withGroup w (item :: rest)) := grown_new hs.inBounds _
    exact gathers_of_collects hne hnew
      (stands_awaitItems (item :: rest) hs hnew (Nat.le_refl _) (collects_new hs _)
        fun leaf hleaf => Nat.lt_of_lt_of_le (hleaves leaf hleaf) hnew.length_le)

/-! ## The first failure -/

/-- The failure that one of the places of a group is told by a move, and the place. -/
def Move.failure? (group : Nat) : Move κ ρ → Option (Nat × Failure)
  | .ran (.notify (.slot group' index) (.error e)) => if group' = group then some (index, e) else none
  | _ => none

theorem Move.eq_of_failure? {e : Failure} (h : m.failure? group = some (index, e)) :
    m = .ran (.notify (.slot group index) (.error e)) := by
  unfold Move.failure? at h
  split at h
  · obtain ⟨rfl, heq⟩ := (Option.ite_none_right_eq_some ..).mp h
    cases heq
    rfl
  · cases h

structure FirstFailure (group target : Nat) (children : List Nat) (moves : List (Move κ ρ))
    (s : Scene κ ρ σ) : Prop where
  none : s.world.outcome? target = none → moves.findSome? (Move.failure? group) = none
  first : ∀ {e}, s.world.outcome? target = some (.error e) → ∃ index c,
    moves.findSome? (Move.failure? group) = some (index, e) ∧ children[index]? = some c ∧
      s.world.outcome? c = some (.error e)

theorem Gathers.not_fails {v : Value} {e : Failure} (h : Gathers s group target children) (hs : Sound s)
    (hm : Moves client s (.ran (.notify (.slot group index) (.ok v))) s')
    (hnone : s.world.outcome? target = none) : s'.world.outcome? target ≠ some (.error e) := by
  obtain ⟨g, c, hg, rfl, -⟩ := h.place hs hm
  intro herror
  by_cases hlast : (g.fill index v).remaining = 0
  · rw [(hm.drains hg h.exclusive.lt hlast).2, hnone] at herror
    cases herror
  · rw [(hm.fills hg hlast).2, hnone] at herror
    cases herror

theorem FirstFailure.step (h : FirstFailure group target children moves s) (hs : Sound s)
    (hgathers : Gathers s group target children) (hm : Moves client s m s')
    (hclient : ∀ outcome, m ≠ .called (.settle target outcome)) :
    FirstFailure group target children (moves ++ [m]) s' := by
  have he := hm.effect hs
  have hfind : (moves ++ [m]).findSome? (Move.failure? group) =
      (moves.findSome? (Move.failure? group)).or (m.failure? group) := by
    rw [findSome?_append, findSome?_singleton]
  cases hfailure : m.failure? group with
  | some failure =>
    obtain ⟨index, e⟩ := failure
    obtain rfl := Move.eq_of_failure? hfailure
    obtain ⟨g, c, hg, rfl, -, hc, -, houtcome, -⟩ := hgathers.place hs hm
    have htarget := (hm.fails hg hgathers.exclusive.lt).2
    rw [hfailure] at hfind
    cases hbefore : s.world.outcome? g.target with
    | none =>
      rw [hbefore] at htarget
      rw [h.none hbefore] at hfind
      refine ⟨fun hnone => ?_, fun herror => ?_⟩
      · rw [htarget] at hnone
        cases hnone
      · rw [htarget] at herror
        cases herror
        exact ⟨index, c, hfind, hc, he.outcome?_of_some houtcome⟩
    | some outcome =>
      rw [hbefore] at htarget
      refine ⟨fun hnone => ?_, fun herror => ?_⟩
      · rw [htarget] at hnone
        cases hnone
      · obtain ⟨index', c', hfirst, hc', herror'⟩ := h.first (hbefore.trans (htarget.symm.trans herror))
        rw [hfirst] at hfind
        exact ⟨index', c', hfind, hc', he.outcome?_of_some herror'⟩
  | none =>
    rw [hfailure, Option.or_none] at hfind
    cases hbefore : s.world.outcome? target with
    | none =>
      refine ⟨fun _ => hfind.trans (h.none hbefore), fun {e} herror => ?_⟩
      -- the group alone settles its target, and it has not been told a failure
      have hsettles := he.settles hgathers.exclusive.lt hbefore herror
      rcases hgathers.exclusive.acts hm hsettles with hcalled | ⟨index, outcome, rfl⟩
      · exact absurd hcalled (hclient _)
      · cases outcome with
        | ok v => exact absurd herror (hgathers.not_fails hs hm hbefore)
        | error e' => simp [Move.failure?] at hfailure
    | some outcome =>
      have hafter := he.outcome?_of_some hbefore
      refine ⟨fun hnone => ?_, fun herror => ?_⟩
      · rw [hafter] at hnone
        cases hnone
      · obtain ⟨index, c, hfirst, hc, herror'⟩ := h.first (hbefore.trans (hafter.symm.trans herror))
        exact ⟨index, c, hfind.trans hfirst, hc, he.outcome?_of_some herror'⟩

/-! ## Runs -/

variable {G C : Nat → Prop}

theorem Run.stands (h : Run client s moves s') (hs : Sound s) (hclient : Spared C moves)
    (hstands : Stands G C s item c) : Stands G C s' item c := by
  induction h with
  | refl => exact hstands
  | @snoc moves m s' s'' hrun hm ih =>
    refine (ih (hclient.subset (subset_append_left ..))).step (hrun.sound hs) hm ?_
    rintro d outcome rfl
    exact hclient d outcome mem_concat_self

theorem Run.firstFailure (h : Run client s moves s') (hs : Sound s)
    (hgathers : Gathers s group target children) (hunsettled : s.world.outcome? target = none)
    (hclient : Spared (· = target) moves) :
    Gathers s' group target children ∧ FirstFailure group target children moves s' := by
  induction h with
  | refl =>
    refine ⟨hgathers, fun _ => rfl, fun herror => ?_⟩
    rw [hunsettled] at herror
    cases herror
  | @snoc moves m s' s'' hrun hm ih =>
    obtain ⟨hgathers', hfirst⟩ := ih (hclient.subset (subset_append_left ..))
    have hm' := hclient.of_mem mem_concat_self rfl
    have hs' := hrun.sound hs
    exact ⟨hgathers'.step hs' hm hm', hfirst.step hs' hgathers' hm hm'⟩

theorem Run.gathered {s₀ : Scene κ ρ σ} (hs₀ : Sound s₀) (hne : items ≠ [])
    (hleaves : ∀ leaf ∈ leavesOf items, leaf < s₀.world.continuations.length)
    (h : Run client ⟨s₀.agenda, ((awaitValue (.many items)).run s₀.world).2⟩ moves s)
    (hclient : Spared (NewContinuation s₀.world ((awaitValue (.many items)).run s₀.world).2) moves) :
    ∃ children : List Nat, items.length = children.length ∧
      Gathers s s₀.world.groups.length s₀.world.continuations.length children ∧
      FirstFailure s₀.world.groups.length s₀.world.continuations.length children moves s ∧
      ∀ {index : Nat} {item : Awaitable} {d : Nat}, items[index]? = some item → children[index]? = some d →
        Stands (NewGroup s₀.world ((awaitValue (.many items)).run s₀.world).2)
          (NewContinuation s₀.world ((awaitValue (.many items)).run s₀.world).2) s item d := by
  have hs₁ := hs₀.grown (grown_awaitValue (.many items) hs₀.inBounds)
  obtain ⟨children, hgathers, hnone, hlength, hchildren⟩ := gathers_awaitMany hs₀ hne hleaves
  have htarget := hgathers.exclusive.lt
  have hspared : Spared (· = s₀.world.continuations.length) moves := by
    rintro _ outcome hmem rfl
    exact hclient _ outcome hmem ⟨Nat.le_refl _, htarget⟩
  obtain ⟨hgathers', hfirst⟩ := h.firstFailure hs₁ hgathers hnone hspared
  refine ⟨children, hlength, hgathers', hfirst, fun hitem hd => ?_⟩
  exact h.stands hs₁ hclient (hchildren hitem hd)

/-! ## All of a collection -/

/-- What is to be said of a collection that is awaited as a whole, by means of a group and its target, after
    some moves. -/
structure Gathered (client : Client κ ρ σ) (items : List Awaitable) (group target : Nat)
    (moves : List (Move κ ρ)) (s : Scene κ ρ σ) : Prop where
  /-- As long as something is not settled and nothing has failed, the target is not settled. -/
  unsettled : (∃ c ∈ leavesOf items, s.world.outcome? c = none) →
    (∀ c ∈ leavesOf items, ∀ e, s.world.outcome? c ≠ some (.error e)) → s.world.outcome? target = none
  /-- In the end it has the array of all values, in order. -/
  resolved : s.Idle → (∀ c ∈ leavesOf items, ∃ v, s.world.outcome? c = some (.ok v)) →
    ∃ values, valuesOf? s.world items = some values ∧ s.world.outcome? target = some (.ok (.array values))
  /-- Or it has a failure, if there is one. -/
  rejected : s.Idle → (∃ c ∈ leavesOf items, ∃ e, s.world.outcome? c = some (.error e)) →
    ∃ c ∈ leavesOf items, ∃ e, s.world.outcome? c = some (.error e) ∧
      s.world.outcome? target = some (.error e)
  /-- That failure is the one that the group was told first. It comes from the item of that place. -/
  first : ∀ e, s.world.outcome? target = some (.error e) → ∃ index item,
    moves.findSome? (Move.failure? group) = some (index, e) ∧ items[index]? = some item ∧
      ∃ c ∈ item.leaves, s.world.outcome? c = some (.error e)
  /-- It is settled once: to settle it again fails and does nothing, and its outcome stays. -/
  once : ∀ outcome, s.world.outcome? target = some outcome →
    (∀ again, (settle target again).run s.world = (.error .alreadySettled, s.world)) ∧
      ∀ moves' s', Run client s moves' s' → s'.world.outcome? target = some outcome
  /-- A place of the group that is told has not been told before, and the group has not been drained. -/
  room : items ≠ [] → ∀ index outcome s', Moves client s (.ran (.notify (.slot group index) outcome)) s' →
    ∃ g, s.world.groups[group]? = some g ∧ g.slots[index]? = some none ∧ 0 < g.remaining

/-- What is said of all of a collection, wherever it is awaited, and whatever happens before and after:
    client code may do what it likes, ticks inside of ticks included, but settle the continuations that have
    been made for the collection. -/
theorem awaitAll_gathered {batchSize : Nat} {own : σ} {before after : List (Move κ ρ)}
    {s₀ s : Scene κ ρ σ} {items : List Awaitable} (hbefore : Run client (.start batchSize own) before s₀)
    (hleaves : ∀ c ∈ leavesOf items, c < s₀.world.continuations.length)
    (hafter : Run client ⟨s₀.agenda, ((awaitValue (.many items)).run s₀.world).2⟩ after s)
    (hclient : Spared (NewContinuation s₀.world ((awaitValue (.many items)).run s₀.world).2) after) :
    client.TicksRun ∧ Gathered client items s₀.world.groups.length
      ((awaitValue (.many items)).run s₀.world).1 after s := by
  have hs₀ : Sound s₀ := hbefore.sound (sound_start batchSize own)
  have hs₁ : Sound ⟨s₀.agenda, ((awaitValue (.many items)).run s₀.world).2⟩ :=
    hs₀.grown (grown_awaitValue (.many items) hs₀.inBounds)
  have hs := hafter.sound hs₁
  have hstands := hafter.stands hs₁ hclient (stands_awaitValue (.many items) hs₀ hleaves)
  have hgroup (hne : items ≠ []) := hafter.gathered hs₀ hne hleaves hclient
  rw [fst_awaitMany] at hstands ⊢
  refine ⟨ticksRun client, ?_, ?_, ?_, ?_, ?_, ?_⟩
  · rintro ⟨c, hc, hnone⟩ hfailed
    cases houtcome : s.world.outcome? s₀.world.continuations.length with
    | none => rfl
    | some outcome =>
      cases outcome with
      | error e =>
        obtain ⟨leaf, hleaf, hrejected⟩ := hstands.failure houtcome
        exact absurd hrejected (hfailed leaf hleaf e)
      | ok v =>
        obtain ⟨v', hok⟩ := resolved_of_value? (.many items) (hstands.value? houtcome) c hc
        rw [hnone] at hok
        cases hok
  · intro hidle hresolved
    obtain ⟨v, hok⟩ := hstands.idle_ok hidle hresolved
    obtain ⟨values, hvalues, rfl⟩ := Option.map_eq_some_iff.mp (hstands.value? hok)
    exact ⟨values, hvalues, hok⟩
  · rintro hidle ⟨c, hc, e, hfailed⟩
    obtain ⟨e', herror⟩ := hstands.idle_error hidle hc hfailed
    obtain ⟨leaf, hleaf, hrejected⟩ := hstands.failure herror
    exact ⟨leaf, hleaf, e', hrejected, herror⟩
  · intro e herror
    obtain ⟨leaf, hleaf, -⟩ := hstands.failure herror
    have hne : items ≠ [] := by
      rintro rfl
      cases hleaf
    obtain ⟨children, hlength, -, hfirst, hchildren⟩ := hgroup hne
    obtain ⟨index, c, hfind, hc, hfailed⟩ := hfirst.first herror
    have hlt : index < items.length := hlength ▸ lt_of_getElem? hc
    have hitem := getElem?_eq_getElem hlt
    exact ⟨index, _, hfind, hitem, (hchildren hitem hc).failure hfailed⟩
  · intro outcome houtcome
    exact hs.settled_once houtcome
  · intro hne index outcome s' hm
    obtain ⟨_, -, hgathers, -⟩ := hgroup hne
    obtain ⟨g, _, hg, -, hopen, -, hslot, -⟩ := hgathers.place hs hm
    exact ⟨g, hg, hslot, hopen.pos⟩

/-- A collection in which a collection stands and the continuation 1 occurs twice. -/
def mixed : List Awaitable := [.pending 1, .ready (.string "b"), .many [.pending 0, .pending 1]]

def mixedAwaited : World Empty Empty Unit :=
  ((awaitValue (.many mixed)).run ((do discard newContinuation; discard newContinuation :
    Act Empty Empty Unit Unit).run (.withBatchSize 2 ())).2).2

def settledLate : Act Empty Empty Unit Unit := do
  discard (settle 1 (.ok (.string "a")))
  discard (tick quiet 1)
  discard (settle 0 (.ok (.string "c")))
  discard (tick quiet 1)
  discard (tick quiet 1)
  discard (tick quiet 1)

theorem awaitAll_gathered_mixed :
    ∃ moves, Run quiet ⟨[], mixedAwaited⟩ moves ⟨[], (settledLate.run mixedAwaited).2⟩ ∧
      Scene.Idle ⟨[], (settledLate.run mixedAwaited).2⟩ ∧
      (settledLate.run mixedAwaited).2.outcome? 2 = some (.ok (.array
        [.string "a", .string "b", .array [.string "c", .string "a"]])) := by
  let manner : Manner Empty Empty Unit :=
    { calls := fun call => ∀ c outcome, call = .settle c outcome → c < 2, nested := True, patience := 1 }
  have htick : Explained quiet manner [] (discard (tick quiet 1)) :=
    (explained_tick (plain_quiet manner) (.inl (Nat.le_refl 1)) (.inl rfl)).bind fun _ => explained_pure _
  have hsettle (c : Nat) (hc : c < 2) (outcome : Outcome) :
      Explained quiet manner [] (discard (settle c outcome)) :=
    explained_call (.settle c outcome) (fun _ _ heq => by cases heq; exact hc) fun _ => rfl
  have hcode : Explained quiet manner [] settledLate :=
    (hsettle 1 (by decide) _).bind fun _ => htick.bind fun _ => (hsettle 0 (by decide) _).bind fun _ =>
      htick.bind fun _ => htick.bind fun _ => htick
  obtain ⟨moves, hrun, hmoves, -⟩ := hcode mixedAwaited
  have hbefore : Run quiet (.start 2 ()) [.called .create, .called .create] ⟨[],
      ((do discard newContinuation; discard newContinuation :
        Act Empty Empty Unit Unit).run (.withBatchSize 2 ())).2⟩ :=
    (Run.refl.snoc (.called .create)).snoc (.called .create)
  obtain ⟨w, hw⟩ : ∃ w, (settledLate.run mixedAwaited).2 = w := ⟨_, rfl⟩
  have hidle : w.pending = 0 := by rw [← hw]; decide +kernel
  have h0 : w.outcome? 0 = some (.ok (.string "c")) := by rw [← hw]; decide +kernel
  have h1 : w.outcome? 1 = some (.ok (.string "a")) := by rw [← hw]; decide +kernel
  rw [hw] at hrun ⊢
  have hgathered := (awaitAll_gathered hbefore (by decide) hrun ?_).2
  · rw [fst_awaitMany] at hgathered
    refine ⟨moves, hrun, ⟨rfl, hidle⟩, ?_⟩
    obtain ⟨values, hvalues, houtcome⟩ := hgathered.resolved ⟨rfl, hidle⟩ (by
      refine forall_mem_cons.mpr ⟨⟨_, h1⟩, forall_mem_cons.mpr ⟨⟨_, h0⟩, ?_⟩⟩
      exact forall_mem_singleton.mpr ⟨_, h1⟩)
    have heq : valuesOf? w mixed =
        some [.string "a", .string "b", .array [.string "c", .string "a"]] := by
      simp [mixed, valuesOf?, Awaitable.value?, h0, h1, Except.toOption]
    cases heq.symm.trans hvalues
    exact houtcome
  · intro c outcome hmem hnew
    exact absurd (hmoves _ hmem c outcome rfl) (Nat.not_lt.mpr hnew.1)

end Motif.Async
