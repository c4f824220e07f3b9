import Motif.Proofs.Async.Sound

/-!
# Groups

A group gathers the values of its children. In every scene of a run it is open, and each of its places
stands for a child of which it is still to be told, or has been told; or it has been drained, and its target
has the array of the values.
-/

namespace Motif.Async

open List

variable {κ ρ σ : Type} {client : Client κ ρ σ} {s s' s'' : Scene κ ρ σ} {m : Move κ ρ}
  {group target index c : Nat} {children : List Nat} {outcome : Outcome} {slot : Option Value}

/-- How a place of a group stands to the child that it is for. -/
inductive Standing (s : Scene κ ρ σ) (group target index c : Nat) : Option Value → Prop
  | due (h : s.ledger.Due c (.slot group index)) : Standing s group target index c none
  | resolved {v} (hc : s.world.outcome? c = some (.ok v))
    (hgone : s.ledger.copies (.slot group index) = 0) : Standing s group target index c (some v)
  | rejected {e outcome} (hc : s.world.outcome? c = some (.error e))
    (hgone : s.ledger.copies (.slot group index) = 0)
    (htarget : s.world.outcome? target = some outcome) : Standing s group target index c none

structure Open (s : Scene κ ρ σ) (group : Nat) (g : Group) (children : List Nat) : Prop where
  length : g.slots.length = children.length
  standing : ∀ {index c : Nat}, children[index]? = some c →
    ∃ slot, g.slots[index]? = some slot ∧ Standing s group g.target index c slot
  remaining : g.remaining = g.slots.countP Option.isNone
  pos : 0 < g.remaining
  target : s.world.outcome? g.target = none ∨ ∃ c ∈ children, ∃ e,
    s.world.outcome? c = some (.error e) ∧ s.world.outcome? g.target = some (.error e)

structure Drained (s : Scene κ ρ σ) (group : Nat) (g : Group) (children : List Nat) : Prop where
  values : ∃ values : List Value, values.length = children.length ∧
    s.world.outcome? g.target = some (.ok (.array values)) ∧
    ∀ index c : Nat, children[index]? = some c →
      ∃ v, values[index]? = some v ∧ s.world.outcome? c = some (.ok v)
  gone : ∀ index, s.ledger.copies (.slot group index) = 0

/-- A group settles a continuation with the values of children. -/
structure Gathers (s : Scene κ ρ σ) (group target : Nat) (children : List Nat) : Prop where
  exclusive : Exclusive s target (.group group)
  places : ∀ index, .slot group index ∈ s.ledger.callbacks → index < children.length
  record : ∃ g, s.world.groups[group]? = some g ∧ g.target = target ∧
    (Open s group g children ∨ Drained s group g children)

/-! ## What leaves a group alone -/

/-- Changes by which no place of the groups `G` is concerned and none of the continuations `C` settled. -/
structure Frame (G C : Nat → Prop) (s s' : Scene κ ρ σ) : Prop where
  path : ∃ xs, Ledger.Path s.ledger xs s'.ledger ∧
    (∀ x ∈ xs, ∀ group index, G group → ¬ x.Concerns (.slot group index)) ∧
    ∀ c outcome, C c → .settle c outcome ∉ xs
  groups_le : s.world.groups.length ≤ s'.world.groups.length
  group : ∀ group, G group → s'.world.groups[group]? = s.world.groups[group]?
  settledBy : ∀ c x, C c → s'.SettledBy c x → s.SettledBy c x

variable {G C G' C' : Nat → Prop}

theorem Frame.refl (G C : Nat → Prop) (s : Scene κ ρ σ) : Frame G C s s where
  path := ⟨[], .nil _, forall_mem_nil _, fun _ _ _ => not_mem_nil⟩
  groups_le := Nat.le_refl _
  group _ _ := rfl
  settledBy _ _ _ := id

theorem Frame.continuations_le (h : Frame G C s s') :
    s.world.continuations.length ≤ s'.world.continuations.length := by
  obtain ⟨xs, hpath, -⟩ := h.path
  exact hpath.length_le

theorem Frame.mono (h : Frame G C s s') (hG : ∀ group, G' group → G group) (hC : ∀ c, C' c → C c) :
    Frame G' C' s s' := by
  obtain ⟨xs, hpath, hconcerns, hsettle⟩ := h.path
  refine ⟨⟨xs, hpath, ?_, fun c outcome hc => hsettle c outcome (hC c hc)⟩, h.groups_le, ?_, ?_⟩
  · exact fun x hx group index hgroup => hconcerns x hx group index (hG group hgroup)
  · exact fun group hgroup => h.group group (hG group hgroup)
  · exact fun c x hc => h.settledBy c x (hC c hc)

theorem Frame.trans (h : Frame G C s s') (h' : Frame G C s' s'') : Frame G C s s'' := by
  obtain ⟨xs, hpath, hconcerns, hsettle⟩ := h.path
  obtain ⟨ys, hpath', hconcerns', hsettle'⟩ := h'.path
  refine ⟨⟨xs ++ ys, hpath.append hpath', ?_, ?_⟩, Nat.le_trans h.groups_le h'.groups_le, ?_, ?_⟩
  · exact forall_mem_append.mpr ⟨hconcerns, hconcerns'⟩
  · intro c outcome hc hmem
    rcases mem_append.mp hmem with hmem | hmem
    · exact hsettle c outcome hc hmem
    · exact hsettle' c outcome hc hmem
  · exact fun group hgroup => (h'.group group hgroup).trans (h.group group hgroup)
  · exact fun c x hc hx => h.settledBy c x hc (h'.settledBy c x hc hx)

theorem Permitted.concerns_slot {x : Change κ} (h : Permitted s m s' x)
    (hlt : group < s.world.groups.length) (hx : x.Concerns (.slot group index)) :
    ∃ outcome, m = .ran (.notify (.slot group index) outcome) := by
  rcases h.concerns hx hlt with hran | ⟨_, hlabel⟩ | ⟨_, _, _, hresume, -⟩
  · exact hran
  · cases hlabel
  · cases hresume

theorem Effect.frame (h : Effect s m s') (hG : ∀ group, G group → group < s.world.groups.length)
    (hC : ∀ c, C c → c < s.world.continuations.length)
    (hslot : ∀ group index outcome, G group → m ≠ .ran (.notify (.slot group index) outcome))
    (hsettle : ∀ c outcome, C c → ¬ Settles s m c outcome) : Frame G C s s' := by
  obtain ⟨xs, hpath, hxs⟩ := h.path
  refine ⟨⟨xs, hpath, ?_, ?_⟩, h.groups_le, ?_, ?_⟩
  · intro x hx group index hgroup hconcerns
    obtain ⟨outcome, hm⟩ := (hxs x hx).concerns_slot (hG group hgroup) hconcerns
    exact hslot group index outcome hgroup hm
  · exact fun c outcome hc hmem => hsettle c outcome hc (hxs _ hmem)
  · intro group hgroup
    have hg := getElem?_eq_getElem (hG group hgroup)
    obtain ⟨g', hg', -, heq | ⟨index, v, hm⟩⟩ := h.group hg
    · rw [hg', heq, hg]
    · exact absurd hm (hslot group index _ hgroup)
  · exact fun c x hc hx => h.settledBy (hC c hc) hx

theorem Standing.along {xs : List (Change κ)} (h : Standing s group target index c slot)
    (hpath : Ledger.Path s.ledger xs s'.ledger) (hxs : ∀ x ∈ xs, ¬ x.Concerns (.slot group index)) :
    Standing s' group target index c slot := by
  cases h with
  | due hdue => exact .due (hpath.due hdue hxs)
  | resolved hc hgone => exact .resolved (hpath.outcome?_of_some hc) ((hpath.copies_eq hxs).trans hgone)
  | rejected hc hgone htarget =>
    exact .rejected (hpath.outcome?_of_some hc) ((hpath.copies_eq hxs).trans hgone)
      (hpath.outcome?_of_some htarget)

theorem Gathers.frame (h : Gathers s group target children) (hf : Frame (· = group) (· = target) s s') :
    Gathers s' group target children := by
  obtain ⟨g, hg, rfl, hphase⟩ := h.record
  obtain ⟨xs, hpath, hconcerns, hsettle⟩ := hf.path
  have hconcerns : ∀ index, ∀ x ∈ xs, ¬ x.Concerns (.slot group index) :=
    fun index x hx => hconcerns x hx group index rfl
  have htarget : s'.world.outcome? g.target = s.world.outcome? g.target :=
    hpath.outcome?_eq h.exclusive.lt fun outcome => hsettle _ outcome rfl
  refine ⟨⟨?_, ?_⟩, ?_, g, (hf.group group rfl).trans hg, rfl, ?_⟩
  · exact Nat.lt_of_lt_of_le h.exclusive.lt hpath.length_le
  · exact fun x hx => h.exclusive.only x (hf.settledBy _ x rfl hx)
  · intro index hmem
    rcases hpath.mem_callbacks hmem with hmem | ⟨d, hregister⟩
    · exact h.places index hmem
    · exact absurd rfl (hconcerns index _ hregister)
  · rcases hphase with hopen | hdrained
    · refine .inl ⟨hopen.length, fun hc => ?_, hopen.remaining, hopen.pos, ?_⟩
      · obtain ⟨slot, hslot, hstanding⟩ := hopen.standing hc
        exact ⟨slot, hslot, hstanding.along hpath (hconcerns _)⟩
      · rw [htarget]
        refine hopen.target.imp_right ?_
        rintro ⟨c, hc, e, he, hte⟩
        exact ⟨c, hc, e, hpath.outcome?_of_some he, hte⟩
    · obtain ⟨values, hlength, hvalues, hchildren⟩ := hdrained.values
      refine .inr ⟨⟨values, hlength, htarget.trans hvalues, fun index c hc => ?_⟩, fun index => ?_⟩
      · obtain ⟨v, hv, hok⟩ := hchildren index c hc
        exact ⟨v, hv, hpath.outcome?_of_some hok⟩
      · exact (hpath.copies_eq (hconcerns index)).trans (hdrained.gone index)

/-! ## What a group is told -/

theorem Gathers.place (h : Gathers s group target children) (hs : Sound s)
    (hm : Moves client s (.ran (.notify (.slot group index) outcome)) s') :
    ∃ g c, s.world.groups[group]? = some g ∧ g.target = target ∧ Open s group g children ∧
      children[index]? = some c ∧ g.slots[index]? = some none ∧ s.world.outcome? c = some outcome ∧
      s'.ledger.copies (.slot group index) = 0 := by
  have hmem := hm.mem_callbacks
  obtain ⟨g, hg, htarget, hphase⟩ := h.record
  rcases hphase with hopen | hdrained
  · have hc := getElem?_eq_getElem (h.places index hmem)
    obtain ⟨slot, hslot, hstanding⟩ := hopen.standing hc
    cases hstanding with
    | due hdue =>
      obtain ⟨houtcome, hgone⟩ := hm.told hs hdue
      exact ⟨g, _, hg, htarget, hopen, hc, hslot, houtcome, hgone⟩
    | resolved _ hgone | rejected _ hgone => exact absurd hmem (Ledger.copies_eq_zero.mp hgone)
  · exact absurd hmem (Ledger.copies_eq_zero.mp (hdrained.gone index))

theorem groups_settle (w : World κ ρ σ) (c : Nat) (outcome : Outcome) :
    ((settle c outcome).run w).2.groups = w.groups := by
  obtain hc | ⟨waiting, hc⟩ | ⟨_, hc⟩ := w.continuation_cases c
  · rw [settle_of_missing hc]
  · rw [settle_of_waiting hc]
  · rw [settle_of_settled (Option.isSome_of_eq_some hc)]

variable {g : Group} {j d : Nat} {e : Failure} {v : Value}

theorem Open.others (h : Open s group g children) (hs : Sound s)
    (hm : Moves client s (.ran (.notify (.slot group index) outcome)) s')
    (hg : s.world.groups[group]? = some g) (hne : index ≠ j) (hc : children[j]? = some c) :
    ∃ slot, g.slots[j]? = some slot ∧ Standing s' group g.target j c slot := by
  obtain ⟨slot, hslot, hstanding⟩ := h.standing hc
  obtain ⟨xs, hpath, hxs⟩ := (hm.effect hs).path
  refine ⟨slot, hslot, hstanding.along hpath fun x hx hconcerns => ?_⟩
  have hlt := lt_of_getElem? hg
  obtain ⟨outcome', heq⟩ := (hxs x hx).concerns_slot hlt hconcerns
  cases heq
  exact hne rfl

theorem Moves.world_slot (hm : Moves client s (.ran (.notify (.slot group index) outcome)) s') :
    s'.world = ((fillSlot group index outcome).run s.world).2 := by
  cases hm with
  | ran => rfl

theorem Moves.fails (hm : Moves client s (.ran (.notify (.slot group index) (.error e))) s')
    (hg : s.world.groups[group]? = some g) (hlt : g.target < s.world.continuations.length) :
    s'.world.groups[group]? = some g ∧
      s'.world.outcome? g.target = (s.world.outcome? g.target).or (some (.error e)) := by
  rw [hm.world_slot, fillSlot_error hg, groups_settle]
  exact ⟨hg, outcome?_settle hlt _⟩

theorem Open.told_error (h : Open s group g children) (hs : Sound s)
    (hm : Moves client s (.ran (.notify (.slot group index) (.error e))) s')
    (hg : s.world.groups[group]? = some g) (hlt : g.target < s.world.continuations.length)
    (hc : children[index]? = some c) (hslot : g.slots[index]? = some none)
    (houtcome : s.world.outcome? c = some (.error e)) (hgone : s'.ledger.copies (.slot group index) = 0) :
    s'.world.groups[group]? = some g ∧ Open s' group g children := by
  have hothers {j d : Nat} (hne : index ≠ j) := h.others (c := d) hs hm hg hne
  have houtcome' := (hm.effect hs).outcome?_of_some houtcome
  obtain ⟨hgroup, htarget⟩ := hm.fails hg hlt
  have hsettled : ∃ outcome, s'.world.outcome? g.target = some outcome := by
    rw [htarget]
    cases s.world.outcome? g.target with
    | none => exact ⟨_, rfl⟩
    | some outcome => exact ⟨_, rfl⟩
  refine ⟨hgroup, h.length, fun {j d} hd => ?_, h.remaining, h.pos, .inr ?_⟩
  · by_cases hne : index = j
    · subst hne
      obtain rfl := Option.some.inj (hc.symm.trans hd)
      obtain ⟨outcome, hsettled⟩ := hsettled
      exact ⟨none, hslot, .rejected houtcome' hgone hsettled⟩
    · exact hothers hne hd
  · rcases h.target with hnone | ⟨d, hd, e', he', hfailed⟩
    · rw [hnone] at htarget
      exact ⟨c, mem_of_getElem? hc, e, houtcome', htarget⟩
    · rw [hfailed] at htarget
      exact ⟨d, hd, e', (hm.effect hs).outcome?_of_some he', htarget⟩

theorem Open.filled (h : Open s group g children) (hs : Sound s)
    (hm : Moves client s (.ran (.notify (.slot group index) (.ok v))) s')
    (hg : s.world.groups[group]? = some g) (hc : children[index]? = some c)
    (hslot : g.slots[index]? = some none) (houtcome : s.world.outcome? c = some (.ok v))
    (hgone : s'.ledger.copies (.slot group index) = 0) (hd : children[j]? = some d) :
    ∃ slot, (g.fill index v).slots[j]? = some slot ∧ Standing s' group g.target j d slot := by
  show ∃ slot, (g.slots.set index (some v))[j]? = some slot ∧ _
  by_cases hne : index = j
  · subst hne
    obtain rfl := Option.some.inj (hc.symm.trans hd)
    rw [getElem?_set_self (lt_of_getElem? hslot)]
    exact ⟨some v, rfl, .resolved ((hm.effect hs).outcome?_of_some houtcome) hgone⟩
  · rw [getElem?_set_ne hne]
    exact h.others hs hm hg hne hd

theorem remaining_fill (h : g.remaining = g.slots.countP Option.isNone)
    (hslot : g.slots[index]? = some none) (v : Value) :
    (g.fill index v).remaining = (g.fill index v).slots.countP Option.isNone := by
  obtain ⟨hlt, hnone⟩ := List.getElem?_eq_some_iff.mp hslot
  show g.remaining - 1 = (g.slots.set index (some v)).countP Option.isNone
  rw [countP_set hlt, hnone, h]
  rfl

theorem Moves.fills (hm : Moves client s (.ran (.notify (.slot group index) (.ok v))) s')
    (hg : s.world.groups[group]? = some g) (hmore : (g.fill index v).remaining ≠ 0) :
    s'.world.groups[group]? = some (g.fill index v) ∧
      s'.world.outcome? g.target = s.world.outcome? g.target := by
  have hlt := lt_of_getElem? hg
  rw [hm.world_slot, fillSlot_more hg hmore]
  exact ⟨getElem?_set_self hlt, rfl⟩

/-- With the last value a group is emptied, and its target has the array of all values, unless it is
    settled. -/
theorem Moves.drains (hm : Moves client s (.ran (.notify (.slot group index) (.ok v))) s')
    (hg : s.world.groups[group]? = some g) (hlt : g.target < s.world.continuations.length)
    (hlast : (g.fill index v).remaining = 0) :
    s'.world.groups[group]? = some { g.fill index v with slots := [] } ∧ s'.world.outcome? g.target =
        (s.world.outcome? g.target).or (some (.ok (.array (g.fill index v).values))) := by
  have hgroup := lt_of_getElem? hg
  rw [hm.world_slot, fillSlot_last hg hlast, groups_settle]
  refine ⟨getElem?_set_self hgroup, ?_⟩
  exact outcome?_settle (w := { s.world with groups := s.world.groups.set group _ }) hlt _

theorem Open.told_more (h : Open s group g children) (hs : Sound s)
    (hm : Moves client s (.ran (.notify (.slot group index) (.ok v))) s')
    (hg : s.world.groups[group]? = some g) (hslot : g.slots[index]? = some none)
    (hfilled : ∀ {j d : Nat}, children[j]? = some d →
      ∃ slot, (g.fill index v).slots[j]? = some slot ∧ Standing s' group g.target j d slot)
    (hmore : (g.fill index v).remaining ≠ 0) :
    s'.world.groups[group]? = some (g.fill index v) ∧ Open s' group (g.fill index v) children := by
  obtain ⟨hgroup, htarget⟩ := hm.fills hg hmore
  refine ⟨hgroup, ?_, hfilled, remaining_fill h.remaining hslot v, Nat.pos_of_ne_zero hmore, ?_⟩
  · exact (length_set ..).trans h.length
  · refine h.target.imp htarget.trans ?_
    rintro ⟨d, hd, e, he, hfailed⟩
    exact ⟨d, hd, e, (hm.effect hs).outcome?_of_some he, htarget.trans hfailed⟩

theorem resolved_of_filled (hremaining : g.slots.countP Option.isNone = 0)
    (hfilled : ∀ {j d : Nat}, children[j]? = some d →
      ∃ slot, g.slots[j]? = some slot ∧ Standing s group target j d slot)
    (hd : children[j]? = some d) : ∃ v, g.slots[j]? = some (some v) ∧
      s.world.outcome? d = some (.ok v) ∧ s.ledger.copies (.slot group j) = 0 := by
  obtain ⟨slot, hslot, hstanding⟩ := hfilled hd
  have hsome := countP_eq_zero.mp hremaining slot (mem_of_getElem? hslot)
  cases hstanding with
  | due | rejected => exact absurd rfl hsome
  | resolved hok hgone => exact ⟨_, hslot, hok, hgone⟩

theorem Open.told_last (h : Open s group g children) (hs : Sound s)
    (hm : Moves client s (.ran (.notify (.slot group index) (.ok v))) s')
    (hg : s.world.groups[group]? = some g) (hlt : g.target < s.world.continuations.length)
    (hslot : g.slots[index]? = some none) (hfilled : ∀ {j d : Nat}, children[j]? = some d →
      ∃ slot, (g.fill index v).slots[j]? = some slot ∧ Standing s' group g.target j d slot)
    (hplaces : ∀ j, .slot group j ∈ s'.ledger.callbacks → j < children.length)
    (hlast : (g.fill index v).remaining = 0) :
    s'.world.groups[group]? = some { g.fill index v with slots := [] } ∧
      Drained s' group { g.fill index v with slots := [] } children := by
  have hremaining := (remaining_fill h.remaining hslot v).symm.trans hlast
  have hresolved {j d : Nat} (hd : children[j]? = some d) := resolved_of_filled hremaining hfilled hd
  -- the target has not failed, as no child has
  have hnone : s.world.outcome? g.target = none := by
    rcases h.target with hnone | ⟨d, hd, e, he, -⟩
    · exact hnone
    · obtain ⟨j, hj⟩ := mem_iff_getElem?.mp hd
      obtain ⟨v', -, hok, -⟩ := hresolved hj
      rw [(hm.effect hs).outcome?_of_some he] at hok
      cases hok
  obtain ⟨hgroup, htarget⟩ := hm.drains hg hlt hlast
  rw [hnone] at htarget
  refine ⟨hgroup, ⟨(g.fill index v).values, ?_, htarget, fun j d hd => ?_⟩, fun j => ?_⟩
  · exact (length_map _).trans ((length_set ..).trans h.length)
  · obtain ⟨v', hv', hok, -⟩ := hresolved hd
    exact ⟨v', by rw [Group.values, getElem?_map, hv']; rfl, hok⟩
  · refine Ledger.copies_eq_zero.mpr fun hmem => ?_
    obtain ⟨_, -, -, hgone⟩ := hresolved (getElem?_eq_getElem (hplaces j hmem))
    exact Ledger.copies_eq_zero.mp hgone hmem

/-! ## Steps -/

theorem Effect.mem_places (h : Effect s m s') (hlt : group < s.world.groups.length)
    (hmem : .slot group index ∈ s'.ledger.callbacks) : .slot group index ∈ s.ledger.callbacks := by
  obtain ⟨xs, hpath, hxs⟩ := h.path
  rcases hpath.mem_callbacks hmem with hmem | ⟨d, hregister⟩
  · exact hmem
  · cases hxs _ hregister with
    | fresh hfresh => exact absurd hlt (Nat.not_lt.mpr hfresh.1)

theorem Gathers.told (h : Gathers s group target children) (hs : Sound s)
    (hm : Moves client s (.ran (.notify (.slot group index) outcome)) s') :
    Gathers s' group target children := by
  obtain ⟨g, c, hg, rfl, hopen, hc, hslot, houtcome, hgone⟩ := h.place hs hm
  have hgroup := lt_of_getElem? hg
  have hplaces : ∀ j, .slot group j ∈ s'.ledger.callbacks → j < children.length :=
    fun j hmem => h.places j ((hm.effect hs).mem_places hgroup hmem)
  refine ⟨h.exclusive.step (hm.effect hs), hplaces, ?_⟩
  cases outcome with
  | error e =>
    obtain ⟨hg', hopen'⟩ := hopen.told_error hs hm hg h.exclusive.lt hc hslot houtcome hgone
    exact ⟨g, hg', rfl, .inl hopen'⟩
  | ok v =>
    have hfilled {j d : Nat} (hd : children[j]? = some d) := hopen.filled hs hm hg hc hslot houtcome hgone hd
    by_cases hlast : (g.fill index v).remaining = 0
    · obtain ⟨hg', hdrained⟩ := hopen.told_last hs hm hg h.exclusive.lt hslot hfilled hplaces hlast
      exact ⟨_, hg', rfl, .inr hdrained⟩
    · obtain ⟨hg', hopen'⟩ := hopen.told_more hs hm hg hslot hfilled hlast
      exact ⟨_, hg', rfl, .inl hopen'⟩

theorem Gathers.step (h : Gathers s group target children) (hs : Sound s) (hm : Moves client s m s')
    (hclient : ∀ outcome, m ≠ .called (.settle target outcome)) : Gathers s' group target children := by
  by_cases htold : ∃ index outcome, m = .ran (.notify (.slot group index) outcome)
  · obtain ⟨index, outcome, rfl⟩ := htold
    exact h.told hs hm
  · obtain ⟨g, hg, -⟩ := h.record
    have hgroup := lt_of_getElem? hg
    refine h.frame ((hm.effect hs).frame ?_ ?_ ?_ ?_)
    · rintro _ rfl
      exact hgroup
    · rintro _ rfl
      exact h.exclusive.lt
    · rintro _ index outcome rfl heq
      exact htold ⟨index, outcome, heq⟩
    · rintro _ outcome rfl hsettles
      rcases h.exclusive.acts hm hsettles with hcalled | ⟨index, outcome', hran⟩
      · exact hclient outcome hcalled
      · exact htold ⟨index, outcome', hran⟩

end Motif.Async
