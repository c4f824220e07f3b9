import Motif.Proofs.Emit.Tidy

/-!
# Declaring ids

What the single steps of the generator do to a tidy state: names and temporaries are declared where they
are written, constants are put to use, and functions are begun and ended.
-/

namespace Motif.Emit

open Script IdAllocator Constants List

variable {frames : List Frame} {id : String} {f : Frame}

/-! ## Frames -/

theorem Frame.mem_hoist (f : Frame) (id : String) : id ∈ (f.hoist id).hoisted ++ (f.hoist id).params := by
  unfold Frame.hoist
  split
  · next h =>
    rw [Bool.or_eq_true, contains_iff_mem, contains_iff_mem] at h
    exact mem_append.mpr h.symm
  · simp

theorem Frame.params_hoist (f : Frame) (id : String) : (f.hoist id).params = f.params := (hoist_eq f id).1

theorem Frame.subset_hoist (f : Frame) (id : String) :
    f.hoisted ++ f.params ⊆ (f.hoist id).hoisted ++ (f.hoist id).params := by
  intro other hother
  rw [f.params_hoist]
  rcases mem_append.mp hother with h | h
  · exact mem_append_left _ ((hoist_eq f id).2.2.1 other h)
  · exact mem_append_right _ h

theorem Frame.mem_of_mem_hoist {other : String} (h : other ∈ (f.hoist id).hoisted ++ (f.hoist id).params) :
    other ∈ f.hoisted ++ f.params ∨ other = id := by
  unfold Frame.hoist at h
  split at h
  · exact .inl h
  · simp only [mem_append, mem_singleton] at h ⊢
    grind

theorem Frame.nodup_hoist (h : (f.hoisted ++ f.params).Nodup) (id : String) :
    ((f.hoist id).hoisted ++ (f.hoist id).params).Nodup := by
  unfold Frame.hoist
  split
  · exact h
  · next hnew =>
    simp only [Bool.or_eq_true, contains_iff_mem, not_or] at hnew
    have hcomm : (f.hoisted ++ [id] ++ f.params).Perm (id :: (f.hoisted ++ f.params)) := by
      simp [perm_middle]
    rw [hcomm.nodup_iff, nodup_cons, mem_append]
    exact ⟨fun hmem => hmem.elim hnew.2 hnew.1, h⟩

section Primitive

variable {p : Premises} {j k : Nat} {s : State} {setting : Setting} {name : String} {α : Type} {plain : Prop}

theorem Tidy.exists_frame (hs : Tidy plain setting s) : ∃ f outer, s.frames = f :: outer := by
  cases hframes : s.frames with
  | nil => exact absurd hframes hs.inside
  | cons f outer => exact ⟨f, outer, rfl⟩

variable {outer : List Frame} {P : List Frame → α → Prop} {texts : List String} {t : NameTable}
  {x y : Emit α}

theorem widens_cons {f' : Frame} (h : f.hoisted ++ f.params ⊆ f'.hoisted ++ f'.params) :
    Widens (scopesOf (f :: outer)) (scopesOf (f' :: outer)) :=
  .cons h (Widens.refl _)

section Hoisting

variable {f : Frame} {outer : List Frame} {id : String} {s' : State}

theorem follows_hoist {reads : String → Prop} (hframes : s.frames = f :: outer)
    (hframes' : s'.frames = f.hoist id :: outer) (hcount : ∀ name, s.count name ≤ s'.count name)
    (hcovers : s.names.Covers s'.names) (hgains : k = 0 → s.names.Gains reads s'.names) :
    Follows reads k s s' where
  widens := by
    rw [hframes, hframes']
    exact widens_cons (f.subset_hoist id)
  params := by
    have hsame : s'.frames.map Frame.params = s.frames.map Frame.params := by
      rw [hframes, hframes', map_cons, map_cons, f.params_hoist]
    rw [map_drop, hsame, map_drop]
  count := hcount
  generators := by
    have hsame : (f.hoist id).isGenerator = f.isGenerator := by
      unfold Frame.hoist
      split <;> rfl
    rw [hframes, hframes', map_cons, map_cons, hsame]
  covers := hcovers
  gains := hgains

theorem Tidy.hoist (hs : Tidy plain setting s) (hframes : s.frames = f :: outer)
    (hframes' : s'.frames = f.hoist id :: outer) (hlater : Later k s s')
    (hconstants : s'.constants = s.constants) (hid : plain → s'.Given id)
    (htable : s'.names.Declared plain s'.frames) : Tidy plain setting s' where
  inside := by
    rw [hframes']
    exact cons_ne_nil _ _
  stocked := hconstants ▸ hs.stocked
  table := htable
  distinct := by
    intro hplain
    have hold := hs.distinct hplain
    rw [hframes, forall_mem_cons] at hold
    rw [hframes', forall_mem_cons]
    exact ⟨Frame.nodup_hoist hold.1 id, hold.2⟩
  given := by
    intro hplain
    have hold := hs.given hplain
    rw [hframes, forall_mem_cons] at hold
    rw [hframes', forall_mem_cons]
    refine ⟨fun other hother => ?_, fun g hg other hother => hlater.given (hold.2 g hg other hother)⟩
    rcases Frame.mem_of_mem_hoist hother with h | rfl
    · exact hlater.given (hold.1 other h)
    · exact hid hplain

end Hoisting

theorem does_of_emits {step : Emit α}
    (h : p.Holds s → ∃ a s', Emits p.setting step s a s' ∧ Tidy p.plain p.setting s' ∧ Follows p.reads k s s' ∧
      P s'.frames a)
    (hsame : (step.run p.otherSetting).run s = (step.run p.setting).run s) : p.Does k P s step step := by
  intro hs
  obtain ⟨a, s', hrun, hpost⟩ := h hs
  refine ⟨hsame, ?_⟩
  rw [hrun]
  exact hpost

theorem emits_hoist (hframes : s.frames = f :: outer) (id : String) :
    Emits setting (hoist id) s () { s with frames := f.hoist id :: outer } := by
  obtain ⟨constants, ids, names, frames⟩ := s
  cases hframes
  rfl

theorem does_hoist (hid : p.plain → s.Given id) :
    p.Does 0 (fun frames _ => id ∈ (scopesOf frames).headD []) s (hoist id) (hoist id) := by
  refine does_of_emits (fun hs => ?_) rfl
  obtain ⟨f, outer, hframes⟩ := hs.tidy.exists_frame
  let s' : State := { s with frames := f.hoist id :: outer }
  have hlater : Follows p.reads 0 s s' :=
    follows_hoist hframes rfl (fun _ => Nat.le_refl _) (.refl _) fun _ => .refl _
  have hs' : Tidy p.plain p.setting s' := hs.tidy.hoist hframes rfl hlater.toLater rfl
    (fun hplain => hlater.given (hid hplain)) (hlater.declared hs.tidy.table)
  exact ⟨(), s', emits_hoist hframes id, hs', hlater, f.mem_hoist id⟩

theorem Premises.NameFits.idFits (h : p.NameFits frames id) : p.IdFits frames id := by
  refine ⟨fun hplain => ⟨fun _ => h.2, fun n hn => ?_⟩, fun _ _ _ => .inl h.2⟩
  exact absurd (hn ▸ h.1 hplain) (Internal.temp n).not_isVersion

theorem Premises.NameFits.push (h : p.NameFits frames id) (f : Frame) : p.NameFits (f :: frames) id := by
  obtain ⟨hversion, scope, hscope, hid⟩ := h
  exact ⟨hversion, scope, mem_cons_of_mem _ hscope, hid⟩

theorem idFits_of_mark (hversion : ¬ IsVersion id) (hmark : mark id ∉ [some 't', some 'p']) :
    p.IdFits frames id := by
  refine ⟨fun _ => ⟨fun h => absurd h hversion, fun n hn => absurd ?_ hmark⟩, fun l hl => absurd ?_ hmark⟩
  · simp [hn]
  · simp [hl]

theorem idFits_patternLocal {l : Nat} (h : p.LocalFits (scopesOf frames) (patternLocal l)) :
    p.IdFits frames (patternLocal l) := by
  refine ⟨fun _ => ⟨fun hversion => ?_, fun n hn => ?_⟩, fun _ _ => h⟩
  · exact absurd hversion (Internal.patternLocal l).not_isVersion
  · have hmark := congrArg mark hn
    simp at hmark

theorem idFits_reserved (h : isReserved id = true) (hmark : mark id ∉ [some 't', some 'p']) :
    p.IdFits frames id := by
  refine idFits_of_mark ?_ hmark
  rintro ⟨name, k, -, rfl⟩
  rw [not_isReserved_versionId] at h
  cases h

theorem does_writing (hname : p.plain → Plain name)
    (hread : k = 0 → s.names.current? name = none ∧ p.reads name) :
    p.Does k p.NameFits s (writeName name) (writeName name) := by
  refine does_of_emits (fun hs => ?_) rfl
  obtain ⟨f, outer, hframes⟩ := hs.tidy.exists_frame
  let s₁ : State := { s with ids := (s.ids.version name).2, names := s.names.push name (s.nextId name) }
  let s' : State := { s₁ with frames := f.hoist (s.nextId name) :: outer }
  have hrun : Emits p.setting (writeName name) s (s.nextId name) s' :=
    (emits_newVersion name).bind ((emits_hoist (s := s₁) hframes _).bind (emits_pure _))
  have hlater : Follows p.reads k s s' := by
    refine follows_hoist hframes rfl (fun other => ?_) (NameTable.covers_push _ _ _) fun hk other => ?_
    · rw [count_version name other s' rfl]
      split
      · next hother => rw [hother]; exact Nat.le_succ _
      · exact Nat.le_refl _
    · rw [NameTable.current?_push]
      split
      · next hother => exact .inr (hother ▸ hread hk)
      · exact .inl rfl
  have hdeclares : DeclaredBy s'.frames (s.nextId name) := ⟨_, mem_cons_self, f.mem_hoist (s.nextId name)⟩
  have hs' : Tidy p.plain p.setting s' := by
    refine hs.tidy.hoist hframes rfl hlater.toLater rfl (fun hplain => .version (hname hplain) ?_) ?_
    · rw [count_version name name s' rfl, if_pos rfl]
      exact Nat.lt_succ_self _
    · exact (hlater.declared hs.tidy.table).push hname hdeclares
  refine ⟨s.nextId name, s', hrun, hs', hlater, ?_⟩
  exact ⟨fun hplain => ⟨name, _, hname hplain, rfl⟩, hdeclares⟩

theorem does_writeName (hname : p.plain → Plain name) :
    p.Does 1 p.NameFits s (writeName name) (writeName name) := does_writing hname nofun

theorem does_readName (hname : p.plain → Plain name) (hread : k = 0 → p.reads name) :
    p.Does k p.NameFits s (readName name) (readName name) := by
  refine does_of_holds fun hs => does_get ?_
  split
  · next id hid =>
    obtain ⟨hname, ⟨k, hk⟩, hdeclared⟩ := hs.tidy.table.current hid
    exact does_pure ⟨fun hplain => ⟨name, k, hname hplain, hk⟩, hdeclared⟩
  · next hnone => exact does_writing hname fun hk => ⟨hnone, hread hk⟩

theorem does_temp : p.Does 0 p.IdFits s temp temp := by
  refine does_of_emits (fun hs => ?_) rfl
  obtain ⟨f, outer, hframes⟩ := hs.tidy.exists_frame
  let id := tempId (s.ids.temps + 1)
  let s₁ : State := { s with ids := s.ids.temp.2 }
  let s' : State := { s₁ with frames := f.hoist id :: outer }
  have hfirst : Emits p.setting (modifyGet fun s => (s.ids.temp.1, { s with ids := s.ids.temp.2 }))
      s id s₁ := rfl
  have hrun : Emits p.setting temp s id s' :=
    hfirst.bind ((emits_hoist (s := s₁) hframes id).bind (emits_pure id))
  have hlater : Follows p.reads 0 s s' :=
    follows_hoist hframes rfl (fun _ => Nat.le_refl _) (.refl _) fun _ => .refl _
  have hs' : Tidy p.plain p.setting s' := hs.tidy.hoist hframes rfl hlater.toLater rfl (fun _ => .temp _)
    (hlater.declared hs.tidy.table)
  refine ⟨id, s', hrun, hs', hlater, fun _ => ⟨fun hversion => ?_, fun _ _ => .inl (f.mem_hoist id)⟩,
    fun l hl => ?_⟩
  · exact absurd hversion (Internal.temp _).not_isVersion
  · have hmark := congrArg mark hl
    simp [id] at hmark

theorem State.Given.ne_versionId (h : s.Given id) (hname : Plain name) (hk : s.count name ≤ k) :
    id ≠ versionId name k := by
  have hversion : IsVersion (versionId name k) := ⟨name, k, hname, rfl⟩
  cases h with
  | version hother hlt =>
    intro heq
    obtain ⟨rfl, rfl⟩ := versionId_inj hother.undecorated hname.undecorated heq
    exact Nat.lt_irrefl _ (Nat.lt_of_lt_of_le hlt hk)
  | temp n => exact fun heq => (Internal.temp n).not_isVersion (heq ▸ hversion)
  | patternLocal l => exact fun heq => (Internal.patternLocal l).not_isVersion (heq ▸ hversion)

theorem State.Given.ne_nextId (h : s.Given id) (hname : Plain name) : id ≠ s.nextId name :=
  h.ne_versionId hname (Nat.le_refl _)

theorem does_writeParam (hname : p.plain → Plain name) {before : List String}
    (hbefore : (s.frames.headD {}).params = before) :
    p.Does 2 (fun frames id => (frames.headD {}).params = before ++ [id]) s
      (writeParam name) (writeParam name) := by
  refine does_of_emits (fun hs => ?_) rfl
  obtain ⟨f, outer, hframes⟩ := hs.tidy.exists_frame
  let id := s.nextId name
  let s₁ : State := { s with ids := (s.ids.version name).2, names := s.names.push name id }
  let s' : State := { s₁ with frames := { f with params := f.params ++ [id] } :: outer }
  have hrun : Emits p.setting (writeParam name) s id s' := by
    have hmodify : Emits p.setting (modifyFrame fun f => { f with params := f.params ++ [id] }) s₁ ()
        s' := by
      obtain ⟨constants, ids, names, frames⟩ := s
      cases hframes
      rfl
    exact (emits_newVersion name).bind (hmodify.bind (emits_pure id))
  have hlater : Follows p.reads 2 s s' := by
    refine ⟨⟨?_, ?_, fun other => ?_⟩, by simp [hframes, s'], NameTable.covers_push _ _ _, nofun⟩
    · rw [hframes]
      exact widens_cons (by simp [← append_assoc])
    · simp [hframes, s']
    · rw [count_version name other s' rfl]
      split
      · next hother => rw [hother]; exact Nat.le_succ _
      · exact Nat.le_refl _
  have hf : f ∈ s.frames := by rw [hframes]; exact mem_cons_self
  have houter : ∀ g ∈ outer, g ∈ s.frames := fun g hg => by
    rw [hframes]
    exact mem_cons_of_mem _ hg
  have hs' : Tidy p.plain p.setting s' := by
    refine ⟨cons_ne_nil _ _, hs.tidy.stocked, ?_, fun hplain => ?_, fun hplain => ?_⟩
    · refine (hlater.declared hs.tidy.table).push hname ?_
      exact ⟨_, mem_cons_self, by simp [id, State.nextId]⟩
    · refine forall_mem_cons.mpr ⟨?_, fun g hg => hs.tidy.distinct hplain g (houter g hg)⟩
      rw [← append_assoc, nodup_append_comm, singleton_append, nodup_cons]
      refine ⟨fun hmem => ?_, hs.tidy.distinct hplain f hf⟩
      exact (hs.tidy.given hplain f hf id hmem).ne_nextId (hname hplain) rfl
    · refine forall_mem_cons.mpr ⟨fun other hother => ?_, fun g hg other hother =>
        hlater.given (hs.tidy.given hplain g (houter g hg) other hother)⟩
      rw [← append_assoc, mem_append, mem_singleton] at hother
      rcases hother with hother | rfl
      · exact hlater.given (hs.tidy.given hplain f hf other hother)
      · refine .version (hname hplain) ?_
        rw [count_version name name s' rfl, if_pos rfl]
        exact Nat.lt_succ_self _
  refine ⟨id, s', hrun, hs', hlater, ?_⟩
  rw [← hbefore, hframes]
  rfl

/-! ## Constants -/

theorem nodup_intern {text : String} (h : texts.Nodup) : (intern text texts).2.Nodup := by
  unfold intern
  split
  · exact h
  · next hnone =>
    rw [nodup_append_comm, singleton_append, nodup_cons]
    exact ⟨idxOf?_eq_none_iff.mp hnone, h⟩

theorem mem_intern {text other : String} (h : other ∈ (intern text texts).2) :
    other = text ∨ other ∈ texts := by
  unfold intern at h
  split at h
  · exact .inr h
  · simpa [or_comm] using h

theorem does_useConstant {use : Constants → String × Constants}
    (hstocked : ∀ c : Constants, c.Stocked p.setting → (use c).2.Stocked p.setting)
    (hid : ∀ c frames, p.IdFits frames (use c).1) :
    p.Does 0 p.IdFits s (useConstant use) (useConstant use) := by
  refine does_of_emits (fun hs => ?_) rfl
  let s' : State := { s with constants := (use s.constants).2 }
  have hlater : Follows p.reads 0 s s' := ⟨⟨.refl _, rfl, fun _ => Nat.le_refl _⟩, rfl, .refl _,
    fun _ => .refl _⟩
  refine ⟨(use s.constants).1, s', rfl, ?_, hlater, hid _ _⟩
  exact ⟨hs.tidy.inside, hstocked _ hs.tidy.stocked, hs.tidy.table, hs.tidy.distinct,
    fun hplain f hf id hid => hlater.given (hs.tidy.given hplain f hf id hid)⟩

theorem does_library (hname : name ∈ libraryNames ∨ name ∈ p.setting.options.globals) :
    p.Does 0 p.IdFits s (library name) (library name) := by
  refine does_useConstant (fun c hc => ⟨nodup_intern hc.nodup, fun other hother => ?_⟩) ?_
  · rcases mem_intern hother with rfl | hother
    · exact hname
    · exact hc.known other hother
  · -- A name of the host can have the id of a temporary or of a local, but no library function has.
    have hglobal (hinternal : Internal (importId name)) : name ∈ p.setting.options.globals :=
      hname.resolve_left fun hlibrary => not_internal_library hlibrary hinternal
    refine fun c frames => ⟨fun _ => ⟨fun hversion => absurd rfl (hversion.ne_dollar name), fun n hn => ?_⟩,
      fun l hl _ => ?_⟩
    · exact .inr ⟨name, hglobal (Eq.mpr (congrArg Internal hn) (.temp n)), rfl⟩
    · exact .inr (.inr ⟨name, hglobal (Eq.mpr (congrArg Internal hl) (.patternLocal l)), rfl⟩)

theorem does_useLiteral (text : String) :
    p.Does 0 p.IdFits s (useConstant (·.useLiteral text)) (useConstant (·.useLiteral text)) :=
  does_useConstant (fun _ hc => ⟨hc.nodup, hc.known⟩) fun _ _ =>
    idFits_of_mark (Internal.literal _).not_isVersion (by simp [useLiteral])

theorem does_useBuilder (name : String) (args : List String) :
    p.Does 0 p.IdFits s (useConstant (·.useBuilder name args)) (useConstant (·.useBuilder name args)) :=
  does_useConstant (fun _ hc => ⟨hc.nodup, hc.known⟩) fun _ _ =>
    idFits_of_mark (Internal.builder _).not_isVersion (by simp [useBuilder])

theorem does_callLibrary (hname : name ∈ libraryNames) {args : List Expr}
    (hargs : ∀ e ∈ args, p.ExprFits s.frames e) :
    p.Does 0 p.ExprFits s (callLibrary name args) (callLibrary name args) := by
  refine (does_library (.inl hname)).bind fun id s₁ hlater hid => does_pure ?_
  exact ⟨hid, exprsFit_iff.mpr fun e he => stable_expr _ _ e hlater.grows (hargs e he)⟩

/-! ## Scopes of names -/

theorem Tidy.setNames (hs : Tidy plain setting s) (ht : t.Declared plain s.frames) :
    Tidy plain setting { s with names := t } :=
  ⟨hs.inside, hs.stocked, ht, hs.distinct, fun hplain f hf id hid =>
    (hs.given hplain f hf id hid).mono fun _ => Nat.le_refl _⟩

theorem run_nestedNames (step : Emit α) (s : State) : ((nestedNames step).run setting).run s =
      ((step.run setting).run { s with names := s.names.derive }).bind
        fun r => .ok (r.1, { r.2 with names := s.names }) := by
  change ((step.run setting).run _).bind _ = _
  cases (step.run setting).run { s with names := s.names.derive } with
  | error e => rfl
  | ok r => rfl

/-- A nested naming scope. The names from before are declared afterwards too, since functions do not
    lose ids. -/
theorem does_nestedNames
    (h : ∀ s₁, s₁.frames = s.frames → p.Does 1 P s₁ x y) : p.Does 0 P s (nestedNames x) (nestedNames y) := by
  refine (h { s with names := s.names.derive } rfl).around (fun r => (r.1, { r.2 with names := s.names }))
    (run_nestedNames x s) (run_nestedNames y s) (fun hs => ⟨?_, hs.block⟩) fun hs a s₂ hs₂ hlater ha => ?_
  · exact hs.tidy.setNames hs.tidy.table.derive
  · have hlater' : Follows p.reads 0 s { s₂ with names := s.names } :=
      ⟨⟨hlater.widens, hlater.params, hlater.count⟩, hlater.generators, .refl _, fun _ => .refl _⟩
    exact ⟨hs₂.setNames (hlater'.declared hs.tidy.table), hlater', ha⟩

/-! ## Functions -/

theorem NameTable.Declared.push_frame (h : t.Declared plain frames) (f : Frame) :
    t.Declared plain (f :: frames) := by
  intro entry hentry
  obtain ⟨hname, hids⟩ := h entry hentry
  refine ⟨hname, fun id hid => ⟨(hids id hid).1, ?_⟩⟩
  obtain ⟨scope, hscope, hmem⟩ := (hids id hid).2
  exact ⟨scope, mem_cons_of_mem _ hscope, hmem⟩

theorem run_inFrame (frame : Frame) (step : Emit α) (s : State) : ((inFrame frame step).run setting).run s =
      ((step.run setting).run { s with names := s.names.derive, frames := frame :: s.frames }).bind
        fun r => .ok ((r.1, r.2.frames.head?.getD {}),
          { r.2 with names := s.names, frames := r.2.frames.tail }) := by
  change (((step.run setting).run _).bind _).bind _ = _
  cases (step.run setting).run { s with names := s.names.derive, frames := frame :: s.frames } with
  | error e => rfl
  | ok r => rfl

/-- A step in a new function: what it gives is `P` inside that function as it came to be. -/
theorem does_inFrame {inner : Prop} {frame : Frame} (hnodup : (frame.hoisted ++ frame.params).Nodup)
    (hgiven : ∀ s : State, ∀ id ∈ frame.hoisted ++ frame.params, s.Given id)
    (hinner : p.Holds s → inner → frame.isGenerator = true)
    (h : ∀ s₁, s₁.frames = frame :: s.frames → (p.within inner).Does 2 P s₁ x y) :
    p.Does 0 (fun frames r => r.2.isGenerator = frame.isGenerator ∧ P (r.2 :: frames) r.1) s
      (inFrame frame x) (inFrame frame y) := by
  refine (h { s with names := s.names.derive, frames := frame :: s.frames } rfl).around
    (fun r => ((r.1, r.2.frames.head?.getD {}), { r.2 with names := s.names, frames := r.2.frames.tail }))
    (run_inFrame frame x s) (run_inFrame frame y s) (fun hs => ⟨?_, hinner hs⟩)
    fun hs a s₂ hs₂ hlater ha => ?_
  · refine ⟨cons_ne_nil _ _, hs.tidy.stocked, ?_, fun hplain => ?_, fun hplain => ?_⟩
    · exact hs.tidy.table.derive.push_frame frame
    · exact forall_mem_cons.mpr ⟨hnodup, hs.tidy.distinct hplain⟩
    · refine forall_mem_cons.mpr ⟨hgiven _, fun f hf id hid => ?_⟩
      exact (hs.tidy.given hplain f hf id hid).mono fun _ => Nat.le_refl _
  · obtain ⟨made, outer, hframes⟩ := hs₂.exists_frame
    have hwidens := hlater.widens
    have hparams := hlater.params
    have hgenerators := hlater.generators
    have hdistinct := hs₂.distinct
    have hfgiven := hs₂.given
    rw [hframes] at ha hwidens hparams hgenerators hdistinct hfgiven
    rw [hframes]
    dsimp only [head?_cons, Option.getD_some, tail_cons]
    cases hwidens with
    | cons _ houter =>
      obtain ⟨hmade, hgenerators⟩ := List.cons.inj hgenerators
      have hlater' : Follows p.reads 0 s { s₂ with names := s.names, frames := outer } :=
        ⟨⟨houter, hparams, hlater.count⟩, hgenerators, .refl _, fun _ => .refl _⟩
      refine ⟨⟨?_, hs₂.stocked, hlater'.declared hs.tidy.table, ?_, ?_⟩, hlater', hmade, ha⟩
      · rintro rfl
        have hlength := houter.length_eq
        simp [hs.tidy.inside] at hlength
      · exact fun hplain f hf => hdistinct hplain f (mem_cons_of_mem _ hf)
      · exact fun hplain f hf id hid => (hfgiven hplain f (mem_cons_of_mem _ hf) id hid).mono
          fun _ => Nat.le_refl _

theorem Premises.Does.params (h : p.Does j P s x y) [hj : AtMost j 1] : p.Does j (fun frames a =>
      (frames.headD {}).params = (s.frames.headD {}).params ∧ P frames a) s x y := by
  intro hs
  obtain ⟨heq, hpost⟩ := h hs
  refine ⟨heq, ?_⟩
  cases hrun : (y.run p.setting).run s with
  | error e =>
    rw [hrun] at hpost
    exact hpost
  | ok result =>
    rw [hrun] at hpost
    obtain ⟨hs', hlater, ha⟩ := hpost
    refine ⟨hs', hlater, ?_, ha⟩
    obtain ⟨f, outer, hframes⟩ := hs.tidy.exists_frame
    obtain ⟨f', outer', hframes'⟩ := hs'.exists_frame
    have hparams := hlater.params
    rw [Nat.sub_eq_zero_of_le hj.le, hframes, hframes'] at hparams
    rw [hframes, hframes']
    exact (List.cons.inj hparams).1

theorem does_setResult : p.Does 0 (fun _ _ => True) s (modifyFrame fun f => { f with hasResult := true })
    (modifyFrame fun f => { f with hasResult := true }) := by
  refine does_of_emits (fun hs => ?_) rfl
  obtain ⟨f, outer, hframes⟩ := hs.tidy.exists_frame
  let s' : State := { s with frames := { f with hasResult := true } :: outer }
  have hrun : Emits p.setting (modifyFrame fun f => { f with hasResult := true }) s () s' := by
    obtain ⟨constants, ids, names, frames⟩ := s
    cases hframes
    rfl
  have hscopes : scopesOf s'.frames = scopesOf s.frames := by rw [hframes]; rfl
  have hlater : Follows p.reads 0 s s' := by
    refine ⟨⟨?_, ?_, fun _ => Nat.le_refl _⟩, by simp [hframes, s'], .refl _, fun _ => .refl _⟩
    · rw [hscopes]
      exact .refl _
    · simp [hframes, s']
  have hdistinct := hs.tidy.distinct
  have hgiven := hs.tidy.given
  rw [hframes] at hdistinct hgiven
  refine ⟨(), s', hrun, ⟨cons_ne_nil _ _, hs.tidy.stocked, ?_, ?_, ?_⟩, hlater, trivial⟩
  · exact hlater.declared hs.tidy.table
  · exact fun hplain => forall_mem_cons.mpr (forall_mem_cons.mp (hdistinct hplain))
  · intro hplain
    obtain ⟨hf, houter⟩ := forall_mem_cons.mp (hgiven hplain)
    refine forall_mem_cons.mpr ⟨fun id hid => hlater.given (hf id hid), fun g hg id hid => ?_⟩
    exact hlater.given (houter g hg id hid)

end Primitive

/-! ## Function expressions -/

def Premises.BodyFits (p : Premises) (frames : List Frame) (r : List String × List Stmt) : Prop :=
  (frames.headD {}).params = r.1 ∧ p.CodeFits frames r.2

theorem hoisted_subset_declaredIn (f : Frame) (code : List Stmt) : f.hoisted ⊆ declaredIn (f.wrap code) := by
  intro id hid
  have hne : f.hoisted ≠ [] := ne_nil_of_mem hid
  simp [Frame.wrap, declaredIn, hne, hid]

theorem mem_wrap {code : List Stmt} {stmt : Stmt} (h : stmt ∈ f.wrap code) :
    stmt ∈ code ∨ (∃ ids, stmt = .declare ids) ∨ stmt = .ret (.name resultId) := by
  rcases mem_append.mp h with h | h
  · rcases mem_append.mp h with h | h
    · refine .inr (.inl ⟨f.hoisted ++ if f.hasResult then [resultId] else [], ?_⟩)
      by_cases hempty : (f.hoisted ++ if f.hasResult then [resultId] else []).isEmpty
      · rw [if_pos hempty] at h
        cases h
      · rw [if_neg hempty] at h
        exact mem_singleton.mp h
    · exact .inl h
  · split at h
    · exact .inr (.inr (mem_singleton.mp h))
    · cases h

theorem exprFits_function {p : Premises} {made : Frame} {ids : List String} {code : List Stmt}
    (hparams : made.params ⊆ ids) (hcode : p.CodeFits (made :: frames) code) :
    p.ExprFits frames (.function made.isGenerator ids (made.wrap code)) := by
  have hwidens : Widens (scopesOf (made :: frames))
      ((ids ++ declaredIn (made.wrap code)) :: scopesOf frames) := by
    refine .cons (append_subset.mpr ⟨?_, ?_⟩) (Widens.refl _)
    · exact List.Subset.trans (hoisted_subset_declaredIn made code) (subset_append_right _ _)
    · exact List.Subset.trans hparams (subset_append_left _ _)
  refine bodyFits_iff.mpr fun stmt hstmt => ?_
  rcases mem_wrap hstmt with hmem | ⟨ids, rfl⟩ | rfl
  · exact stmtFits_transport p.transports_allows (fun _ h => h) stmt hwidens (bodyFits_iff.mp hcode stmt hmem)
  · trivial
  · have hresult : p.IdFits (made :: frames) resultId :=
      idFits_of_mark Internal.result.not_isVersion (by decide)
    exact p.transports_allows.id hwidens hresult

theorem Premises.BodyFits.function {p : Premises} {made : Frame} {r : List String × List Stmt}
    (h : p.BodyFits (made :: frames) r) : p.ExprFits frames (.function made.isGenerator r.1 (made.wrap r.2)) :=
  exprFits_function (h.1 ▸ List.Subset.refl _) h.2

end Motif.Emit
