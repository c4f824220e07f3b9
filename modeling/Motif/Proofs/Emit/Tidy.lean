import Motif.Proofs.Dict
import Motif.Proofs.Emit.Ids
import Motif.Proofs.Script.Scopes

/-!
# What the generator keeps in order

While code is generated, every id in the table of names is declared by one of the functions around the
current place, no function declares an id twice, and the constants of the module are the library
functions and the names of the host that are in use (`Tidy`). The first two depend on the names of the
source being plain; `plain` is that assumption, and nothing is said of ids without it.

`Does` is all that there is to say of a step of the generator. From a tidy state it leaves a tidy one, in
which every function declares at least what it declared before and is a generator or not as before, and
every name that had an id has one, the same one if names are only read. The code that it gives uses declared
ids only, and its yields are in generators. If it fails, a node stands where it cannot stand. What is taken
for granted for all this is in `Premises`. `Does` speaks of two versions of a step, which do the same.
-/

namespace Motif.Emit

open Script IdAllocator Constants List

/-! ## States -/

/-- The ids that each of the functions around declares. -/
def scopesOf (frames : List Frame) : Scopes := frames.map fun f => f.hoisted ++ f.params

def DeclaredBy (frames : List Frame) (id : String) : Prop := ∃ scope ∈ scopesOf frames, id ∈ scope

/-- The ids of the table are versions of their names and declared around. -/
def NameTable.Declared (plain : Prop) (t : NameTable) (frames : List Frame) : Prop :=
  ∀ entry ∈ t.versions, (plain → Plain entry.1) ∧
    ∀ id ∈ entry.2, (∃ k, id = versionId entry.1 k) ∧ DeclaredBy frames id

/-- Ids that have been given out, or are not given out at all. -/
inductive State.Given (s : State) : String → Prop where
  | version {name : String} {k : Nat} (hname : Plain name) (hk : k < s.count name) :
    Given s (versionId name k)
  | temp (n : Nat) : Given s (tempId n)
  | patternLocal (l : Nat) : Given s (patternLocal l)

theorem State.Given.mono {s s' : State} {id : String} (h : s.Given id)
    (hcount : ∀ name, s.count name ≤ s'.count name) : s'.Given id := by
  cases h with
  | version hname hk => exact .version hname (Nat.lt_of_lt_of_le hk (hcount _))
  | temp n => exact .temp n
  | patternLocal l => exact .patternLocal l

/-- The imports are distinct, and the library or the host has them. -/
structure Constants.Stocked (setting : Setting) (c : Constants) : Prop where
  nodup : c.imports.Nodup
  known : ∀ name ∈ c.imports, name ∈ libraryNames ∨ name ∈ setting.options.globals

/-- The state is in order. Ids are spoken of for plain names only. -/
structure Tidy (plain : Prop) (setting : Setting) (s : State) : Prop where
  inside : s.frames ≠ []
  stocked : s.constants.Stocked setting
  /-- Every id in the table is declared by a function around the current place. -/
  table : s.names.Declared plain s.frames
  /-- Within a function the ids to declare are distinct, and none of them is a parameter. -/
  distinct : plain → ∀ f ∈ s.frames, (f.hoisted ++ f.params).Nodup
  given : plain → ∀ f ∈ s.frames, ∀ id ∈ f.hoisted ++ f.params, s.Given id

/-- A later state in the same functions. The `k` innermost ones may have got parameters. -/
structure Later (k : Nat) (s s' : State) : Prop where
  widens : Widens (scopesOf s.frames) (scopesOf s'.frames)
  params : (s'.frames.drop k).map Frame.params = (s.frames.drop k).map Frame.params
  count : ∀ name, s.count name ≤ s'.count name

namespace Later

variable {k : Nat} {s s₁ s₂ : State}

theorem refl (s : State) : Later k s s := ⟨.refl _, rfl, fun _ => Nat.le_refl _⟩

theorem trans (h₁ : Later k s s₁) (h₂ : Later k s₁ s₂) : Later k s s₂ where
  widens := h₁.widens.trans h₂.widens
  params := h₂.params.trans h₁.params
  count name := Nat.le_trans (h₁.count name) (h₂.count name)

theorem weaken {j : Nat} (h : Later j s s₁) (hjk : j ≤ k) : Later k s s₁ where
  widens := h.widens
  params := by
    have hparams := congrArg (List.drop (k - j)) h.params
    simpa [map_drop, drop_drop, Nat.add_sub_of_le hjk] using hparams
  count := h.count

theorem given {id : String} (h : Later k s s₁) (hid : s.Given id) : s₁.Given id := hid.mono h.count

theorem declared {plain : Prop} {t : NameTable} (h : Later k s s₁) (ht : t.Declared plain s.frames) :
    t.Declared plain s₁.frames := by
  intro entry hentry
  obtain ⟨hname, hids⟩ := ht entry hentry
  exact ⟨hname, fun id hid => ⟨(hids id hid).1, h.widens.exists_mem (hids id hid).2⟩⟩

end Later

/-! ## Tables -/

/-- Every name that has an id still has one. -/
def NameTable.Covers (t t' : NameTable) : Prop := ∀ name, (t.current? name).isSome → (t'.current? name).isSome

theorem NameTable.Covers.refl (t : NameTable) : t.Covers t := fun _ h => h

theorem NameTable.covers_push (t : NameTable) (name id : String) : t.Covers (t.push name id) := by
  intro other hother
  rw [current?_push]
  split
  · rfl
  · exact hother

/-- Every name keeps its id, or has had none and is among those that are read. -/
def NameTable.Gains (reads : String → Prop) (t t' : NameTable) : Prop :=
  ∀ name, t'.current? name = t.current? name ∨ t.current? name = none ∧ reads name

theorem NameTable.Gains.refl {reads : String → Prop} (t : NameTable) : t.Gains reads t := fun _ => .inl rfl

theorem NameTable.Gains.trans {reads : String → Prop} {t₁ t₂ t₃ : NameTable} (h₁ : t₁.Gains reads t₂)
    (h₂ : t₂.Gains reads t₃) : t₁.Gains reads t₃ := by
  intro name
  rcases h₁ name with h₁ | h₁
  · rw [← h₁]
    exact h₂ name
  · exact .inr h₁

namespace NameTable.Declared

variable {plain : Prop} {t base : NameTable} {frames : List Frame} {name id : String}

theorem derive (h : t.Declared plain frames) : t.derive.Declared plain frames := by
  intro entry hentry
  obtain ⟨⟨name, ids⟩, hold, hentry⟩ := mem_filterMap.mp hentry
  obtain ⟨id, hid, rfl⟩ := Option.map_eq_some_iff.mp hentry
  obtain ⟨hname, hids⟩ := h _ hold
  refine ⟨hname, fun other hother => ?_⟩
  rw [mem_singleton.mp hother]
  exact hids id (mem_of_mem_head? hid)

theorem push (h : t.Declared plain frames) (hname : plain → Plain name) {k : Nat}
    (hid : DeclaredBy frames (versionId name k)) : (t.push name (versionId name k)).Declared plain frames := by
  have hinsert (entries : List (String × List String)) (h : Declared plain ⟨entries⟩ frames) :
      Declared plain ⟨insert name (versionId name k) entries⟩ frames := by
    induction entries with
    | nil =>
      refine forall_mem_singleton.mpr ⟨hname, ?_⟩
      exact forall_mem_singleton.mpr ⟨⟨k, rfl⟩, hid⟩
    | cons entry rest ih =>
      obtain ⟨other, ids⟩ := entry
      obtain ⟨hentry, hrest⟩ := forall_mem_cons.mp h
      unfold insert
      split
      · next hother =>
        subst hother
        refine forall_mem_cons.mpr ⟨⟨hname, ?_⟩, hrest⟩
        exact forall_mem_cons.mpr ⟨⟨⟨k, rfl⟩, hid⟩, hentry.2⟩
      · split
        · refine forall_mem_cons.mpr ⟨⟨hname, ?_⟩, h⟩
          exact forall_mem_singleton.mpr ⟨⟨k, rfl⟩, hid⟩
        · exact forall_mem_cons.mpr ⟨hentry, ih hrest⟩
  exact hinsert t.versions h

theorem current (h : t.Declared plain frames) (hid : t.current? name = some id) :
    (plain → Plain name) ∧ (∃ k, id = versionId name k) ∧ DeclaredBy frames id := by
  obtain ⟨ids, hids, hhead⟩ := Option.bind_eq_some_iff.mp hid
  obtain ⟨hname, hall⟩ := h _ (Dict.mem_of_get? hids)
  exact ⟨hname, hall id (mem_of_mem_head? hhead)⟩

theorem modified (h : t.Declared plain frames) (hname : name ∈ t.modifiedSince base) : plain → Plain name := by
  obtain ⟨entry, hentry, rfl⟩ := mem_map.mp (mem_of_mem_filter hname)
  exact (h entry hentry).1

end NameTable.Declared

/-! ## Code -/

/-- Which ids code may use: those of plain names if a function around declares them, temporaries if the
    innermost function does, and all others. A name of the host can have the id of a temporary. -/
def Usable (plain : Prop) (setting : Setting) (scopes : Scopes) (id : String) : Prop :=
  plain → (IsVersion id → ∃ scope ∈ scopes, id ∈ scope) ∧
    ∀ n, id = tempId n →
      id ∈ scopes.headD [] ∨ ∃ name ∈ setting.options.globals, id = importId name

/-- What is taken for granted where code is generated. -/
structure Premises where
  setting : Setting
  /-- All names of the tree are plain. -/
  plain : Prop
  /-- All `await`s and `emit`s of the tree are in blocks. -/
  blocks : Prop
  /-- The nodes of the tree have what is looked up for them. -/
  ready : Prop
  /-- The innermost function is a generator. -/
  inBlock : Prop
  /-- The names that expressions of the tree read. -/
  reads : String → Prop := fun _ => True
  /-- All context references of the tree are bound to the value under test. -/
  bound : Prop := False
  /-- The locals of patterns around that are still to be declared. -/
  pending : String → Prop := fun _ => False
  /-- The indentation where the first version of a step is made. -/
  indent : Nat := setting.options.indent

def generating (frames : List Frame) : Bool := (frames.map Frame.isGenerator).headD false

namespace Premises

variable (p : Premises) (frames : List Frame)

/-- The setting in which the first version of a step is made. -/
def otherSetting : Setting := { p.setting with options := { p.setting.options with indent := p.indent } }

def within (inBlock : Prop) : Premises := { p with inBlock }

/-- The local of a pattern may be used: a function around declares it or is going to. A name of the host can
    have the id of a local. -/
def LocalFits (scopes : Scopes) (id : String) : Prop :=
  p.bound → (∃ scope ∈ scopes, id ∈ scope) ∨ p.pending id ∨
    ∃ name ∈ p.setting.options.globals, id = importId name

def Allows (scopes : Scopes) (id : String) : Prop :=
  Usable p.plain p.setting scopes id ∧ ∀ l, id = patternLocal l → p.LocalFits scopes id

def MayYield (isGenerator : Bool) : Prop := p.blocks → isGenerator = true

def NameFits (id : String) : Prop := (p.plain → IsVersion id) ∧ DeclaredBy frames id

def IdFits (id : String) : Prop := p.Allows (scopesOf frames) id

def ExprFits (e : Expr) : Prop := e.Fits p.Allows p.MayYield (scopesOf frames) (generating frames)

def PropertyFits (q : Property) : Prop := q.Fits p.Allows p.MayYield (scopesOf frames) (generating frames)

def StmtFits (stmt : Stmt) : Prop := stmt.Fits p.Allows p.MayYield (scopesOf frames) (generating frames)

def CodeFits (code : List Stmt) : Prop :=
  bodyFits p.Allows p.MayYield code (scopesOf frames) (generating frames)

theorem transports_allows : Transports Widens p.Allows p.Allows where
  push := .push
  id hwidens h := by
    refine ⟨fun hplain => ⟨fun hversion => ?_, fun n hn => ?_⟩, fun l hl hbound => ?_⟩
    · exact hwidens.exists_mem ((h.1 hplain).1 hversion)
    · exact ((h.1 hplain).2 n hn).imp_left hwidens.head
    · exact (h.2 l hl hbound).imp_left hwidens.exists_mem

end Premises

/-- The same functions, of which each declares at least what it did. -/
structure Grows (frames frames' : List Frame) : Prop where
  widens : Widens (scopesOf frames) (scopesOf frames')
  generators : frames'.map Frame.isGenerator = frames.map Frame.isGenerator

namespace Grows

variable {a b c : List Frame}

theorem trans (h : Grows a b) (h' : Grows b c) : Grows a c :=
  ⟨h.widens.trans h'.widens, h'.generators.trans h.generators⟩

theorem generating_eq (h : Grows a b) : generating b = generating a := by
  unfold generating
  rw [h.generators]

end Grows

/-- What goes on to hold where functions declare more. -/
def Stable {α : Type} (P : List Frame → α → Prop) : Prop :=
  ∀ frames frames' a, Grows frames frames' → P frames a → P frames' a

section Stable

variable {p : Premises}

theorem stable_name : Stable p.NameFits := fun _ _ _ hg h => ⟨h.1, hg.widens.exists_mem h.2⟩

theorem stable_id : Stable p.IdFits := fun _ _ _ hg h => p.transports_allows.id hg.widens h

theorem stable_expr : Stable p.ExprFits := by
  intro _ _ e hg h
  unfold Premises.ExprFits
  rw [hg.generating_eq]
  exact fits_transport p.transports_allows (fun _ h => h) e hg.widens h

theorem stable_property : Stable p.PropertyFits := by
  intro _ _ q hg h
  cases q with
  | named key value => exact stable_expr _ _ value hg h
  | computed key value => exact ⟨stable_expr _ _ key hg h.1, stable_expr _ _ value hg h.2⟩

theorem stable_stmt : Stable p.StmtFits := by
  intro _ _ stmt hg h
  unfold Premises.StmtFits
  rw [hg.generating_eq]
  exact stmtFits_transport p.transports_allows (fun _ h => h) stmt hg.widens h

theorem stable_code : Stable p.CodeFits := fun _ _ _ hg h =>
  bodyFits_iff.mpr fun stmt hstmt => stable_stmt _ _ stmt hg (bodyFits_iff.mp h stmt hstmt)

end Stable

/-! ## Steps -/

/-- What a step of the first kind does to names is within what one of the second kind does. -/
class AtMost (j k : Nat) : Prop where
  le : j ≤ k

instance (k : Nat) : AtMost 0 k := ⟨Nat.zero_le k⟩

instance (k : Nat) : AtMost k k := ⟨Nat.le_refl k⟩

instance : AtMost 1 2 := ⟨by decide⟩

/-- A later state in the same functions. Names have been read, written if `k` is one, or made parameters of the
    innermost function if it is two. -/
structure Follows (reads : String → Prop) (k : Nat) (s s' : State) : Prop extends Later (k - 1) s s' where
  generators : s'.frames.map Frame.isGenerator = s.frames.map Frame.isGenerator
  covers : s.names.Covers s'.names
  gains : k = 0 → s.names.Gains reads s'.names

namespace Follows

variable {reads : String → Prop} {j k : Nat} {s s₁ s₂ : State}

theorem refl (s : State) : Follows reads k s s := ⟨.refl s, rfl, .refl _, fun _ => .refl _⟩

theorem weaken (h : Follows reads j s s₁) (hjk : j ≤ k) : Follows reads k s s₁ :=
  ⟨h.toLater.weaken (Nat.sub_le_sub_right hjk 1), h.generators, h.covers, fun hk => h.gains (by omega)⟩

theorem trans (h₁ : Follows reads j s s₁) (h₂ : Follows reads k s₁ s₂) [hjk : AtMost j k] :
    Follows reads k s s₂ :=
  ⟨(h₁.weaken hjk.le).toLater.trans h₂.toLater, h₂.generators.trans h₁.generators,
    fun name hname => h₂.covers name (h₁.covers name hname), fun hk =>
      (h₁.gains (Nat.eq_zero_of_le_zero (hk ▸ hjk.le))).trans (h₂.gains hk)⟩

theorem grows (h : Follows reads k s s₁) : Grows s.frames s₁.frames := ⟨h.widens, h.generators⟩

end Follows

/-- A state in which code may be generated. -/
structure Premises.Holds (p : Premises) (s : State) : Prop where
  tidy : Tidy p.plain p.setting s
  block : p.inBlock → generating s.frames = true

/-- From a state in which they may be made the two steps do the same. If they succeed, the state is tidy
    and later, and what they give is `P` inside the functions around. -/
def Premises.Does {α : Type} (p : Premises) (k : Nat) (P : List Frame → α → Prop) (s : State)
    (x y : Emit α) : Prop :=
  p.Holds s → (x.run p.otherSetting).run s = (y.run p.setting).run s ∧
    match (y.run p.setting).run s with
    | .ok (a, s') => Tidy p.plain p.setting s' ∧ Follows p.reads k s s' ∧ P s'.frames a
    | .error e => p.ready → ∃ tag position, e = .unexpected tag position

def Premises.Always {α : Type} (p : Premises) (P : List Frame → α → Prop) (x y : Emit α) : Prop :=
  ∀ s, p.Does 0 P s x y

def Premises.Writes {α : Type} (p : Premises) (P : List Frame → α → Prop) (x y : Emit α) : Prop :=
  ∀ s, p.Does 1 P s x y

section Steps

variable {α β ι κ : Type} {p : Premises} {j k : Nat} {s : State} {P : List Frame → α → Prop}
  {Q : List Frame → β → Prop} {x y : Emit α}

theorem does_of_holds (h : p.Holds s → p.Does k P s x y) : p.Does k P s x y := fun hs => h hs hs

/-- What is known of a step that succeeds. -/
theorem Premises.Does.post (h : p.Does k P s x y) (hs : p.Holds s) {a : α} {s' : State}
    (hrun : Emits p.setting y s a s') :
    Tidy p.plain p.setting s' ∧ Follows p.reads k s s' ∧ P s'.frames a := by
  have hpost := (h hs).2
  rwa [hrun] at hpost

theorem does_pure {a : α} (h : P s.frames a) : p.Does k P s (pure a) (pure a) :=
  fun hs => ⟨rfl, hs.tidy, .refl s, h⟩

theorem does_fail {e : EmitError} (h : p.ready → ∃ tag position, e = .unexpected tag position) :
    p.Does k P s (fail e) (fail e) := fun _ => ⟨rfl, h⟩

theorem does_missing {found : Option ι} {e : EmitError} (hfound : p.ready → found.isSome)
    (hnone : found = none) : p.Does k P s (fail e) (fail e) :=
  does_fail fun hready => nomatch hnone ▸ hfound hready

/-- One step after another. The second may use all that is known of the first. -/
theorem Premises.Does.bind_run {f g : α → Emit β} (hx : p.Does j P s x y)
    (hf : ∀ a s₁, Emits p.setting y s a s₁ → Follows p.reads j s s₁ → P s₁.frames a →
      p.Does k Q s₁ (f a) (g a))
    [hjk : AtMost j k] : p.Does k Q s (x >>= f) (y >>= g) := by
  intro hs
  obtain ⟨heq, hpost⟩ := hx hs
  rw [ReaderT.run_bind, StateT.run_bind, ReaderT.run_bind, StateT.run_bind, heq]
  cases hrun : (y.run p.setting).run s with
  | error e =>
    rw [hrun] at hpost
    exact ⟨rfl, hpost⟩
  | ok result =>
    obtain ⟨a, s₁⟩ := result
    rw [hrun] at hpost
    obtain ⟨hs₁, hfollows, ha⟩ := hpost
    have hblock (hin : p.inBlock) : generating s₁.frames = true :=
      hfollows.grows.generating_eq.trans (hs.block hin)
    obtain ⟨heq', hpost'⟩ := hf a s₁ hrun hfollows ha ⟨hs₁, hblock⟩
    refine ⟨heq', ?_⟩
    change match ((g a).run p.setting).run s₁ with
      | .ok (b, s') => Tidy p.plain p.setting s' ∧ Follows p.reads k s s' ∧ Q s'.frames b
      | .error e => p.ready → ∃ tag position, e = .unexpected tag position
    cases hrun' : ((g a).run p.setting).run s₁ with
    | error e =>
      rw [hrun'] at hpost'
      exact hpost'
    | ok result =>
      rw [hrun'] at hpost'
      exact ⟨hpost'.1, hfollows.trans hpost'.2.1, hpost'.2.2⟩

theorem Premises.Does.bind {f g : α → Emit β} (hx : p.Does j P s x y)
    (hf : ∀ a s₁, Follows p.reads j s s₁ → P s₁.frames a → p.Does k Q s₁ (f a) (g a))
    [hjk : AtMost j k] : p.Does k Q s (x >>= f) (y >>= g) := hx.bind_run fun a s₁ _ => hf a s₁

theorem Premises.Does.map {f : α → β} (hx : p.Does j P s x y) (hf : ∀ frames a, P frames a → Q frames (f a))
    [hjk : AtMost j k] : p.Does k Q s (do return f (← x)) (do return f (← y)) :=
  hx.bind fun a _ _ ha => does_pure (hf _ a ha)

theorem Premises.Does.ite {c : Prop} [Decidable c] {x' y' : Emit α} (hx : p.Does k P s x y)
    (hy : p.Does k P s x' y') : p.Does k P s (if c then x else x') (if c then y else y') := by
  split
  · exact hx
  · exact hy

theorem does_get {f g : State → Emit β} (h : p.Does k Q s (f s) (g s)) :
    p.Does k Q s (get >>= f) (get >>= g) := h

theorem does_read {f g : Setting → Emit β} (h : p.Does k Q s (f p.setting) (g p.setting))
    (hf : f p.otherSetting = f p.setting) : p.Does k Q s (read >>= f) (read >>= g) := by
  have hboth : p.Does k Q s (f p.otherSetting) (g p.setting) := by rwa [hf]
  exact hboth

/-- A step inside of another, as in a function of its own. -/
theorem Premises.Does.around {inner : Prop} {x' y' : Emit β} {s₁ : State} (finish : α × State → β × State)
    (hx : (x'.run p.otherSetting).run s = ((x.run p.otherSetting).run s₁).bind fun r => .ok (finish r))
    (hy : (y'.run p.setting).run s = ((y.run p.setting).run s₁).bind fun r => .ok (finish r))
    (h : (p.within inner).Does k P s₁ x y) (hs₁ : p.Holds s → (p.within inner).Holds s₁)
    (hfinish : p.Holds s → ∀ a s₂, Tidy p.plain p.setting s₂ → Follows p.reads k s₁ s₂ → P s₂.frames a →
      Tidy p.plain p.setting (finish (a, s₂)).2 ∧ Follows p.reads j s (finish (a, s₂)).2 ∧
        Q (finish (a, s₂)).2.frames (finish (a, s₂)).1) : p.Does j Q s x' y' := by
  intro hs
  obtain ⟨heq, hpost⟩ := h (hs₁ hs)
  change (x.run p.otherSetting).run s₁ = (y.run p.setting).run s₁ at heq
  dsimp only [Premises.within] at hpost
  rw [hx, hy, heq]
  cases hrun : (y.run p.setting).run s₁ with
  | error e =>
    rw [hrun] at hpost
    exact ⟨rfl, hpost⟩
  | ok result =>
    rw [hrun] at hpost
    exact ⟨rfl, hfinish hs result.1 result.2 hpost.1 hpost.2.1 hpost.2.2⟩

theorem Premises.Does.imp_later {P' : List Frame → α → Prop} (h : p.Does j P s x y)
    (himp : ∀ s₁ a, Follows p.reads j s s₁ → P s₁.frames a → P' s₁.frames a) [hjk : AtMost j k] :
    p.Does k P' s x y := by
  rw [← bind_pure x, ← bind_pure y]
  exact h.bind fun a s₁ hfollows ha => does_pure (himp s₁ a hfollows ha)

theorem Premises.Does.imp {P' : List Frame → α → Prop} (h : p.Does j P s x y)
    (himp : ∀ frames a, P frames a → P' frames a) [hjk : AtMost j k] : p.Does k P' s x y :=
  h.imp_later fun s₁ a _ => himp s₁.frames a

/-- A step for each member of two lists whose members are related, and what is known of the members of the
    second list if all steps succeed. -/
theorem does_mapM_known (hP : Stable P) {R : ι → κ → Prop} {S : κ → Prop} {f : ι → Emit α} {g : κ → Emit α}
    {xs : List ι} {ys : List κ} (hxys : Forall₂ R xs ys) (h : ∀ i j, R i j → ∀ s₁, Follows p.reads k s s₁ →
      p.Does k (fun frames a => S j ∧ P frames a) s₁ (f i) (g j)) :
    p.Does k (fun frames as => (∀ j ∈ ys, S j) ∧ ∀ a ∈ as, P frames a) s (xs.mapM f) (ys.mapM g) := by
  suffices hall : ∀ s₁, Follows p.reads k s s₁ →
      p.Does k (fun frames as => (∀ j ∈ ys, S j) ∧ ∀ a ∈ as, P frames a) s₁ (xs.mapM f) (ys.mapM g) from
    hall s (.refl s)
  induction hxys with
  | nil => exact fun _ _ => does_pure (by simp)
  | @cons i j is js hij _ ih =>
    intro s₁ hfollows₁
    rw [mapM_cons, mapM_cons]
    refine (h i j hij s₁ hfollows₁).bind fun a s₂ hfollows₂ ha => ?_
    refine (ih s₂ (hfollows₁.trans hfollows₂)).bind fun as s₃ hfollows₃ has => does_pure ?_
    exact ⟨forall_mem_cons.mpr ⟨ha.1, has.1⟩, forall_mem_cons.mpr ⟨hP _ _ a hfollows₃.grows ha.2, has.2⟩⟩

theorem does_mapM₂ (hP : Stable P) {R : ι → κ → Prop} {f : ι → Emit α} {g : κ → Emit α}
    {xs : List ι} {ys : List κ} (hxys : Forall₂ R xs ys)
    (h : ∀ i j, R i j → ∀ s₁, Follows p.reads k s s₁ → p.Does k P s₁ (f i) (g j)) :
    p.Does k (fun frames as => ∀ a ∈ as, P frames a) s (xs.mapM f) (ys.mapM g) :=
  (does_mapM_known (S := fun _ => True) hP hxys fun i j hij s₁ hfollows =>
    (h i j hij s₁ hfollows).imp fun _ _ ha => ⟨trivial, ha⟩).imp fun _ _ has => has.2

theorem does_mapM (hP : Stable P) {f : ι → Emit α} {xs : List ι}
    (h : ∀ i ∈ xs, ∀ s₁, Follows p.reads k s s₁ → p.Does k P s₁ (f i) (f i)) :
    p.Does k (fun frames as => ∀ a ∈ as, P frames a) s (xs.mapM f) (xs.mapM f) := by
  have hxs : Forall₂ (fun i j => i = j ∧ i ∈ xs) xs xs := forall₂_same.mpr fun i hi => ⟨rfl, hi⟩
  refine does_mapM₂ hP hxs ?_
  rintro i _ ⟨rfl, hi⟩
  exact h i hi

end Steps

end Motif.Emit
