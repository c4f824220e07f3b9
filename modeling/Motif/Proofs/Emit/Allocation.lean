import Mathlib.Data.List.Induction
import Motif.Proofs.Emit.Ids
import Motif.Script.Printer

/-!
# What is handed out once

Ids of names and temporaries are drawn from one allocator in any order, and no id is drawn twice
(`drawAll_distinct`). Constants are put to use in any order as well, and each is declared once, in the
order of first use and under the id that all uses of it were given (`useAll_declares_once`).
-/

namespace Motif.Emit

open List Script

/-! ## Ids -/

namespace IdAllocator

/-- Something that an id is asked for. -/
inductive Draw where
  | version (name : String)
  | temp
  deriving DecidableEq

def draw (ids : IdAllocator) : Draw → String × IdAllocator
  | .version name => ids.version name
  | .temp => ids.temp

def drawAll (ids : IdAllocator) : List Draw → List String × IdAllocator
  | [] => ([], ids)
  | d :: draws =>
    let (id, ids) := ids.draw d
    let (rest, ids) := ids.drawAll draws
    (id :: rest, ids)

def count (ids : IdAllocator) (name : String) : Nat := (Dict.get? name ids.versions).getD 0

/-- An id that an allocator has not handed out so far. -/
inductive Unused (ids : IdAllocator) : Draw → String → Prop where
  | version {name : String} (k : Nat) (hk : ids.count name ≤ k) : Unused ids (.version name) (versionId name k)
  | temp (n : Nat) (hn : ids.temps < n) : Unused ids .temp (tempId n)

variable {ids : IdAllocator} {d e : Draw} {id : String}

def Draw.IsPlain (d : Draw) : Prop := ∀ name, d = .version name → Plain name

theorem count_version (ids : IdAllocator) (name other : String) :
    (ids.version name).2.count other = ids.count other + if other = name then 1 else 0 := by
  simp only [count, version, Dict.get?_set]
  by_cases h : name = other
  · simp [h]
  · simp [h, Ne.symm h]

theorem unused_draw (ids : IdAllocator) (d : Draw) : Unused ids d (ids.draw d).1 := by
  cases d with
  | version name => exact .version _ (Nat.le_refl _)
  | temp => exact .temp _ (Nat.lt_succ_self _)

theorem Unused.of_draw (h : Unused (ids.draw d).2 e id) : Unused ids e id := by
  cases h with
  | @version name k hk =>
    refine .version k (Nat.le_trans ?_ hk)
    cases d with
    | version other =>
      rw [draw, count_version]
      exact Nat.le_add_right _ _
    | temp => exact Nat.le_refl _
  | temp n hn =>
    refine .temp n (Nat.lt_of_le_of_lt ?_ hn)
    cases d with
    | version other => exact Nat.le_refl _
    | temp => exact Nat.le_succ _

theorem Unused.isVersion {name : String} (h : Unused ids (.version name) id) (hname : Plain name) :
    IsVersion id := by
  cases h with
  | version k => exact ⟨name, k, hname, rfl⟩

theorem Unused.isReserved_eq (h : Unused ids d id) : isReserved id = false := by
  cases h with
  | version k => exact not_isReserved_versionId _ k
  | temp n =>
    rw [isReserved, contains_eq_mem, decide_eq_false_iff_not]
    intro hmem
    exact reserved_undecorated _ hmem (by simp [tempId, String.toList_append])

theorem Unused.ne_draw (hd : d.IsPlain) (he : e.IsPlain) (h : Unused (ids.draw d).2 e id) :
    (ids.draw d).1 ≠ id := by
  intro heq
  cases h with
  | @version name k hk =>
    cases d with
    | version other =>
      obtain ⟨rfl, rfl⟩ := versionId_inj (hd _ rfl).undecorated (he _ rfl).undecorated heq
      rw [draw, count_version, if_pos rfl] at hk
      exact Nat.not_succ_le_self _ hk
    | temp => exact (Internal.temp _).not_isVersion ⟨name, k, he _ rfl, heq⟩
  | temp n hn =>
    cases d with
    | version other => exact (Internal.temp _).not_isVersion ⟨other, _, hd _ rfl, heq.symm⟩
    | temp =>
      have hn' : ids.temps + 1 < n := hn
      rw [← append_toString_inj heq] at hn'
      exact Nat.lt_irrefl _ hn'

theorem unused_of_mem_drawAll (draws : List Draw) (ids : IdAllocator) :
    ∀ x ∈ draws.zip (ids.drawAll draws).1, Unused ids x.1 x.2 := by
  induction draws generalizing ids with
  | nil => nofun
  | cons d draws ih => exact forall_mem_cons.mpr ⟨unused_draw ids d, fun x hx => (ih _ x hx).of_draw⟩

theorem length_drawAll (draws : List Draw) (ids : IdAllocator) :
    (ids.drawAll draws).1.length = draws.length := by
  induction draws generalizing ids with
  | nil => rfl
  | cons d draws ih => exact congrArg (· + 1) (ih _)

theorem exists_of_mem_drawAll {draws : List Draw} (h : id ∈ (ids.drawAll draws).1) :
    ∃ d, (d, id) ∈ draws.zip (ids.drawAll draws).1 := by
  obtain ⟨i, hi, rfl⟩ := mem_iff_getElem.mp h
  have hi' : i < draws.length := length_drawAll draws ids ▸ hi
  exact ⟨draws[i], mem_iff_getElem.mpr ⟨i, by simp only [length_zip]; omega, by simp⟩⟩

theorem nodup_drawAll (draws : List Draw) (ids : IdAllocator) (h : ∀ d ∈ draws, d.IsPlain) :
    (ids.drawAll draws).1.Nodup := by
  induction draws generalizing ids with
  | nil => exact nodup_nil
  | cons d draws ih =>
    obtain ⟨hd, hdraws⟩ := forall_mem_cons.mp h
    refine nodup_cons.mpr ⟨fun hmem => ?_, ih _ hdraws⟩
    obtain ⟨e, he⟩ := exists_of_mem_drawAll hmem
    have hunused := unused_of_mem_drawAll draws _ _ he
    exact hunused.ne_draw hd (hdraws e (of_mem_zip he).1) rfl

/-- Ids that are drawn for plain names and for temporaries, in any order, are all different, and none is a
    reserved word. Those of names are no temporaries and no locals of patterns, nor do they begin with a
    dollar sign. -/
theorem drawAll_distinct (draws : List Draw) (h : ∀ name, .version name ∈ draws → Plain name) :
    (drawAll {} draws).1.length = draws.length ∧ (drawAll {} draws).1.Nodup ∧
      (∀ id ∈ (drawAll {} draws).1, isReserved id = false) ∧
      ∀ name id, (Draw.version name, id) ∈ draws.zip (drawAll {} draws).1 →
        (∀ n, id ≠ tempId n ∧ id ≠ patternLocal n) ∧ ∀ rest, id ≠ "$" ++ rest := by
  have hplain : ∀ d ∈ draws, d.IsPlain := by
    rintro d hd name rfl
    exact h name hd
  refine ⟨length_drawAll draws {}, nodup_drawAll draws {} hplain, fun id hid => ?_, fun name id hid => ?_⟩
  · obtain ⟨d, hd⟩ := exists_of_mem_drawAll hid
    exact (unused_of_mem_drawAll draws {} _ hd).isReserved_eq
  · have hversion := (unused_of_mem_drawAll draws {} _ hid).isVersion (h name (of_mem_zip hid).1)
    refine ⟨fun n => ⟨?_, ?_⟩, hversion.ne_dollar⟩
    · rintro rfl
      exact (Internal.temp n).not_isVersion hversion
    · rintro rfl
      exact (Internal.patternLocal n).not_isVersion hversion

/-- A reserved word, a name that is another one cut short, and temporaries between them. -/
theorem drawAll_distinct_mixed :
    let draws : List Draw :=
      [.version "x", .temp, .version "new", .version "x1", .version "x", .temp, .version "new"]
    (drawAll {} draws).1 = ["x", "$t1", "new$0", "x1", "x$1", "$t2", "new$1"] ∧
      (drawAll {} draws).1.Nodup := by
  refine ⟨by decide, (drawAll_distinct _ fun name hname => ?_).2.1⟩
  simp only [mem_cons, Draw.version.injEq, reduceCtorEq, not_mem_nil, or_false, false_or] at hname
  rcases hname with rfl | rfl | rfl | rfl | rfl <;> decide

end IdAllocator

/-! ## Constants -/

namespace Constants

/-- The groups of constants, in the order in which they are declared. -/
inductive Group where
  | library
  | literal
  | call
  deriving DecidableEq

/-- What code uses of the constants of its module. -/
inductive Use where
  | library (name : String)
  | literal (text : String)
  | call (name : String) (args : List String)

def Use.group : Use → Group
  | .library _ => .library
  | .literal _ => .literal
  | .call _ _ => .call

/-- What tells a constant from the others of its group. -/
def Use.key : Use → String
  | .library name => name
  | .literal text => text
  | .call name args => builderText name args

def Group.bound : Group → String → String
  | .library, key => "$r." ++ key
  | _, key => key

def use (c : Constants) : Use → String × Constants
  | .library name => c.useImport name
  | .literal text => c.useLiteral text
  | .call name args => c.useBuilder name args

def useAll (c : Constants) : List Use → List String × Constants
  | [] => ([], c)
  | u :: us =>
    let (id, c) := c.use u
    let (rest, c) := c.useAll us
    (id :: rest, c)

/-- The keys of the uses of one group. -/
def keys (g : Group) (us : List Use) : List String := (us.filter (·.group = g)).map Use.key

def held (c : Constants) : Group → List String
  | .library => c.imports
  | .literal => c.literals
  | .call => c.builders

def idIn (used : List String) : Group → String → String
  | .library, key => importId key
  | .literal, key => literalId (used.eraseDups.idxOf key)
  | .call, key => builderId (used.eraseDups.idxOf key)

variable {c : Constants} {used : List String} {key : String}

theorem intern_eraseDups (key : String) (used : List String) :
    intern key used.eraseDups = ((used ++ [key]).eraseDups.idxOf key, (used ++ [key]).eraseDups) := by
  rw [eraseDups_append, intern]
  cases hidx : used.eraseDups.idxOf? key with
  | some i =>
    have hmem : key ∈ used.eraseDups := by
      rw [← isSome_idxOf?, hidx]
      rfl
    have hold : removeAll [key] used = [] := by simpa [removeAll] using mem_eraseDups.mp hmem
    rw [hold, eraseDups_nil, append_nil, idxOf_eq_getD_idxOf?, hidx]
    rfl
  | none =>
    have hnew : key ∉ used.eraseDups := idxOf?_eq_none_iff.mp hidx
    have hold : removeAll [key] used = [key] := by simpa [removeAll] using hnew
    rw [hold, eraseDups_cons, idxOf_append_of_notMem hnew]
    simp

theorem idIn_append (g : Group) (hkey : key ∈ used) (later : List String) :
    idIn (used ++ later) g key = idIn used g key := by
  have hidx : (used ++ later).eraseDups.idxOf key = used.eraseDups.idxOf key := by
    rw [eraseDups_append]
    exact idxOf_append_of_mem (mem_eraseDups.mpr hkey)
  cases g with
  | library => rfl
  | literal => rw [idIn, idIn, hidx]
  | call => rw [idIn, idIn, hidx]

theorem idIn_inj {other : String} (g : Group) (hkey : key ∈ used) (h : idIn used g key = idIn used g other) :
    key = other := by
  have hidx (h : used.eraseDups.idxOf key = used.eraseDups.idxOf other) : key = other :=
    (idxOf_inj (mem_eraseDups.mpr hkey)).mp h
  cases g with
  | library => exact importId_inj h
  | literal => exact hidx (append_toString_inj h)
  | call => exact hidx (append_toString_inj h)

def Holds (us : List Use) (c : Constants) : Prop := ∀ g, c.held g = (keys g us).eraseDups

theorem keys_append (g : Group) (us vs : List Use) : keys g (us ++ vs) = keys g us ++ keys g vs := by
  rw [keys, keys, keys, filter_append, map_append]

theorem keys_singleton (g : Group) (u : Use) : keys g [u] = if u.group = g then [u.key] else [] := by
  by_cases h : u.group = g <;> simp [keys, h]

theorem held_use (c : Constants) (u : Use) (g : Group) :
    (c.use u).2.held g = if u.group = g then (intern u.key (c.held g)).2 else c.held g := by
  cases u <;> cases g <;> rfl

/-- One more use: the constant of its key, and no other, is declared if it was not. -/
theorem Holds.use {us : List Use} (h : Holds us c) (u : Use) :
    (c.use u).1 = idIn (keys u.group (us ++ [u])) u.group u.key ∧ Holds (us ++ [u]) (c.use u).2 := by
  have hintern (g : Group) (hg : u.group = g) : intern u.key (c.held g) =
      ((keys g (us ++ [u])).eraseDups.idxOf u.key, (keys g (us ++ [u])).eraseDups) := by
    rw [h g, keys_append, keys_singleton, if_pos hg]
    exact intern_eraseDups u.key (keys g us)
  constructor
  · cases u with
    | library name => rfl
    | literal text =>
      have hid : intern text c.literals = _ := hintern .literal rfl
      rw [Constants.use, useLiteral, hid]
      rfl
    | call name args =>
      have hid : intern (builderText name args) c.builders = _ := hintern .call rfl
      rw [Constants.use, useBuilder, hid]
      rfl
  · intro g
    rw [held_use]
    split
    · next hg => rw [hintern g hg]
    · next hg => rw [keys_append, keys_singleton, if_neg hg, append_nil, h g]

theorem Holds.useAll {us : List Use} (h : Holds us c) (vs : List Use) :
    (c.useAll vs).1 = vs.map (fun u => idIn (keys u.group (us ++ vs)) u.group u.key) ∧
      Holds (us ++ vs) (c.useAll vs).2 := by
  induction vs generalizing us c with
  | nil => exact ⟨rfl, (append_nil us).symm ▸ h⟩
  | cons u vs ih =>
    obtain ⟨hid, hstep⟩ := h.use u
    obtain ⟨hids, hholds⟩ := ih hstep
    have hmem : u.key ∈ keys u.group (us ++ [u]) := by
      rw [keys_append, keys_singleton, if_pos rfl]
      exact mem_append_right _ mem_cons_self
    have hkept := idIn_append u.group hmem (keys u.group vs)
    rw [← keys_append, append_assoc, singleton_append] at hkept
    rw [append_assoc, singleton_append] at hids hholds
    exact ⟨congrArg₂ cons (hid.trans hkept.symm) hids, hholds⟩

theorem nodup_eraseDups (used : List String) : used.eraseDups.Nodup := by
  induction used using reverseRecOn with
  | nil => exact nodup_nil
  | append_singleton used key ih =>
    rw [eraseDups_append]
    by_cases h : key ∈ used
    · simpa [removeAll, h] using ih
    · have hnew : ∀ other ∈ used, ¬ other = key := fun other hother heq => h (heq ▸ hother)
      simpa [removeAll, h, nodup_append, ih, eraseDups_cons] using hnew

theorem mapIdx_eraseDups (f : Nat → String) (used : List String) :
    used.eraseDups.mapIdx (fun i text => Stmt.constant (f i) text) =
      used.eraseDups.map fun key => .constant (f (used.eraseDups.idxOf key)) key := by
  refine ext_getElem (by simp) fun i hi hi' => ?_
  simp [(nodup_eraseDups used).idxOf_getElem]

/-- The groups are declared one after the other, each in the order of first use. -/
theorem Holds.declarations {us : List Use} (h : Holds us c) :
    c.declarations = [Group.library, .literal, .call].flatMap fun g =>
      (keys g us).eraseDups.map fun key => .constant (idIn (keys g us) g key) (g.bound key) := by
  have himports : c.imports = _ := h .library
  have hliterals : c.literals = _ := h .literal
  have hbuilders : c.builders = _ := h .call
  rw [Constants.declarations, himports, hliterals, hbuilders, mapIdx_eraseDups, mapIdx_eraseDups, append_assoc]
  simp [idIn, Group.bound]

/-- The line that declares a constant. -/
def line (id text : String) : Nat × String := (0, "const " ++ id ++ " = " ++ text ++ ";")

theorem lines_append (indent : Nat) (body rest : List Stmt) :
    (bodyCode indent (body ++ rest)).lines = (bodyCode indent body).lines ++ (bodyCode indent rest).lines := by
  induction body with
  | nil => rfl
  | cons s body ih => exact (congrArg ((s.code indent).lines ++ ·) ih).trans (append_assoc ..).symm

theorem lines_constants (indent : Nat) (ids : String → String) (texts : String → String) (keys : List String) :
    (bodyCode indent (keys.map fun key => .constant (ids key) (texts key))).lines =
      keys.map fun key => line (ids key) (texts key) := by
  induction keys with
  | nil => rfl
  | cons key keys ih => exact congrArg (cons (line (ids key) (texts key))) ih

/-- Whatever constants are put to use, in whatever order: each use is given the id of its key, and two keys of
    one group have the same id only if they are the same. The declarations have one line for each key that was
    used, with its id: library functions come first, then literals, then calls, each group in the order of
    first use. -/
theorem useAll_declares_once (us : List Use) :
    ∃ idOf : Group → String → String,
      (useAll {} us).1 = us.map (fun u => idOf u.group u.key) ∧
      (∀ name, idOf .library name = "$" ++ name) ∧
      (∀ u ∈ us, ∀ v ∈ us, u.group = v.group →
        (idOf u.group u.key = idOf v.group v.key ↔ u.key = v.key)) ∧
      ∀ indent, (bodyCode indent (useAll {} us).2.declarations).lines =
        [Group.library, .literal, .call].flatMap fun g =>
          (keys g us).eraseDups.map fun key => line (idOf g key) (g.bound key) := by
  have hempty : Holds [] {} := fun g => by cases g <;> rfl
  obtain ⟨hids, hholds⟩ := hempty.useAll us
  refine ⟨fun g => idIn (keys g us) g, hids, fun _ => rfl, fun u hu v hv hgroup =>
    ⟨fun h => ?_, fun h => ?_⟩, ?_⟩
  · have hmem : u.key ∈ keys u.group us := mem_map_of_mem (mem_filter.mpr ⟨hu, by simp⟩)
    rw [← hgroup] at h
    exact idIn_inj _ hmem h
  · rw [hgroup, h]
  · intro indent
    rw [hholds.declarations]
    simp only [flatMap_cons, flatMap_nil, append_nil, lines_append, lines_constants, nil_append]

end Constants

end Motif.Emit
