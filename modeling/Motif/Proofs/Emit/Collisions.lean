import Motif.Proofs.Emit.Declared

/-!
# Which constants of a module collide

The constants of a module, which are library functions, names of the host, literals and cached calls, are
declared under ids of their own, and temporaries and pattern locals have ids of their own too. What can go
wrong is one thing only: the id of a name that the host provides is that name behind a dollar sign, and
such a name can be chosen so that its id is that of something else. `constants_distinct_iff` says that
this is the only way in which two constants, or a constant and a local, come to have the same id.
-/

namespace Motif.Emit

open Script IdAllocator Constants List

variable {id : String}

/-! ## The ids of constants -/

def constantId? : Stmt → Option String
  | .constant id _ => some id
  | _ => none

/-- The ids of the constants of a module, as its code has them. -/
def constantIds : Expr → List String
  | .paren (.function _ _ body) => body.filterMap constantId?
  | _ => []

def Constants.ownIds (c : Constants) : List String :=
  (List.range c.literals.length).map literalId ++ (List.range c.builders.length).map builderId

theorem filterMap_mapIdx {texts : List String} (f : Nat → String) :
    (texts.mapIdx fun i text => Stmt.constant (f i) text).filterMap constantId? =
      (List.range texts.length).map f := by
  have hsome : ∀ stmt ∈ texts.mapIdx fun i text => Stmt.constant (f i) text,
      constantId? stmt = some ((constantId? stmt).getD "") := by
    intro stmt hstmt
    obtain ⟨i, hi, rfl⟩ := mem_mapIdx.mp hstmt
    rfl
  rw [filterMap_congr hsome, filterMap_eq_map']
  refine ext_getElem (by simp) fun i hi hi' => ?_
  simp [constantId?]

theorem constantIds_enclose (setting : Setting) (c : Constants) (code : List Stmt) (made : Frame) :
    constantIds (enclose setting c code made) = c.imports.map importId ++ c.ownIds := by
  have hstrict : (if setting.options.strictMode then [Stmt.directive "use strict"] else []).filterMap
      constantId? = [] := by
    split <;> rfl
  have himports : (c.imports.map fun name => Stmt.constant (importId name) ("$r." ++ name)).filterMap
      constantId? = c.imports.map importId := by
    rw [filterMap_map]
    exact congrFun filterMap_eq_map c.imports
  simp only [enclose, constantIds, declarations, ownIds, filterMap_append, hstrict, himports,
    filterMap_mapIdx]
  simp [constantId?]

/-! ## The ids of locals -/

/-- A program uses an id inside a function that declares it. -/
def UsesLocal (e : Expr) (id : String) : Prop :=
  ¬ e.Respects (fun scopes other => other = id → ∀ scope ∈ scopes, id ∉ scope) []

/-- The ids that constants must not have: those of the library, the context and the exports of a module
    and of the result slot, and those of the temporaries and pattern locals that a program uses. -/
inductive Taken (e : Expr) : String → Prop where
  | fixed {id : String} (h : id ∈ ["$r", "$c", "$x", "$v"]) : Taken e id
  | temp (n : Nat) (h : UsesLocal e (tempId n)) : Taken e (tempId n)
  | patternLocal (n : Nat) (h : UsesLocal e (patternLocal n)) : Taken e (patternLocal n)

theorem Taken.internal {e : Expr} (h : Taken e id) : Internal id := by
  cases h with
  | fixed h =>
    simp only [mem_cons, not_mem_nil, or_false] at h
    rcases h with rfl | rfl | rfl | rfl
    · exact .library
    · exact .context
    · exact .exports
    · exact .result
  | temp n _ => exact .temp n
  | patternLocal n _ => exact .patternLocal n

theorem Taken.mark {e : Expr} (h : Taken e id) : mark id ≠ some 'l' ∧ mark id ≠ some 'b' := by
  cases h with
  | fixed h =>
    simp only [mem_cons, not_mem_nil, or_false] at h
    rcases h with rfl | rfl | rfl | rfl <;> decide
  | temp n _ => simp
  | patternLocal n _ => simp

/-! ## Collisions -/

theorem mem_ownIds {c : Constants} (h : id ∈ c.ownIds) :
    Internal id ∧ (mark id = some 'l' ∨ mark id = some 'b') := by
  rcases mem_append.mp h with h | h
  · obtain ⟨i, -, rfl⟩ := mem_map.mp h
    exact ⟨.literal i, .inl (mark_literalId i)⟩
  · obtain ⟨i, -, rfl⟩ := mem_map.mp h
    exact ⟨.builder i, .inr (mark_builderId i)⟩

theorem nodup_ownIds (c : Constants) : c.ownIds.Nodup := by
  refine nodup_append.mpr ⟨?_, ?_, ?_⟩
  · exact nodup_range.map fun _ _ h => append_toString_inj h
  · exact nodup_range.map fun _ _ h => append_toString_inj h
  · intro a ha b hb hab
    obtain ⟨i, -, rfl⟩ := mem_map.mp ha
    obtain ⟨j, -, rfl⟩ := mem_map.mp hb
    have hmark := congrArg mark hab
    simp at hmark

theorem Constants.Stocked.distinct_iff {setting : Setting} {c : Constants} (h : c.Stocked setting) (e : Expr) :
    ((c.imports.map importId ++ c.ownIds).Nodup ∧ ∀ id ∈ c.imports.map importId ++ c.ownIds, ¬ Taken e id) ↔
      ∀ name ∈ c.imports, name ∈ setting.options.globals →
        ¬ Taken e (importId name) ∧ importId name ∉ c.ownIds := by
  constructor
  · rintro ⟨hnodup, htaken⟩ name hname -
    have hmem : importId name ∈ c.imports.map importId := mem_map_of_mem hname
    refine ⟨htaken _ (mem_append_left _ hmem), fun hown => ?_⟩
    exact (nodup_append.mp hnodup).2.2 _ hmem _ hown rfl
  · intro hglobals
    have himport (name : String) (hname : name ∈ c.imports) :
        ¬ Taken e (importId name) ∧ importId name ∉ c.ownIds := by
      rcases h.known name hname with hlibrary | hglobal
      · have hinternal := not_internal_library hlibrary
        exact ⟨fun htaken => hinternal htaken.internal, fun hown => hinternal (mem_ownIds hown).1⟩
      · exact hglobals name hname hglobal
    refine ⟨nodup_append.mpr ⟨?_, nodup_ownIds c, ?_⟩, fun id hid => ?_⟩
    · exact h.nodup.map fun _ _ => importId_inj
    · rintro id hid _ hown rfl
      obtain ⟨name, hname, rfl⟩ := mem_map.mp hid
      exact (himport name hname).2 hown
    · rcases mem_append.mp hid with hid | hown
      · obtain ⟨name, hname, rfl⟩ := mem_map.mp hid
        exact (himport name hname).1
      · intro htaken
        exact (mem_ownIds hown).2.elim htaken.mark.1 htaken.mark.2

theorem exists_enclose {setting : Setting} {root : Node} {e : Expr} {imports : List String} {s : State}
    (h : Emits setting (program root) {} (e, imports) s) :
    imports = s.constants.imports ∧ ∃ code made, e = enclose setting s.constants code made := by
  obtain ⟨i, span, k⟩ := root
  cases k with
  | module body =>
    rw [Emits, ← programBy_compile, run_programBy] at h
    cases hresult : ((inFrame {} (statements (body.map compile))).run setting).run {} with
    | error error =>
      rw [hresult] at h
      cases h
    | ok result =>
      rw [hresult] at h
      cases h
      exact ⟨rfl, _, _, rfl⟩
  | _ => cases h

/-- Where code is generated, the constants of the module have distinct ids, none of which is `$r`, `$c`,
    `$x`, `$v` or a temporary or pattern local of the module, if and only if none of the names of the
    host that the module uses has such an id or that of a literal or cached call. -/
theorem constants_distinct_iff (options : Options) (annotations : Annotations) (root : Node)
    {m : GeneratedModule} (h : generate options annotations root = .ok m) :
    ∃ e s, Emits ⟨options, annotations⟩ (program root) {} (e, m.imports) s ∧ m.text = e.text options.indent ∧
      (((constantIds e).Nodup ∧ ∀ id ∈ constantIds e, ¬ Taken e id) ↔
        ∀ name ∈ m.imports, name ∈ options.globals →
          ¬ Taken e (importId name) ∧ importId name ∉ s.constants.ownIds) := by
  unfold generate at h
  cases hrun : ((program root).run { options, annotations }).run {} with
  | error error =>
    rw [hrun] at h
    cases h
  | ok result =>
    obtain ⟨⟨e, imports⟩, s⟩ := result
    rw [hrun] at h
    cases h
    refine ⟨e, s, hrun, rfl, ?_⟩
    have hmakes (n : Node) (_ : n ∈ root.children) :
        (namesOnly False ⟨options, annotations⟩).Makes (compile n) (compile n) :=
      makes_compile_self n (namesOnly_grants False.elim []) nofun
    have hfits := (programBy_does (namesOnly False _) hmakes).2
    dsimp only [namesOnly] at hfits
    rw [hrun] at hfits
    obtain ⟨himports, code, made, rfl⟩ := exists_enclose hrun
    cases himports
    rw [constantIds_enclose]
    exact hfits.2.distinct_iff _

/-! ### Names of the host -/

def pairModule (name : String) : Node :=
  .ofKind (.module [.ofKind (.exprStmt (.ofKind (.array [.ofKind (.ident name),
    .ofKind (.literal (.array [.number 1]))])))])

theorem constants_distinct_iff_host :
    (generate { globals := ["host"] } {} (pairModule "host")).isOk = true ∧
      ∃ e s, Emits ⟨{ globals := ["host"] }, {}⟩ (program (pairModule "host")) {} (e, ["host"]) s ∧
        (constantIds e).Nodup ∧ ∀ id ∈ constantIds e, ¬ Taken e id := by
  have hinternal : ¬ Internal (importId "host") := fun h => absurd h.of_importId (by decide)
  have hgenerate : (generate { globals := ["host"] } {} (pairModule "host")).toOption.map
      GeneratedModule.imports = some ["host"] := by decide
  cases hm : generate { globals := ["host"] } {} (pairModule "host") with
  | error error =>
    rw [hm] at hgenerate
    cases hgenerate
  | ok m =>
    rw [hm] at hgenerate
    have himports : m.imports = ["host"] := Option.some.inj hgenerate
    obtain ⟨e, s, hrun, -, hiff⟩ := constants_distinct_iff _ _ _ hm
    rw [himports] at hrun hiff
    refine ⟨rfl, e, s, hrun, hiff.mpr (forall_mem_singleton.mpr fun _ => ⟨?_, ?_⟩)⟩
    · exact fun htaken => hinternal htaken.internal
    · exact fun hown => hinternal (mem_ownIds hown).1

/-- A name `l0` that the host provides has the id of the first literal, and the module declares it
    twice. -/
theorem constants_not_distinct :
    ∃ e imports s, Emits ⟨{ globals := ["l0"] }, {}⟩ (program (pairModule "l0")) {} (e, imports) s ∧
      ¬ (constantIds e).Nodup := by
  have hids : (((program (pairModule "l0")).run ⟨{ globals := ["l0"] }, {}⟩).run {}).toOption.map
      (fun r => constantIds r.1.1) = some ["$l0", "$l0"] := by decide
  cases hrun : ((program (pairModule "l0")).run ⟨{ globals := ["l0"] }, {}⟩).run {} with
  | error error =>
    rw [hrun] at hids
    cases hids
  | ok result =>
    rw [hrun] at hids
    have hids : constantIds result.1.1 = ["$l0", "$l0"] := Option.some.inj hids
    refine ⟨_, _, _, hrun, ?_⟩
    rw [hids]
    decide

end Motif.Emit
