import Motif.Pass.Scope
import Motif.Proofs.Tree.Layer

/-!
# What the walk over scopes meets

A walk over a tree meets declarations, definitions of functions and uses of names. The list of them
in the order of the walk, the trail, says all there is to say about scopes: a use is undeclared if no
scope around it has a declaration of the name further up the trail (`undeclared`), and a function is
a redefinition if its own scope has (`redefined`). The walk keeps its declarations in a table of
annotations; `Records` ties that table and the diagnostics to the trail so far.
-/

namespace Motif

open List

def Path.owners (path : Path) : List Nat := path.containers.map Frame.id

namespace Scope

variable {s : Session}

/-! ## Trails -/

/-- What a walk meets. Scopes are known by the ids of the nodes that own them. -/
inductive Event where
  | declares (owner : Nat) (name : String)
  /-- A function's own name, in the scope around the function. -/
  | defines (function : Node) (owner : Nat) (name : String)
  /-- A use of a name, with the scopes around it, nearest first. -/
  | refers (user : Node) (around : List Nat) (name : String)

def Event.declaration? : Event → Option (Nat × String)
  | .declares owner name => some (owner, name)
  | .defines _ owner name => some (owner, name)
  | .refers .. => none

def declaredIn (trail : List Event) (owner : Nat) (name : String) : Bool :=
  trail.any fun e => e.declaration? == some (owner, name)

/-- A use of a name that none of the scopes around it has declared earlier. -/
def Event.undeclared? (earlier : List Event) : Event → Option (Node × String)
  | .refers user around name =>
    if around.any fun owner => declaredIn earlier owner name then none else some (user, name)
  | _ => none

/-- A function whose name has been declared earlier in the scope of the function. -/
def Event.redefined? (earlier : List Event) : Event → Option (Node × String)
  | .defines function owner name => if declaredIn earlier owner name then some (function, name) else none
  | _ => none

/-- What a test finds in a trail, given each event with those before it. -/
def findings {α : Type} (test : List Event → Event → Option α) (trail : List Event) : List α :=
  trail.zipIdx.filterMap fun (e, i) => test (trail.take i) e

def undeclared (trail : List Event) : List (Node × String) :=
  findings (fun earlier e => e.undeclared? earlier) trail

def redefined (trail : List Event) : List (Node × String) :=
  findings (fun earlier e => e.redefined? earlier) trail

/-! ## The trail of a tree -/

def paramNames (params : List Node) : List String :=
  params.filterMap fun p => match p.kind with
    | .param name _ _ => some name
    | _ => none

def declareAround (around : List Nat) (names : List String) : List Event :=
  around.head?.toList.flatMap fun owner => names.map (.declares owner)

/-- The trail of a node, given those of its children. A value comes before the target it is assigned
    to, a collection before the target of its range, and that before the guard. -/
def trailNode (n : Node) (below : Kind (List Nat → List Event)) (around : List Nat) : List Event :=
  let inner := if n.tag.isScopeContainer then n.id :: around else around
  let children := below.children.flatMap fun trail => trail inner
  match n.kind, below with
  | .ident name, _ => [.refers n around name]
  | .member _ property, .member object name => object inner ++ if property.isIdent then [] else name inner
  | .entry key _, .entry name value => (if key.isIdent then [] else name inner) ++ value inner
  | .function name params _ _, _ =>
    around.head?.toList.map (.defines n · name) ++ (paramNames params).map (.declares n.id)
      ++ children
  | .lambda params _, _ => (paramNames params).map (.declares n.id) ++ children
  | .assign target _, _ => children ++ declareAround around target.names
  | .range target _ _, .range _ collection guard =>
    collection inner ++ declareAround around target.names
      ++ guard.toList.flatMap fun trail => trail inner
  | .importAll _ localName, _ => declareAround around [localName]
  | .importFrom _ items, _ => declareAround around (items.map ModuleItem.visibleName)
  | .exported _ items, _ => items.map (fun item => .refers n around item.name) ++ children
  | _, _ => children

def trail : Node → List Nat → List Event := Node.fold trailNode

theorem trail_eq (n : Node) : trail n = trailNode n (n.kind.map trail) := Node.fold_eq trailNode n

/-- The trail of a module: the globals are declared before anything else. -/
def moduleTrail (globals : List String) (root : Node) : List Event :=
  globals.map (.declares root.id) ++ trail root []

def scopesInside (n : Node) (around : List Nat) : List Nat :=
  if n.tag.isScopeContainer then n.id :: around else around

/-- The children that the walk visits: all but the bare names of members and of entries. -/
def visited (n : Node) : List Node :=
  match n.kind with
  | .member object property => if property.isIdent then [object] else [object, property]
  | .entry key value => if key.isIdent then [value] else [key, value]
  | _ => n.children

def announced (n : Node) (around : List Nat) : List Event :=
  match n.kind with
  | .ident name => [.refers n around name]
  | .function name _ _ _ => around.head?.toList.map (.defines n · name)
  | .exported _ items => items.map fun item => .refers n around item.name
  | _ => []

theorem visited_sublist (n : Node) : (visited n).Sublist n.children := by
  obtain ⟨i, span, k⟩ := n
  cases k with
  | member object property =>
    dsimp only [visited]
    split
    · exact .cons_cons object (nil_sublist _)
    · exact .refl _
  | entry key value =>
    dsimp only [visited]
    split
    · exact .cons key (.refl _)
    · exact .refl _
  | _ => exact .refl _

section Shown

variable {α : Type} {f : Event → Option α} (hf : ∀ owner name, f (.declares owner name) = none)

include hf

theorem filterMap_declares (owner : Nat) (names : List String) :
    (names.map (Event.declares owner)).filterMap f = [] := by
  rw [filterMap_map]
  exact filterMap_eq_nil_iff.mpr fun name _ => hf owner name

/-- What a trail shows, other than declarations: first what the node has met itself, and then what the
    trails of the children that are visited show. -/
theorem filterMap_trail (n : Node) (around : List Nat) :
    (trail n around).filterMap f = (announced n around).filterMap f ++
      (visited n).flatMap fun c => (trail c (scopesInside n around)).filterMap f := by
  have hdeclares := filterMap_declares hf
  have haround (names : List String) : (declareAround around names).filterMap f = [] := by
    simp [declareAround, filterMap_flatMap, hdeclares]
  have hchildren : ((n.kind.map trail).children.flatMap fun t => t (scopesInside n around)).filterMap f =
      n.children.flatMap fun c => (trail c (scopesInside n around)).filterMap f := by
    rw [Kind.children_map, flatMap_map, filterMap_flatMap, Node.children]
  -- What is declared is dropped, so the announcements and the children are what is left.
  rw [trail_eq]
  unfold trailNode
  dsimp only
  rw [← scopesInside]
  obtain ⟨i, span, k⟩ := n
  cases k with
  | member | entry =>
    dsimp only [visited, announced, Kind.map]
    split <;> simp
  | function name params guard body =>
    dsimp only
    rw [filterMap_append, filterMap_append, hdeclares, append_nil, hchildren]
    rfl
  | lambda params body =>
    dsimp only
    rw [filterMap_append, hdeclares, hchildren]
    rfl
  | assign target value =>
    dsimp only
    rw [filterMap_append, haround, append_nil, hchildren]
    rfl
  | range target collection guard =>
    dsimp only [Kind.map]
    rw [filterMap_append, filterMap_append, haround, append_nil, ← filterMap_append]
    exact hchildren
  | importAll | importFrom => exact haround _
  | exported decl items =>
    dsimp only
    rw [filterMap_append, hchildren]
    rfl
  | ident name => exact (append_nil _).symm
  | _ => exact hchildren

theorem filterMap_moduleTrail (globals : List String) (root : Node) :
    (moduleTrail globals root).filterMap f = (trail root []).filterMap f := by
  rw [moduleTrail, filterMap_append, filterMap_declares hf]
  rfl

end Shown

/-! ## Findings -/

section Findings

variable {α : Type} {test : List Event → Event → Option α}

theorem findings_concat (es : List Event) (e : Event) :
    findings test (es ++ [e]) = findings test es ++ (test es e).toList := by
  unfold findings
  rw [zipIdx_append, filterMap_append]
  congr 1
  · refine filterMap_congr fun x hx => ?_
    obtain ⟨d, i⟩ := x
    have hi : i < es.length := by
      have := mem_zipIdx hx
      omega
    dsimp only
    rw [take_append_of_le_length (Nat.le_of_lt hi)]
  · rw [zipIdx_singleton, filterMap_cons, filterMap_nil, Nat.zero_add]
    dsimp only
    rw [take_left]
    cases test es e <;> rfl

end Findings

theorem declaredIn_append (es es' : List Event) (owner : Nat) (name : String) :
    declaredIn (es ++ es') owner name = (declaredIn es owner name || declaredIn es' owner name) :=
  any_append

/-! ## The walk records its trail -/

def undeclaredRemark (finding : Node × String) : Nat × String :=
  (finding.1.id, "'" ++ finding.2 ++ "' is used before it is declared")

def redefinedRemark (finding : Node × String) : Nat × String :=
  (finding.1.id, "function '" ++ finding.2 ++ "' redefines an existing declaration")

def remarks (kind : DiagnosticKind) (diagnostics : List Diagnostic) : List (Nat × String) :=
  (diagnostics.filter fun d => d.kind == kind).map fun d => (d.node, d.message)

/-- The session knows what a trail has declared, and has told what there is to tell about it. -/
structure Records (s : Session) (trail : List Event) : Prop where
  declared : ∀ id name, s.annotations.isDeclared id name = declaredIn trail id name
  told : remarks .declaration s.diagnostics = (undeclared trail).map undeclaredRemark
  warned : remarks .shadowedFunction s.diagnostics = (redefined trail).map redefinedRemark
  marked : ∀ id, s.annotations.isShadow id = (redefined trail).any fun f => f.1.id == id

theorem remarks_append (kind : DiagnosticKind) (ds : List Diagnostic) (d : Diagnostic) :
    remarks kind (ds ++ [d]) = remarks kind ds ++ if d.kind = kind then [(d.node, d.message)] else [] := by
  unfold remarks
  rw [filter_append, map_append]
  by_cases h : d.kind = kind <;> simp [h]

theorem declarations_annotate (a : Annotations) (owner id : Nat) (names : List String) :
    (a.annotate owner (.scopeDeclarations names)).declarations id =
      if owner = id then names else a.declarations id := by
  unfold Annotations.declarations
  rw [Annotations.notes_annotate]
  split <;> rfl

theorem isDeclared_declare (a : Annotations) (owner id : Nat) (name other : String) :
    (a.declare owner name).isDeclared id other =
      (a.isDeclared id other || ((owner, name) == (id, other))) := by
  unfold Annotations.declare
  by_cases howner : owner = id
  · subst howner
    split
    · rename_i hdeclared
      by_cases hname : name = other
      · simp [← hname, hdeclared]
      · simp [hname]
    · unfold Annotations.isDeclared
      rw [declarations_annotate, if_pos rfl, Bool.eq_iff_iff]
      by_cases hname : name = other
      · simp [hname]
      · simp [hname, Ne.symm hname]
  · split
    · simp [howner]
    · unfold Annotations.isDeclared
      rw [declarations_annotate, if_neg howner]
      simp [howner]

theorem isShadow_declare (a : Annotations) (owner id : Nat) (name : String) :
    (a.declare owner name).isShadow id = a.isShadow id := by
  unfold Annotations.declare Annotations.isShadow
  split
  · rfl
  · rw [Annotations.notes_annotate]
    split
    · rename_i h
      rw [h]
      rfl
    · rfl

variable {es : List Event}

theorem Records.report (h : Records s es) {d : Diagnostic} (hd : d.kind ≠ .declaration)
    (hs : d.kind ≠ .shadowedFunction) : Records (s.report d) es where
  declared := h.declared
  told := by
    rw [← h.told, Session.report, remarks_append, if_neg hd, append_nil]
  warned := by
    rw [← h.warned, Session.report, remarks_append, if_neg hs, append_nil]
  marked := h.marked

theorem Records.declare (h : Records s es) (owner : Nat) (name : String) :
    Records { s with annotations := s.annotations.declare owner name } (es ++ [.declares owner name]) where
  declared id other := by
    rw [isDeclared_declare, h.declared, declaredIn_append]
    congr 1
    simp [declaredIn, Event.declaration?]
  told := by
    rw [undeclared, findings_concat, h.told]
    simp [Event.undeclared?, undeclared]
  warned := by
    rw [redefined, findings_concat, h.warned]
    simp [Event.redefined?, redefined]
  marked id := by
    rw [isShadow_declare, h.marked, redefined, redefined, findings_concat]
    simp [Event.redefined?]

theorem container?_of_owners {path : Path} (hpath : path.owners ≠ []) :
    ∃ frame, path.container? = some frame ∧ path.owners.head? = some frame.id := by
  unfold Path.owners Path.containers at *
  unfold Path.container?
  rw [← head?_filter, head?_map]
  cases h : (path.filter fun f => f.tag.isScopeContainer).head? with
  | some frame => exact ⟨frame, rfl, rfl⟩
  | none =>
    rw [head?_eq_none_iff] at h
    rw [h] at hpath
    exact absurd rfl hpath

theorem Records.declareAll (h : Records s es) (owner : Nat) (names : List String) :
    Records { s with annotations := s.annotations.declareAll owner names }
      (es ++ names.map (.declares owner)) := by
  induction names generalizing s es with
  | nil =>
    rw [map_nil, append_nil]
    exact h
  | cons name names ih =>
    rw [map_cons, append_cons]
    exact ih (h.declare owner name)

theorem isVisible_eq (h : Records s es) (path : Path) (name : String) :
    isVisible s.annotations path name = path.owners.any fun owner => declaredIn es owner name := by
  unfold isVisible Path.owners
  rw [any_map]
  congr 1
  funext frame
  exact h.declared frame.id name

theorem Records.refer {s' : Session} (h : Records s es) (n : Node) (around : List Nat) (name : String)
    (hannotations : s'.annotations = s.annotations)
    (hundeclared : remarks .declaration s'.diagnostics = remarks .declaration s.diagnostics ++
      ((Event.refers n around name).undeclared? es).toList.map undeclaredRemark)
    (hredefined : remarks .shadowedFunction s'.diagnostics = remarks .shadowedFunction s.diagnostics) :
    Records s' (es ++ [.refers n around name]) where
  declared id other := by
    rw [hannotations, h.declared, declaredIn_append]
    simp [declaredIn, Event.declaration?]
  told := by
    rw [hundeclared, h.told, undeclared, undeclared, findings_concat,
      map_append]
  warned := by
    rw [hredefined, h.warned, redefined, redefined, findings_concat]
    simp [Event.redefined?]
  marked id := by
    rw [hannotations, h.marked, redefined, redefined, findings_concat]
    simp [Event.redefined?]

/-- The session after a function: one whose name is taken is marked and told of, any other is a
    declaration. -/
def defined (s : Session) (n : Node) (owner : Nat) (name : String) : Session :=
  if s.annotations.isDeclared owner name then
    (s.annotate n.id .functionShadow).report
      (.about n .shadowedFunction (redefinedRemark (n, name)).2)
  else { s with annotations := s.annotations.declare owner name }

theorem declarations_shadow (a : Annotations) (id other : Nat) :
    (a.annotate id .functionShadow).declarations other = a.declarations other := by
  unfold Annotations.declarations
  rw [Annotations.notes_annotate]
  split
  · rename_i h
    rw [h]
    rfl
  · rfl

theorem isShadow_shadow (a : Annotations) (id other : Nat) :
    (a.annotate id .functionShadow).isShadow other = (a.isShadow other || id == other) := by
  unfold Annotations.isShadow
  rw [Annotations.notes_annotate]
  by_cases h : id = other <;> simp [h, Notes.set]

theorem Records.define (h : Records s es) (n : Node) (owner : Nat) (name : String) :
    Records (defined s n owner name) (es ++ [.defines n owner name]) := by
  unfold defined
  have hundeclared : undeclared (es ++ [.defines n owner name]) = undeclared es := by
    rw [undeclared, findings_concat]
    simp [Event.undeclared?, undeclared]
  have hredefined : redefined (es ++ [.defines n owner name]) =
      redefined es ++ if s.annotations.isDeclared owner name then [(n, name)] else [] := by
    rw [redefined, findings_concat, Event.redefined?, h.declared]
    split <;> rfl
  -- A name that is there already is reported and marked, and only a new one is declared.
  cases hdeclared : s.annotations.isDeclared owner name with
  | true =>
    rw [if_pos hdeclared] at hredefined
    rw [if_pos rfl]
    refine ⟨fun id other => ?_, ?_, ?_, fun id => ?_⟩
    · show (s.annotations.annotate n.id .functionShadow).isDeclared id other = _
      unfold Annotations.isDeclared
      rw [declarations_shadow, declaredIn_append, ← h.declared]
      by_cases hsame : (owner, name) = (id, other)
      · cases hsame
        rw [hdeclared, Bool.true_or]
        exact hdeclared
      · have hother : declaredIn [.defines n owner name] id other = false := by
          simpa [declaredIn, Event.declaration?] using hsame
        rw [hother, Bool.or_false]
        rfl
    · rw [hundeclared, ← h.told, Session.report, remarks_append,
        if_neg (by simp [Diagnostic.about]), append_nil]
      rfl
    · rw [hredefined, map_append, ← h.warned, Session.report, remarks_append,
        if_pos (show (Diagnostic.about n .shadowedFunction _).kind = .shadowedFunction from rfl)]
      rfl
    · rw [hredefined, any_append, ← h.marked]
      show (s.annotations.annotate n.id .functionShadow).isShadow id = _
      rw [isShadow_shadow]
      simp
  | false =>
    rw [hdeclared, if_neg Bool.false_ne_true, append_nil] at hredefined
    rw [if_neg Bool.false_ne_true]
    have hdeclare := h.declare owner name
    refine ⟨fun id other => ?_, ?_, ?_, fun id => ?_⟩
    · rw [hdeclare.declared, declaredIn_append, declaredIn_append]
      rfl
    · rw [hundeclared, ← h.told]
    · rw [hredefined, ← h.warned]
    · rw [hredefined, ← h.marked]
      exact isShadow_declare _ _ _ _

theorem records_startingAt (nextId : Nat) : Records (.startingAt nextId) [] :=
  ⟨fun _ _ => rfl, rfl, rfl, fun _ => rfl⟩

end Scope

end Motif
