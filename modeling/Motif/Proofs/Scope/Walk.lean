import Motif.Proofs.Annotation
import Motif.Proofs.Scope.Blocks
import Motif.Proofs.Scope.Trail

/-!
# The walk over scopes

Whatever has happened before, the walk over a module finds a scope for every declaration, so it is never
given up. It goes along the trail of the module, draws no ids, takes nothing back that has been told, and
leaves the annotations of patterns alone; and where it reports no misuse, every `await` and `emit` is in a
block. `Meets` says all of this of one step, and is composed the way steps are.
-/

namespace Motif

open List

def scopeKeys : List AnnotationKey := [.scopeDeclarations, .functionShadow]

namespace Scope

variable {root : Node}

/-! ## What is left alone -/

structure Spares (s s' : Session) : Prop where
  nextId : s'.nextId = s.nextId
  told : ∃ ds, s'.diagnostics = s.diagnostics ++ ds
  notes : s.annotations.SameExcept scopeKeys s'.annotations

namespace Spares

variable {s s₁ s₂ : Session}

theorem refl (s : Session) : Spares s s := ⟨rfl, ⟨[], (append_nil _).symm⟩, .refl _ _⟩

theorem trans (h : Spares s s₁) (h' : Spares s₁ s₂) : Spares s s₂ where
  nextId := h'.nextId.trans h.nextId
  told := by
    obtain ⟨ds, hds⟩ := h.told
    obtain ⟨ds', hds'⟩ := h'.told
    exact ⟨ds ++ ds', by rw [hds', hds, append_assoc]⟩
  notes := h.notes.trans h'.notes

theorem locals (h : Spares s s₁) (id : Nat) : s₁.annotations.local? id = s.annotations.local? id :=
  h.notes.local? (by decide) id

theorem contexts (h : Spares s s₁) (id : Nat) : s₁.annotations.context? id = s.annotations.context? id :=
  h.notes.context? (by decide) id

theorem parents (h : Spares s s₁) (id : Nat) : s₁.annotations.parent? id = s.annotations.parent? id :=
  h.notes.parent? (by decide) id

theorem hasErrors (h : Spares s s₁) (herrors : s₁.hasErrors = false) : s.hasErrors = false := by
  obtain ⟨ds, hds⟩ := h.told
  rw [Session.hasErrors, hds, any_append, Bool.or_eq_false_iff] at herrors
  exact herrors.1

end Spares

theorem sameExcept_declare (a : Annotations) (owner : Nat) (name : String) :
    a.SameExcept scopeKeys (a.declare owner name) := by
  unfold Annotations.declare
  split
  · exact .refl _ _
  · exact .annotate _ _ (of_decide_eq_true rfl)

theorem sameExcept_declareAll (a : Annotations) (owner : Nat) (names : List String) :
    a.SameExcept scopeKeys (a.declareAll owner names) := by
  induction names generalizing a with
  | nil => exact .refl _ _
  | cons name names ih => exact (sameExcept_declare a owner name).trans (ih _)

/-! ## Steps of the walk -/

/-- A step that meets these events, and that has nothing to report about uses only if `P`. -/
structure Step (es : List Event) (P : Prop) (s s' : State) : Prop where
  running : s'.aborted = none
  spares : Spares s.session s'.session
  records : ∀ trail, Records s.session trail → Records s'.session (trail ++ es)
  vouches : ∀ ds, s'.session.diagnostics = s.session.diagnostics ++ ds →
    (∀ d ∈ ds, d.kind ≠ .usage) → P

def Meets (es : List Event) (P : Prop) (step : Check Unit) : Prop :=
  ∀ s, s.aborted = none → Step es P s (step.run s).2

section Steps

variable {es es' : List Event} {P Q : Prop} {x y : Check Unit} {n : Node} {path : Path} {s : State}

theorem Step.refl (hs : s.aborted = none) : Step [] True s s :=
  ⟨hs, .refl _, fun trail h => (append_nil trail).symm ▸ h, fun _ _ _ => trivial⟩

theorem Step.trans {s₁ s₂ : State} (h : Step es P s s₁) (h' : Step es' Q s₁ s₂) :
    Step (es ++ es') (P ∧ Q) s s₂ := by
  refine ⟨h'.running, h.spares.trans h'.spares, fun trail ht => ?_, fun ds hds hquiet => ?_⟩
  · rw [← append_assoc]
    exact h'.records _ (h.records trail ht)
  · obtain ⟨ds₁, hds₁⟩ := h.spares.told
    obtain ⟨ds₂, hds₂⟩ := h'.spares.told
    have hall : ds = ds₁ ++ ds₂ := by
      refine append_cancel_left (hds.symm.trans (hds₂.trans ?_))
      rw [hds₁, append_assoc]
    subst hall
    obtain ⟨hquiet₁, hquiet₂⟩ := forall_mem_append.mp hquiet
    exact ⟨h.vouches ds₁ hds₁ hquiet₁, h'.vouches ds₂ hds₂ hquiet₂⟩

theorem Step.annotated (hs : s.aborted = none) {a : Annotations}
    (hnotes : s.session.annotations.SameExcept scopeKeys a) (hrecords : ∀ trail, Records s.session trail →
      Records { s.session with annotations := a } (trail ++ es)) :
    Step es True s { s with session := { s.session with annotations := a } } :=
  ⟨hs, ⟨rfl, ⟨[], (append_nil _).symm⟩, hnotes⟩, hrecords, fun _ _ _ => trivial⟩

theorem Step.told (hs : s.aborted = none) (d : Diagnostic) {a : Annotations}
    (hnotes : s.session.annotations.SameExcept scopeKeys a) (hrecords : ∀ trail, Records s.session trail →
      Records (Session.report { s.session with annotations := a } d) (trail ++ es)) :
    Step es (d.kind ≠ .usage) s
      { s with session := Session.report { s.session with annotations := a } d } := by
  refine ⟨hs, ⟨rfl, ⟨[d], rfl⟩, hnotes⟩, hrecords, fun ds hds hquiet => hquiet d ?_⟩
  have htold : [d] = ds := append_cancel_left hds
  rw [← htold]
  exact mem_singleton.mpr rfl

theorem meets_pure : Meets [] True (pure ()) := fun _ hs => .refl hs

theorem Meets.imp (h : Meets es P x) (himp : P → Q) : Meets es Q x := fun s hs =>
  { h s hs with vouches := fun ds hds hquiet => himp ((h s hs).vouches ds hds hquiet) }

theorem Meets.bind (hx : Meets es P x) (hy : Meets es' Q y) : Meets (es ++ es') (P ∧ Q) (do x; y) :=
  fun s hs => (hx s hs).trans (hy _ (hx s hs).running)

theorem Meets.before (hx : Meets es P x) (hy : Meets es' Q y) : Meets (es ++ es') Q (do x; y) :=
  (hx.bind hy).imp And.right

theorem Meets.guarded (hx : Meets es P x) :
    Meets es P (do if (← get).aborted.isSome then pure () else x) := by
  intro s hs
  have hrun : StateT.run (do if (← get).aborted.isSome then pure () else x) s = x.run s := by
    show StateT.run (if s.aborted.isSome then pure () else x : Check Unit) s = _
    rw [hs]
    rfl
  rw [hrun]
  exact hx s hs

theorem meets_forM {ι : Type} {xs : List ι} {step : ι → Check Unit} {es : ι → List Event} {P : ι → Prop}
    (h : ∀ x ∈ xs, Meets (es x) (P x) (step x)) : Meets (xs.flatMap es) (∀ x ∈ xs, P x) (xs.forM step) := by
  induction xs with
  | nil => exact meets_pure.imp fun _ => forall_mem_nil _
  | cons x xs ih =>
    rw [forall_mem_cons] at h
    rw [flatMap_cons]
    exact (h.1.bind (ih h.2)).imp fun hP => forall_mem_cons.mpr hP

theorem meets_report {d : Diagnostic} (hd : d.kind ≠ .declaration) (hs : d.kind ≠ .shadowedFunction) :
    Meets [] (d.kind ≠ .usage) (report d) := by
  refine fun s hrunning => .told hrunning d (.refl scopeKeys s.session.annotations) fun trail h => ?_
  rw [append_nil]
  exact h.report hd hs

theorem Meets.telling {c : Prop} [Decidable c] {d : Diagnostic} {next : Unit → Check Unit}
    (hd : d.kind ≠ .declaration) (hs : d.kind ≠ .shadowedFunction) (h : Meets es P (next ())) :
    Meets es P (if c then (do let r ← report d; next r) else next ()) := by
  split
  · exact (meets_report hd hs).before h
  · exact h

theorem meets_declare (owner : Nat) (name : String) :
    Meets [.declares owner name] True (modifyAnnotations fun a => a.declare owner name) :=
  fun _ hs => .annotated hs (sameExcept_declare _ owner name) fun _ h => h.declare owner name

theorem meets_declareNames (names : List String) (hpath : path.owners ≠ []) :
    Meets (declareAround path.owners names) True (declareNames n path names) := by
  obtain ⟨frame, hcontainer, hhead⟩ := container?_of_owners hpath
  unfold declareNames declareAround
  rw [hcontainer, hhead, Option.toList_some, flatMap_singleton]
  exact fun _ hs => .annotated hs (sameExcept_declareAll _ frame.id names)
    fun _ h => h.declareAll frame.id names

theorem meets_checkName (n : Node) (path : Path) (name : String) :
    Meets [.refers n path.owners name] True (checkName n path name) := by
  intro s hs
  cases hcase : isVisible s.session.annotations path name with
  | true =>
    have hrun : ((checkName n path name).run s).2 = s := by
      show (StateT.run (if isVisible s.session.annotations path name then _ else _ : Check Unit) s).2 = _
      rw [if_pos hcase]
      rfl
    rw [hrun]
    refine { Step.refl hs with records := fun trail h => h.refer n path.owners name rfl ?_ rfl }
    rw [Event.undeclared?, if_pos (isVisible_eq h path name ▸ hcase)]
    simp
  | false =>
    let found := Text.suggest name (visibleNames s.session.annotations path) 2
    let d : Diagnostic :=
      { Diagnostic.about n .declaration (undeclaredRemark (n, name)).2 with
        suggestions := found.map fun s => "did you mean '" ++ s ++ "'?" }
    have hrun : ((checkName n path name).run s).2 = { s with session := s.session.report d } := by
      show (StateT.run (if isVisible s.session.annotations path name then _ else _ : Check Unit) s).2 = _
      rw [if_neg (by simp [hcase])]
      rfl
    rw [hrun]
    have htold : Step [.refers n path.owners name] (d.kind ≠ .usage) s
        { s with session := s.session.report d } := by
      refine .told hs d (.refl scopeKeys s.session.annotations) fun trail h =>
        h.refer n path.owners name rfl ?_ ?_
      · rw [Event.undeclared?, if_neg (by simp [← isVisible_eq h, hcase]), Session.report,
          remarks_append, if_pos (show d.kind = .declaration from rfl)]
        rfl
      · rw [Session.report, remarks_append, if_neg (by simp [d, Diagnostic.about]), append_nil]
    exact { htold with vouches := fun _ _ _ => trivial }

theorem meets_checkParams (owner : Nat) (seen : List String) (params : List Node) :
    Meets ((paramNames params).map (.declares owner)) True (checkParams owner seen params) := by
  induction params generalizing seen with
  | nil => exact meets_pure
  | cons p params ih =>
    obtain ⟨id, span, k⟩ := p
    unfold checkParams
    cases k
    case param name pattern variadic =>
      refine .telling (by simp [Diagnostic.about]) (by simp [Diagnostic.about]) ?_
      refine .telling (by simp [Diagnostic.about]) (by simp [Diagnostic.about]) ?_
      exact (meets_declare owner name).before (ih _)
    all_goals exact ih seen

theorem step_defined (hs : s.aborted = none) (n : Node) (owner : Nat) (name : String) :
    Step [.defines n owner name] True s { s with session := defined s.session n owner name } := by
  have hrecords (trail : List Event) (h : Records s.session trail) := h.define n owner name
  unfold defined at hrecords ⊢
  by_cases h : s.session.annotations.isDeclared owner name = true
  · simp only [if_pos h] at hrecords ⊢
    have hshadow : s.session.annotations.SameExcept scopeKeys
        (s.session.annotations.annotate n.id .functionShadow) := .annotate _ n.id (by decide)
    exact { Step.told hs _ hshadow hrecords with vouches := fun _ _ _ => trivial }
  · simp only [if_neg h] at hrecords ⊢
    exact .annotated hs (sameExcept_declare _ owner name) hrecords

theorem meets_enterFunction (name : String) (params : List Node) (hpath : path.owners ≠ []) :
    Meets (path.owners.head?.toList.map (.defines n · name) ++
      (paramNames params).map (.declares n.id)) True (enterFunction n path name params) := by
  obtain ⟨frame, hcontainer, hhead⟩ := container?_of_owners hpath
  intro s hs
  have hrun : (enterFunction n path name params).run s =
      (checkParams n.id [] params).run
        { s with session := defined s.session n frame.id name } := by
    unfold enterFunction defined
    rw [hcontainer]
    show StateT.run (if s.session.annotations.isDeclared frame.id name then _ else _ : Check Unit) s = _
    split <;> rfl
  rw [hrun, hhead, Option.toList_some, map_singleton]
  have hstep := (step_defined hs n frame.id name).trans (meets_checkParams n.id [] params _ hs)
  exact { hstep with vouches := fun _ _ _ => trivial }

/-- The check of `await` and of `emit`, which have to be inside of a block of their own kind. -/
theorem meets_checkBlock {tag : Tag} (htag : tag ∈ blockTags) (message : String) : Meets [] path.InBlock
    (if (path.nearest? [tag] barriers).isNone then report (.about n .usage message) else pure ()) := by
  split
  · exact (meets_report (by simp [Diagnostic.about]) (by simp [Diagnostic.about])).imp (absurd rfl)
  · next h =>
    rw [Option.isNone_iff_eq_none, ← ne_eq, Option.ne_none_iff_isSome] at h
    exact meets_pure.imp fun _ => Path.inBlock_of_nearest? htag h

end Steps

/-! ## The walk -/

theorem owners_cons (n : Node) (path : Path) :
    Path.owners (n.frame :: path) = if n.tag.isScopeContainer then n.id :: path.owners else path.owners := by
  unfold Path.owners Path.containers
  rw [filter_cons]
  show List.map Frame.id (if n.tag.isScopeContainer then _ else _) = _
  split <;> rfl

/-- The walk over a tree goes along its trail and vouches for its `await`s and `emit`s. Only the module at
    the top has no scope around it. -/
theorem meets_check (n : Node) (path : Path) (hpath : n.tag = .module ∨ path.owners ≠ []) :
    Meets (trail n path.owners) (n.InBlocks path) (check n path) := by
  induction n using Node.ind generalizing path with
  | step n ih =>
    have hinner : Path.owners (n.frame :: path) ≠ [] := by
      rw [owners_cons]
      rcases hpath with htag | hpath
      · rw [htag]
        simp [Tag.isScopeContainer]
      · split
        · simp
        · exact hpath
    have hchild (c : Node) (hc : c ∈ n.children) :
        Meets (trail c (Path.owners (n.frame :: path))) (c.InBlocks (n.frame :: path))
          (check c (n.frame :: path)) := ih c hc _ (.inr hinner)
    have hchildren : Meets
        ((n.kind.map trail).children.flatMap fun trail => trail (Path.owners (n.frame :: path)))
        (∀ c ∈ n.children, c.InBlocks (n.frame :: path))
        ((n.kind.map check).children.forM fun visit => visit (n.frame :: path)) := by
      rw [Kind.children_map, Kind.children_map, flatMap_map, forM_eq_forM,
        forM_map]
      exact meets_forM hchild
    have haround (htag : n.tag ≠ .module) : path.owners ≠ [] := hpath.resolve_left htag
    have hbelow (htag : n.tag ∉ yieldTags) (h : ∀ c ∈ n.children, c.InBlocks (n.frame :: path)) :
        n.InBlocks path := Node.inBlocks_iff.mpr ⟨fun hyield => absurd hyield htag, h⟩
    have hyield (h : path.InBlock ∧ ∀ c ∈ n.children, c.InBlocks (n.frame :: path)) :
        n.InBlocks path := Node.inBlocks_iff.mpr ⟨fun _ => h.1, h.2⟩
    -- A name that is not visited is no `await` and no `emit`.
    have hnamed {c : Node} (hname : c.isIdent) : Meets [] (c.InBlocks (n.frame :: path)) (pure ()) :=
      meets_pure.imp fun _ => Node.inBlocks_of_isIdent hname _
    rw [trail_eq]
    unfold check
    rw [Node.fold_eq]
    refine .guarded ?_
    unfold trailNode
    rw [← owners_cons]
    obtain ⟨i, span, k⟩ := n
    cases k
    case ident name => exact (meets_checkName _ path name).imp fun _ => Node.inBlocks_of_isIdent rfl path
    case member object property =>
      refine ((hchild object (by simp)).bind
        (Q := Node.InBlocks property _) ?_).imp
        fun h => hbelow (of_decide_eq_true rfl) (by simpa using h)
      dsimp only
      split
      · exact hnamed ‹_›
      · exact hchild property (by simp)
    case entry key value =>
      let inner : Path := Node.frame ⟨i, span, .entry key value⟩ :: path
      have hvalue := hchild value (by simp)
      show Meets ((if key.isIdent then [] else trail key inner.owners) ++ trail value inner.owners) _
        (if key.isIdent then check value inner else (do check key inner; check value inner))
      have hparts (h : key.InBlocks inner ∧ value.InBlocks inner) :=
        hbelow (of_decide_eq_true rfl) (by simpa using h)
      split
      · exact ((hnamed ‹_›).bind hvalue).imp hparts
      · exact ((hchild key (by simp)).bind hvalue).imp hparts
    case function name params guard body =>
      exact ((meets_enterFunction name params (haround (by simp [Kind.tag]))).before
        hchildren).imp (hbelow (of_decide_eq_true rfl))
    case lambda params body =>
      exact ((meets_checkParams i [] params).before hchildren).imp (hbelow (of_decide_eq_true rfl))
    case assign target value =>
      exact (hchildren.bind (meets_declareNames target.names (haround (by simp [Kind.tag])))).imp
        fun h => hbelow (of_decide_eq_true rfl) h.1
    case range target collection guard =>
      let inner : Path := Node.frame ⟨i, span, .range target collection guard⟩ :: path
      have hguard : Meets ((guard.map trail).toList.flatMap fun trail => trail inner.owners)
          (∀ c ∈ guard.toList, c.InBlocks inner) (visitOption (guard.map check) inner) := by
        cases guard with
        | none => exact meets_pure.imp fun _ => forall_mem_nil _
        | some g =>
          rw [Option.map_some, Option.map_some, Option.toList_some, flatMap_singleton]
          refine (hchild g (by simp)).imp fun h => ?_
          exact forall_mem_singleton.mpr h
      show Meets (trail collection inner.owners ++ declareAround path.owners target.names ++
          (guard.map trail).toList.flatMap fun trail => trail inner.owners) _ (do
        check collection inner
        declareNames ⟨i, span, .range target collection guard⟩ path target.names
        visitOption (guard.map check) inner)
      rw [append_assoc]
      refine ((hchild collection mem_cons_self).bind
        ((meets_declareNames target.names (haround (by simp [Kind.tag]))).before hguard)).imp
          fun h => hbelow (of_decide_eq_true rfl) ?_
      exact forall_mem_cons.mpr h
    case importAll source localName =>
      exact (meets_declareNames [localName] (haround (by simp [Kind.tag]))).imp fun _ =>
        hbelow (of_decide_eq_true rfl) (by simp)
    case importFrom source items =>
      exact (meets_declareNames _ (haround (by simp [Kind.tag]))).imp fun _ =>
        hbelow (of_decide_eq_true rfl) (by simp)
    case exported decl items =>
      let n : Node := ⟨i, span, .exported decl items⟩
      have hitems : Meets (items.map fun item => .refers n path.owners item.name) (∀ item ∈ items, True)
          (items.forM fun item => checkName n path item.name) := by
        rw [← flatMap_pure_eq_map]
        exact meets_forM fun item _ => meets_checkName n path item.name
      exact (hitems.before hchildren).imp (hbelow (of_decide_eq_true rfl))
    case await | emit => exact ((meets_checkBlock (by decide) _).bind hchildren).imp hyield
    all_goals exact hchildren.imp (hbelow (of_decide_eq_true rfl))

/-! ## The pass -/

theorem run_meets (options : Options) (hroot : root.tag = .module) (session : Session) :
    ∃ s, run options root session = (.ok root, s.session) ∧
      Step (moduleTrail options.globals root) (root.InBlocks []) { session } s := by
  let start : State := { session :=
    { session with annotations := session.annotations.declareAll root.id options.globals } }
  have hstart : Step (options.globals.map (.declares root.id)) True { session } start :=
    .annotated rfl (sameExcept_declareAll _ root.id options.globals)
      fun _ h => h.declareAll root.id options.globals
  have hstep := hstart.trans (meets_check root [] (.inl hroot) start rfl)
  obtain ⟨s, hrun⟩ : ∃ s, (check root []).run start = ((), s) := ⟨_, rfl⟩
  rw [hrun] at hstep
  refine ⟨s, ?_, { hstep with vouches := fun ds hds hquiet => (hstep.vouches ds hds hquiet).2 }⟩
  unfold run
  dsimp only
  rw [hrun]
  dsimp only
  rw [hstep.running]

theorem run_spares (options : Options) (hroot : root.tag = .module) (session : Session) :
    ∃ session', run options root session = (.ok root, session') ∧ Spares session session' := by
  obtain ⟨s, hrun, hstep⟩ := run_meets options hroot session
  exact ⟨s.session, hrun, hstep.spares⟩

theorem records_run (options : Options) (hroot : root.tag = .module) {session : Session}
    (h : Records session []) : ∃ session', run options root session = (.ok root, session') ∧
      Records session' (moduleTrail options.globals root) := by
  obtain ⟨s, hrun, hstep⟩ := run_meets options hroot session
  exact ⟨s.session, hrun, hstep.records [] h⟩

def reported (options : Options) (root : Node) (session : Session) : List Diagnostic :=
  (run options root session).2.diagnostics.drop session.diagnostics.length

theorem inBlocks_of_reported {options : Options} {session : Session} (hroot : root.tag = .module)
    (h : ∀ d ∈ reported options root session, d.kind ≠ .usage) : root.InBlocks [] := by
  obtain ⟨s, hrun, hstep⟩ := run_meets options hroot session
  obtain ⟨ds, hds⟩ := hstep.spares.told
  refine hstep.vouches ds hds ?_
  have hreported : reported options root session = ds := by
    rw [reported, hrun, hds]
    exact drop_left
  rwa [hreported] at h

end Scope

end Motif
