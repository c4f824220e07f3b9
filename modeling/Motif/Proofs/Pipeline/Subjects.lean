import Motif.Proofs.Eval.Tracked
import Motif.Proofs.Pattern.Keys
import Motif.Proofs.Pattern.Walk
import Motif.Proofs.Pipeline.Running
import Motif.Proofs.Scope.Walk

/-!
# Context references of checked programs

If the passes find no error, the tree they leave is elaborated: patterns and elements have locals of their
own, context references read the local of the pattern or element they belong to, and each of them belongs
to one. So in a run a context reference denotes the value under test, unless another test of the same
pattern has begun since, for there is only one local for both.
-/

namespace Motif

open Eval Testing List

variable {n root : Node}

namespace Pattern

variable {path : Path}

/-! ## Open references -/

theorem located_trans {path₀ : Path} {x : Path × Node} (hn : (path, n) ∈ root.located path₀)
    (hx : x ∈ n.located path) : x ∈ root.located path₀ := by
  induction root using Node.ind generalizing path₀ with
  | step root ih =>
    rw [Node.located_eq root] at hn ⊢
    rcases mem_cons.mp hn with heq | hn
    · obtain ⟨rfl, rfl⟩ := Prod.mk.inj heq
      rwa [Node.located_eq] at hx
    · obtain ⟨c, hc, hn⟩ := mem_flatMap.mp hn
      exact mem_cons_of_mem _ (mem_flatMap.mpr ⟨c, hc, ih c hc hn⟩)

theorem located_child {c : Node} {path₀ : Path} (hn : (path, n) ∈ root.located path₀) (hc : c ∈ n.children) :
    (n.frame :: path, c) ∈ root.located path₀ := by
  refine located_trans hn ?_
  rw [Node.located_eq n]
  refine mem_cons_of_mem _ (mem_flatMap.mpr ⟨c, hc, ?_⟩)
  rw [Node.located_eq c]
  exact mem_cons_self

theorem exists_located (h : n ∈ root.preorder) : ∃ path, (path, n) ∈ root.located [] := by
  rw [← root.map_snd_located []] at h
  obtain ⟨⟨path, m⟩, hm, rfl⟩ := mem_map.mp h
  exact ⟨path, hm⟩

theorem exists_of_mem_openContexts {id : Nat} (h : id ∈ openContexts n) (path : Path) :
    ∃ x ∈ n.located path, x.2.tag = .context ∧ x.2.id = id ∧ owner? x.1 = owner? path := by
  induction n using Node.ind generalizing path with
  | step n ih =>
    rw [openContexts_eq] at h
    rw [Node.located_eq]
    split at h
    · next htag =>
      obtain rfl := mem_singleton.mp h
      exact ⟨(path, n), mem_cons_self, htag, rfl, rfl⟩
    · split at h
      · cases h
      · next hends =>
        obtain ⟨c, hc, hid⟩ := mem_flatMap.mp h
        obtain ⟨x, hx, htag, heq, howner⟩ := ih c hc hid (n.frame :: path)
        refine ⟨x, mem_cons_of_mem _ (mem_flatMap.mpr ⟨c, hc, hx⟩), htag, heq, ?_⟩
        rw [howner, owner?_inner hends]

theorem openContexts_eq_nil (h : n.Everywhere fun m => m.tag ≠ .context) : openContexts n = [] := by
  refine eq_nil_iff_forall_not_mem.mpr fun id hid => ?_
  obtain ⟨x, hx, htag, -⟩ := exists_of_mem_openContexts hid []
  refine h x.2 ?_ htag
  rw [← n.map_snd_located []]
  exact mem_map_of_mem hx

/-! ## Trees without errors -/

theorem has_patternContext (a : Annotations) (id : Nat) : a.has id .patternContext = (a.context? id).isSome :=
  Option.isSome_map

section Visited

variable {root : Node} {s s' : State}

theorem Visits.openContexts_eq_nil (h : Visits [root] [] s s') (herrors : s'.session.hasErrors = false)
    (hn : (path, n) ∈ root.located []) (hpath : owner? path = none) : openContexts n = [] := by
  refine eq_nil_iff_forall_not_mem.mpr fun id hid => ?_
  obtain ⟨x, hx, htag, -, howner⟩ := exists_of_mem_openContexts hid path
  obtain ⟨f, hf⟩ := h.exists_owner herrors (located_trans hn hx) htag
  rw [howner, hpath] at hf
  cases hf

theorem Visits.serves (h : Visits [root] [] s s') {b t : Node} {l : Nat} (hb : (path, b) ∈ root.located [])
    (ht : tested? b = some t) (hl : s'.session.annotations.local? b.id = some l)
    (hown : t.tag ∈ collections → s'.session.annotations.parent? t.id = some l) :
    Serves s'.session.annotations l t := by
  have hlocated : (b.frame :: path, t) ∈ root.located [] := located_child hb (mem_children_of_tested? ht)
  have howner : owner? (b.frame :: path) = some b.frame := by
    rw [owner?_cons, Node.frame_tag, if_pos (tag_of_tested? ht)]
  have hresolved {x : Path × Node} (hx : x ∈ root.located []) (hopens : opens x.2 = true)
      (hf : owner? x.1 = some b.frame) : s'.session.annotations.context? x.2.id = some l :=
    (h.context_eq hx hopens hf).1.trans hl
  refine ⟨fun id hid => ?_, fun hopens => ?_, fun htag => ?_⟩
  · obtain ⟨x, hx, htag, rfl, hsame⟩ := exists_of_mem_openContexts hid (b.frame :: path)
    refine hresolved (located_trans hlocated hx) ?_ (hsame.trans howner)
    rw [opens_eq, htag]
    rfl
  · rw [has_patternContext, hresolved hlocated hopens howner]
    rfl
  · rw [hown htag]
    rfl

theorem Visits.elaborated (h : Visits [root] [] s s') (herrors : s'.session.hasErrors = false)
    (hown : ∀ b ∈ root.preorder, ∀ t ∈ tested? b, t.tag ∈ collections →
      s'.session.annotations.parent? t.id = s'.session.annotations.local? b.id)
    (hwrapped : Desugar.WrappedIn root) (hkeys : root.Everywhere Desugar.KeyClosed) :
    root.Everywhere (Elaborated s'.session.annotations) := by
  intro n hn
  obtain ⟨path, hlocated⟩ := exists_located hn
  have hserves {t : Node} (ht : tested? n = some t) (l : Nat)
      (hl : l ∈ s'.session.annotations.local? n.id) : Serves s'.session.annotations l t :=
    h.serves hlocated ht hl fun htag => (hown n hn t ht htag).trans hl
  have hclosed (hbarrier : n.tag ∈ barriers) (hboundary : n.tag ∉ boundaries) {c : Node}
      (hc : c ∈ n.children) : openContexts c = [] := by
    refine h.openContexts_eq_nil herrors (located_child hlocated hc) ?_
    rw [owner?_cons, Node.frame_tag, if_neg hboundary, if_pos hbarrier]
  have hwrapped := hwrapped n hn
  have hkeys := hkeys n hn
  obtain ⟨i, span, k⟩ := n
  cases k with
  | pattern template => exact hserves rfl
  | element key template =>
    exact ⟨fun k hk => Pattern.openContexts_eq_nil (hkeys k (Option.mem_toList.mpr hk)), hserves rfl⟩
  | clause patterns body => exact hwrapped
  | function name params guard body =>
    refine ⟨fun g hg => hclosed (of_decide_eq_true rfl) (of_decide_eq_true rfl) ?_, fun s hs =>
      hclosed (of_decide_eq_true rfl) (of_decide_eq_true rfl) ?_⟩
    · simpa using .inr (.inl hg)
    · simp [hs]
  | lambda params body =>
    exact hclosed (of_decide_eq_true rfl) (of_decide_eq_true rfl) (by simp)
  | _ => trivial

theorem Visits.own (h : Visits [root] [] s s') (hstart : s.notes = {}) {b t : Node} (hb : b ∈ root.preorder)
    (ht : t ∈ tested? b) (htag : t.tag ∈ collections) : s'.notes.parent? t.id = s'.notes.local? b.id := by
  obtain ⟨path, hlocated⟩ := exists_located hb
  have htemplate := located_child hlocated (mem_children_of_tested? ht)
  have howner : owner? (b.frame :: path) = some b.frame := by
    rw [owner?_cons, Node.frame_tag, if_pos (tag_of_tested? ht)]
  obtain ⟨l, hl, hresolved⟩ := h.resolved_owner htemplate howner
  refine ((h.links (hstart ▸ untold_empty root)).collections _ ?_ htag l hresolved).trans hl.symm
  rwa [locatedIn, flatMap_singleton]

end Visited

end Pattern

/-! ## Checked programs -/

theorem Scope.Spares.everywhere_elaborated {s s' : Session} (h : Spares s s')
    (hn : n.Everywhere (Elaborated s.annotations)) : n.Everywhere (Elaborated s'.annotations) := by
  have hserves {l : Nat} {t : Node} (ht : Serves s.annotations l t) : Serves s'.annotations l t := by
    refine ⟨fun id hid => (h.contexts id).trans (ht.reads id hid), fun hopens => ?_, fun htag => ?_⟩
    · rw [Pattern.has_patternContext, h.contexts, ← Pattern.has_patternContext]
      exact ht.marked hopens
    · rw [h.parents]
      exact ht.parent htag
  refine hn.imp fun m hm => ?_
  obtain ⟨i, span, k⟩ := m
  cases k with
  | pattern template => exact fun l hl => hserves (hm l (h.locals i ▸ hl))
  | element key template => exact ⟨hm.1, fun l hl => hserves (hm.2 l (h.locals i ▸ hl))⟩
  | clause | function | lambda => exact hm
  | _ => trivial

/-- After the passes, if no error has been found, all context references belong to patterns or elements,
    and these have locals of their own. -/
theorem checked_closed {tree : Tree} {session : Session} {options : Options}
    (hkeys : (Tree.ofRoot root).root.Everywhere Desugar.KeyClosed)
    (hrun : runPasses options [.pattern, .scope] (.ofRoot root) = .ok (tree, session))
    (herrors : session.hasErrors = false) :
    (∀ host : Host, host.annotations = session.annotations → Closed host tree.root) ∧
      ∀ b ∈ tree.root.preorder, ∀ c ∈ tree.root.preorder, b.tag ∈ Pattern.boundaries →
        c.tag ∈ Pattern.boundaries →
          session.annotations.local? b.id = session.annotations.local? c.id → b.id = c.id := by
  have hstart := Tree.intact root
  obtain ⟨root₁, nextId, s, hshape, hpattern, hids, hvisits⟩ := Pattern.run_visits hstart.ids
  have hshaped := Desugar.inShape_of_shapes (.of_run hshape)
  obtain ⟨session₂, hscope, hspares⟩ := Scope.run_spares options (hshaped.tag.trans hstart.tag) s.session
  have hall : runPasses options [.pattern, .scope] (Tree.ofRoot root) =
      .ok ({ root := root₁, nextId := session₂.nextId }, session₂) := by
    simp only [runPasses, runFrom, Pass.run, hpattern, hscope]
    rfl
  rw [hall] at hrun
  cases hrun
  have hclean := hspares.hasErrors herrors
  have hnodes : Pattern.nodesOf [root₁] = root₁.preorder := flatMap_singleton ..
  have hdistinct := hvisits.distinct
  rw [hnodes] at hdistinct
  have hclosed := (Desugar.rekeyed_of_shapes (.of_run hshape)).keys hkeys
  have helaborated := hspares.everywhere_elaborated
    (hvisits.elaborated hclean (fun b hb t ht => hvisits.own rfl hb ht) hshaped.wrapped hclosed)
  have hlocated : ([], root₁) ∈ root₁.located [] := by
    rw [Node.located_eq]
    exact mem_cons_self
  have hcontexts := hvisits.openContexts_eq_nil hclean hlocated rfl
  refine ⟨fun host hhost => ⟨hhost ▸ helaborated, hcontexts⟩, fun b hb c hc hbtag hctag hsame => ?_⟩
  rw [hspares.locals, hspares.locals] at hsame
  exact hdistinct b hb c hc hbtag hctag hsame

/-- If no error is found in a program without context references in keys, then different patterns and
    elements have different locals, and every run of the program goes as if each context reference denoted
    the value that is being tested against the template it belongs to, unless a careful run stops: unless
    there is a reference that is evaluated although another test of the same pattern or element has begun
    since the one that it belongs to. -/
theorem contexts_denote_subjects {t : Tree} (ht : t.Built)
    (hkeys : t.root.Everywhere Desugar.KeyClosed) (options : Options) :
    ∃ tree session, runPasses options [.pattern, .scope] t = .ok (tree, session) ∧ (session.hasErrors = false →
        (∀ b ∈ tree.root.preorder, ∀ c ∈ tree.root.preorder, b.tag ∈ Pattern.boundaries →
          c.tag ∈ Pattern.boundaries →
            session.annotations.local? b.id = session.annotations.local? c.id → b.id = c.id) ∧
        ∀ host, host.annotations = session.annotations → Honest host → ∀ fuel requests,
          (∀ request ∈ requests, ∀ v ∈ request.2, Scope.Obtainable host [] [] v) →
            Overtaken (outcome (perform (rulesUpTo host true fuel []) tree.root requests)).1 ∨
              outcome (runAndCall host fuel tree.root requests) =
                outcome (perform (rulesUpTo host false fuel []) tree.root requests)) := by
  obtain ⟨tree, session, hrun, -⟩ := runPasses_intact ht options [.pattern, .scope]
  refine ⟨tree, session, hrun, fun herrors => ?_⟩
  obtain ⟨root, rfl⟩ := ht.exists_root
  obtain ⟨hclosed, hdistinct⟩ := checked_closed hkeys hrun herrors
  refine ⟨hdistinct, fun host hhost hhonest fuel requests hrequests => ?_⟩
  have hgood : ∀ request ∈ requests, GoodArgs host request.2 := fun request hrequest v hv =>
    good_of_obtainable (hrequests request hrequest v hv) (forall_mem_nil _)
      (forall_mem_nil _)
  have hactual := tracks_perform (tracked_upTo hhonest fuel []) (hclosed host hhost) hgood
  have hclaimed := tracks_perform (tracked_rulesUpTo hhonest fuel []) (hclosed host hhost) hgood
  exact hactual.outcome_eq hclaimed

def answers (x : Run (Val × List (Option Val))) : Option (List (Option Value)) :=
  (outcome x).1.toOption.map fun r => r.1.data? :: r.2.map fun v => v.bind Val.data?

/-- An exported pattern for pairs in order. The template for the second element speaks of its value, calls
    a function that makes a test of its own and notes how it went, and speaks of the value again. -/
def nestingBody : List Node :=
  let num (x : Float) : Node := .ofKind (.literal (.number x))
  let name (s : String) : Node := .ofKind (.ident s)
  let call (f x : Node) : Node := .ofKind (.call f [x])
  let both (x y : Node) : Node := .ofKind (.conj x y)
  let compare (op : BinaryOp) (x : Node) : Node := .ofKind (.binary op (.ofKind .context) x)
  let element (template : Node) : Node := .ofKind (.element none template)
  let small : Node := .ofKind (.pattern (compare .lte (num 3)))
  let second : Node :=
    both (compare .gt (num 0)) (both (call (name "small") (.ofKind .context)) (compare .lt (num 3)))
  [.ofKind (.function "small" [.ofKind (.param "n" none false)] none
      [.ofKind (.ret (call (name "note") (call small (name "n"))))]),
    .ofKind (.exported (some (.ofKind (.assign (.name "pair") (.ofKind (.pattern
      (.ofKind (.arrayPattern [element (compare .lt (num 2)), element second]))))))) []),
    .ofKind (.ret (call (name "pair") (.ofKind (.array [num 1, num 2]))))]

def nestingRequests : List (String × List Val) :=
  [("pair", [.data (.array [.number 1, .number 3])]), ("pair", [.data (.array [.number 0, .number 1])])]

def nestingAnswers : Option (List (Option Value)) :=
  some [some (.bool true), some (.bool false), some (.bool true)]

theorem nestingBody_runs :
    (runPasses touringOptions [.pattern, .scope] (.ofBody nestingBody)).toOption.any (fun result =>
      let host := notingHost result.2.annotations
      !result.2.hasErrors &&
        answers (perform (rulesUpTo host true 16 []) result.1.root nestingRequests) == nestingAnswers &&
        answers (runAndCall host 16 result.1.root nestingRequests) == nestingAnswers) = true := by
  decide +kernel

theorem nestingRequests_obtainable (host : Host) :
    ∀ request ∈ nestingRequests, ∀ v ∈ request.2, Scope.Obtainable host [] [] v :=
  forall_mem_cons.mpr ⟨forall_mem_singleton.mpr (.data _),
    forall_mem_singleton.mpr (forall_mem_singleton.mpr (.data _))⟩

theorem contexts_denote_subjects_nesting :
    (Tree.ofBody nestingBody).root.Everywhere Desugar.KeyClosed ∧ ∃ tree session,
      runPasses touringOptions [.pattern, .scope] (.ofBody nestingBody) = .ok (tree, session) ∧
      session.hasErrors = false ∧ Honest (notingHost session.annotations) ∧
      (∀ request ∈ nestingRequests, ∀ v ∈ request.2,
        Scope.Obtainable (notingHost session.annotations) [] [] v) ∧
      outcome (runAndCall (notingHost session.annotations) 16 tree.root nestingRequests) =
        outcome (perform (rulesUpTo (notingHost session.annotations) false 16 []) tree.root nestingRequests) ∧
      answers (runAndCall (notingHost session.annotations) 16 tree.root nestingRequests) = nestingAnswers := by
  have hkeys : (Tree.ofBody nestingBody).root.Everywhere Desugar.KeyClosed := by decide
  obtain ⟨tree, session, hrun, hdenote⟩ := contexts_denote_subjects (.body nestingBody) hkeys touringOptions
  have hruns := nestingBody_runs
  simp only [hrun, Except.toOption, Option.any_some, Bool.and_eq_true, Bool.not_eq_true', beq_iff_eq] at hruns
  obtain ⟨⟨herrors, hcareful⟩, hanswers⟩ := hruns
  have hhonest : Honest (notingHost session.annotations) := (notingHost_trusted _).obtains
  have hobtainable := nestingRequests_obtainable (notingHost session.annotations)
  have houtcome := ((hdenote herrors).2 _ rfl hhonest 16 nestingRequests hobtainable).resolve_left ?_
  · exact ⟨hkeys, tree, session, hrun, herrors, hhonest, hobtainable, houtcome, hanswers⟩
  · rintro ⟨id, hover⟩
    rw [answers, hover] at hcareful
    cases hcareful

/-- A function that counts down to zero by way of a pattern: the template, once the function has been
    called for the number before, compares the value under test with the argument. -/
def countdownBody : List Node :=
  let num (x : Float) : Node := .ofKind (.literal (.number x))
  let name (s : String) : Node := .ofKind (.ident s)
  let binary (op : BinaryOp) (x : Node) : Node := .ofKind (.binary op (.ofKind .context) x)
  let call (f x : Node) : Node := .ofKind (.call f [x])
  let template : Node := .ofKind (.disj (binary .lte (num 0))
    (.ofKind (.conj (call (name "f") (binary .sub (num 1))) (binary .eq (name "n")))))
  [.ofKind (.function "f" [.ofKind (.param "n" none false)] none
      [.ofKind (.ret (call (.ofKind (.pattern template)) (name "n")))]),
    .ofKind (.ret (call (name "f") (num 1)))]

theorem countdownBody_runs :
    (runPasses {} [.pattern, .scope] (.ofBody countdownBody)).toOption.any (fun result =>
      let host := notingHost result.2.annotations
      !result.2.hasErrors &&
        answers (runAndCall host 30 result.1.root []) == some [some (.bool false)] &&
        answers (perform (rulesUpTo host false 30 []) result.1.root []) == some [some (.bool true)]) =
          true := by
  decide +kernel

/-- A reference does not always denote the value under test. After the call it denotes zero, the value
    in the last test of the same pattern, and the comparison fails. -/
theorem context_denotes_later_subject :
    (Tree.ofBody countdownBody).root.Everywhere Desugar.KeyClosed ∧ ∃ tree session,
      runPasses {} [.pattern, .scope] (.ofBody countdownBody) = .ok (tree, session) ∧
      session.hasErrors = false ∧ Honest (notingHost session.annotations) ∧
      answers (runAndCall (notingHost session.annotations) 30 tree.root []) = some [some (.bool false)] ∧
      answers (perform (rulesUpTo (notingHost session.annotations) false 30 []) tree.root []) =
        some [some (.bool true)] := by
  have hkeys : (Tree.ofBody countdownBody).root.Everywhere Desugar.KeyClosed := by decide
  obtain ⟨tree, session, hrun, -⟩ := runPasses_intact (.body countdownBody) {} [.pattern, .scope]
  have hruns := countdownBody_runs
  simp only [hrun, Except.toOption, Option.any_some, Bool.and_eq_true, Bool.not_eq_true', beq_iff_eq] at hruns
  obtain ⟨⟨herrors, hactual⟩, hclaimed⟩ := hruns
  exact ⟨hkeys, tree, session, hrun, herrors, (notingHost_trusted _).obtains, hactual, hclaimed⟩

end Motif
