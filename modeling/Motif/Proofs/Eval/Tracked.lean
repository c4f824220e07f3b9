import Motif.Proofs.Eval.Invariant
import Motif.Proofs.Eval.Tracking

/-!
# The rules keep track of tests

That the second of two runs on elaborated nodes and good values goes the way of the first while some tests
are being made is an invariant of running programs (`tracking`). Only at the edges of tests there is more to
say: where a test is made it becomes the innermost one, and where a context reference is evaluated, it belongs
to the innermost test.
-/

namespace Motif.Testing

open Eval Pattern List

variable {n : Node} {host : Host}

def Within (host : Host) (tests : List Test) (n : Node) : Prop :=
  ∀ id ∈ openContexts n, ∃ t, tests.head? = some t ∧ t.owns id = true ∧
    host.annotations.context? id = some t.slot ∧ Good host t.subject

structure Runnable (host : Host) (tests : List Test) (n : Node) : Prop where
  elaborated : n.Everywhere (Elaborated host.annotations)
  within : Within host tests n

theorem Closed.runnable (h : Closed host n) (tests : List Test) : Runnable host tests n := by
  refine ⟨h.elaborated, fun id hid => ?_⟩
  rw [h.noContexts] at hid
  cases hid

theorem Runnable.child {tests : List Test} {c : Node} (h : Runnable host tests n) (hn : n.tag ∉ ends)
    (hc : c ∈ n.children) : Runnable host tests c :=
  ⟨h.elaborated.child hc, fun id hid => h.within id (openContexts_child hn hc hid)⟩

section Layer

variable {host : Host} {tests : List Test} {r r' : Rules} {env : Env} {names : Scope.Names}

theorem tracks_lookup (name : String) (henv : GoodEnv host env) :
    Tracks host tests (Good host) (lookup host name env) (lookup host name env) := by
  unfold Eval.lookup
  split
  · next v hv => exact tracks_pure (Dict.forall_get? henv hv)
  · split
    · exact tracks_pure (.native name)
    · split
      · next t _ => exact tracks_pure (.type t)
      · exact tracks_fail

def tracking (host : Host) (tests : List Test) : Invariant where
  Related := Tracks host tests
  Runs _ n := Runnable host tests n
  Tests _ l template := template.Everywhere (Elaborated host.annotations) ∧ Serves host.annotations l template
  Good := Good host
  Covers _ _ := True
  Loose := True

/-! ## What elaborated nodes need -/

theorem tracking_scope (names : Scope.Names) (henv : GoodEnv host env) :
    (tracking host tests).Scope names env := ⟨trivial, henv⟩

theorem tracking_pattern (htag : n.tag = .pattern) (hn : n.Everywhere (Elaborated host.annotations)) :
    (tracking host tests).Pattern host names n := by
  obtain ⟨i, span, k⟩ := n
  cases k with
  | pattern template => exact fun l hl => ⟨hn.child mem_cons_self, hn.here l hl⟩
  | _ => cases htag

theorem tracking_element {e : Node} (hn : e.Everywhere (Elaborated host.annotations)) :
    (tracking host tests).Element host names e := by
  obtain ⟨i, span, k⟩ := e
  cases k with
  | element key template =>
    obtain ⟨hclosed, hserves⟩ := hn.here
    refine ⟨fun k hk => Closed.runnable ⟨hn.child ?_, hclosed k hk⟩ tests, fun l hl => ⟨?_, hserves l hl⟩⟩
    · exact mem_append_left _ (Option.mem_toList.mpr hk)
    · exact hn.child (mem_append_right _ mem_cons_self)
  | _ => trivial

theorem tracking_clause {c : Node} (hn : Runnable host tests c) :
    (tracking host tests).Clause host names c := by
  obtain ⟨i, span, k⟩ := c
  cases k with
  | clause patterns body =>
    refine ⟨fun p hp => tracking_pattern (hn.elaborated.here p hp) ?_, fun s hs _ => ?_⟩
    · exact hn.elaborated.child (mem_append_left _ hp)
    · exact hn.child (of_decide_eq_true rfl) (mem_append_right _ hs)
  | _ => trivial

theorem tracking_closure (hn : Runnable host tests n) (htag : n.tag ∈ [Tag.lambda, .function, .pattern]) :
    (tracking host tests).Needs host names n := by
  obtain ⟨i, span, k⟩ := n
  cases k with
  | lambda params body =>
    refine fun stamp env henv => .function (by simp) ?_ henv.good (by simp)
    exact ⟨hn.elaborated.child (mem_append_right _ mem_cons_self), hn.elaborated.here⟩
  | function name params guard body =>
    obtain ⟨hguard, hbody⟩ := hn.elaborated.here
    refine fun stamp env previous henv hprevious =>
      .function (fun g hg => ⟨?_, hguard g hg⟩) (fun s hs => ⟨?_, hbody s hs⟩) henv.good hprevious
    · exact hn.elaborated.child (by simpa using .inr (.inl hg))
    · exact hn.elaborated.child (by simp [hs])
  | pattern template =>
    exact ⟨tracking_pattern rfl hn.elaborated, fun _ _ henv => .pattern rfl hn.elaborated henv.good⟩
  | _ => simp [Kind.tag] at htag

theorem tracking_enters {body : Body} (hb : ClosedBody host body) :
    (tracking host tests).Enters names body := by
  cases body with
  | block body => exact Invariant.body_of_forall (fun s hs _ => (hb s hs).runnable tests) names
  | expr e => exact Closed.runnable hb tests

theorem tracking_lawful (hhonest : Honest host) (tests : List Test) : (tracking host tests).Lawful host where
  pure := tracks_pure
  bind := Tracks.bind
  fail _ := tracks_fail
  freshStamp := tracks_freshStamp
  addExport := tracks_addExport
  callNative {name _} _ hargs := tracks_callNative hhonest name hargs
  data := .data
  regex := .regex
  function {_ code _ _} h := by
    cases h with
    | function hguard hbody hscope hprevious =>
      refine ⟨hprevious, fun _ => True, tracking_scope _ hscope, fun g hg => (hguard g hg).runnable tests, ?_⟩
      exact tracking_enters hbody
  pattern h := by
    cases h with
    | pattern htag hnode hscope => exact ⟨fun _ => True, tracking_scope _ hscope, tracking_pattern htag hnode⟩
  covers _ _ _ := trivial
  fewer _ _ := trivial
  loose _ _ _ := trivial
  needs hn := by
    refine Invariant.needs_of_children trivial (fun _ x _ henv => tracks_lookup x henv.good) ?_
      tracking_clause hn (tracking_closure hn)
    have hends : ∀ tag ∈ ends, tag ∈ [Tag.lambda, .function, .pattern, .element] := by decide
    intro _ n c hn htag hc _
    exact hn.child (fun h => htag (hends _ h)) hc

/-! ## Tests -/

section Tests

variable {template : Node} {l : Nat} {subject : Val}
  (hr : (tracking host ({ template, slot := l, subject } :: tests)).Keeps host r r')
  (hn : template.Everywhere (Elaborated host.annotations)) (hserves : Serves host.annotations l template)
  (hsubject : Good host subject) (henv : GoodEnv host env)

include hr hn hserves hsubject henv

theorem tracks_fitsSimple : Tracks host tests (fun _ => True)
      (Test.hold { template, slot := l, subject } (fitsSimple host r template l subject env))
      (fitsSimple host r' template l subject env) := by
  have hscope : (tracking host ({ template, slot := l, subject } :: tests)).Scope (fun _ => True) env :=
    ⟨trivial, henv⟩
  have hrunnable : Runnable host ({ template, slot := l, subject } :: tests) template := by
    refine ⟨hn, fun id hid => ⟨_, rfl, ?_, hserves.reads id hid, hsubject⟩⟩
    exact contains_iff_mem.mpr hid
  have hcompares := hr.compares hrunnable hsubject hscope
  unfold fitsSimple
  dsimp only
  split
  · exact tracks_hold_set ((hr.eval hrunnable hscope).bind fun _ _ => tracks_pure trivial)
  · next hcondition =>
    have hopens : opens template = false := by
      by_contra hopens
      rw [Bool.not_eq_false] at hopens
      exact hcondition (by simp [hserves.marked hopens])
    refine tracks_hold hopens ?_
    split
    · split
      · exact tracks_pure trivial
      · exact hcompares
    · split
      · exact tracks_pure trivial
      · exact hcompares
    · exact hcompares

theorem tracks_fitsNode : Tracks host tests (fun _ => True)
      (Test.hold { template, slot := l, subject } (fitsNode host r template l subject env))
      (fitsNode host r' template l subject env) := by
  have hscope : (tracking host ({ template, slot := l, subject } :: tests)).Scope (fun _ => True) env :=
    ⟨trivial, henv⟩
  have helements (collection : Value) := hr.fitsElements collection
    (fun e (he : e ∈ template.children) => tracking_element (hn.child he)) hscope
  obtain ⟨i, span, k⟩ := template
  cases k with
  | objectPattern elements =>
    have hown := hserves.parent (of_decide_eq_true rfl)
    unfold fitsNode
    dsimp only at hown ⊢
    rw [hown]
    refine tracks_hold_set (t := { template := ⟨i, span, .objectPattern elements⟩, slot := l, subject }) ?_
    split
    · exact helements _
    · exact tracks_pure trivial
  | arrayPattern elements =>
    have hown := hserves.parent (of_decide_eq_true rfl)
    unfold fitsNode
    dsimp only at hown ⊢
    rw [hown]
    refine tracks_hold_set (t := { template := ⟨i, span, .arrayPattern elements⟩, slot := l, subject }) ?_
    split
    · split
      · exact helements _
      · exact tracks_pure trivial
    · exact tracks_pure trivial
  | _ => exact tracks_fitsSimple hr hn hserves hsubject henv

end Tests

/-- A context reference belongs to the innermost test. If the test has not lost its local, which then
    holds the subject, the second run has to come by the subject too. -/
theorem tracks_denote (htag : n.tag = .context) (hn : Runnable host tests n) {y : Run Val}
    (hy : ∀ t rest, tests = t :: rest → t.owns n.id = true →
      host.annotations.context? n.id = some t.slot → ∀ m, Dict.get? t.slot m.locals = some t.subject →
        y.run.run m = (.ok t.subject, m)) : Tracks host tests (Good host) (denote true tests n.id) y := by
  have hopen : n.id ∈ openContexts n := by
    rw [openContexts_eq, if_pos htag]
    exact mem_singleton.mpr rfl
  obtain ⟨t, hhead, howns, hcontext, hsubject⟩ := hn.within n.id hopen
  have hopens : opens t.template = true := (opens_iff _).mpr (ne_nil_of_mem (contains_iff_mem.mp howns))
  obtain ⟨rest, rfl⟩ : ∃ rest, tests = t :: rest := head?_eq_some_iff.mp hhead
  have hfound : (t :: rest).find? (fun t => t.owns n.id) = some t := find?_cons_of_pos howns
  unfold denote
  rw [hfound]
  refine fun m m' hm hfresh => ?_
  let answer : Run Val :=
    if true && !Dict.contains t.slot m.locals then fail (.unboundContext n.id) else pure t.subject
  show Overtaken (answer.run.run m).1 ∨ Ends host (Good host) m (answer.run.run m) (y.run.run m')
  cases hlocal : Dict.get? t.slot m.locals with
  | none =>
    have hlost : answer = fail (.unboundContext n.id) := by simp [answer, Dict.contains, hlocal]
    rw [hlost]
    exact .inl ⟨n.id, rfl⟩
  | some v =>
    have hheld : answer = pure t.subject := by simp [answer, Dict.contains, hlocal]
    obtain rfl := hfresh t rfl hopens v hlocal
    rw [hheld, hy t rest rfl howns hcontext m' (hm.locals t.slot _ hlocal)]
    exact .inr (.ok hsubject hm (.refl m))

theorem tracks_context (htag : n.tag = .context) (hn : Runnable host tests n) :
    Tracks host tests (Good host) (denote true tests n.id) (evalNode host r' n env) := by
  refine tracks_denote htag hn fun t rest _ _ hcontext m hlocal => ?_
  have hreads : evalNode host r' n env = getLocal t.slot := by
    obtain ⟨i, span, k⟩ := n
    cases k with
    | context =>
      unfold evalNode
      dsimp only at hcontext ⊢
      rw [hcontext]
    | _ => cases htag
  rw [hreads]
  show (Except.ok ((Dict.get? t.slot m.locals).getD .nothing), m) = _
  rw [hlocal]
  rfl

theorem tracks_subject (htag : n.tag = .context) (hn : Runnable host tests n) :
    Tracks host tests (Good host) (denote true tests n.id) (denote false tests n.id) := by
  refine tracks_denote htag hn fun t rest htests howns _ m _ => ?_
  have hfound : tests.find? (fun t => t.owns n.id) = some t := by
    rw [htests]
    exact find?_cons_of_pos howns
  rw [denote, hfound]
  rfl

theorem tracked_layer (hhonest : Honest host) {inner inner' : List Test → Rules}
    (hr : ∀ tests, (tracking host tests).Keeps host (inner tests) (inner' tests)) (tests : List Test)
    {eval' : Node → Env → Run Val}
    (hcontext : ∀ {n env}, n.tag = .context → Runnable host tests n →
      Tracks host tests (Good host) (denote true tests n.id) (eval' n env))
    (heval : ∀ n env, n.tag ≠ .context → eval' n env = evalNode host (inner' tests) n env) :
    (tracking host tests).Keeps host
      { eval := fun node env =>
          if node.tag = .context then denote true tests node.id
          else evalNode host (inner tests) node env
        exec := execNode host (inner tests)
        call := callVal host (inner tests)
        fits := fun template l subject env => Test.hold { template, slot := l, subject }
          (fitsNode host (inner ({ template, slot := l, subject } :: tests)) template l subject env) }
      { eval := eval'
        exec := execNode host (inner' tests)
        call := callVal host (inner' tests)
        fits := fun template l subject env =>
          fitsNode host (inner' ({ template, slot := l, subject } :: tests)) template l subject env } where
  lawful := tracking_lawful hhonest tests
  eval {names n env} hn henv := by
    dsimp only
    split
    · next htag => exact hcontext htag hn
    · next htag =>
      rw [heval n env htag]
      exact (hr tests).evalNode (fun h => absurd h htag) hn henv
  exec hn henv := (hr tests).execNode hn henv
  call hf hargs := (hr tests).callVal hf hargs
  fits ht hv henv := tracks_fitsNode (hr _) ht.1 ht.2 hv henv.good

end Layer

theorem tracked_zero (hhonest : Honest host) (tests : List Test) :
    (tracking host tests).Keeps host (rulesUpTo host true 0 tests) (Rules.upTo host 0) :=
  ⟨tracking_lawful hhonest tests, fun _ _ => tracks_throw, fun _ _ => tracks_throw,
    fun _ _ => tracks_throw, fun _ _ _ => tracks_throw⟩

theorem tracked_upTo (hhonest : Honest host) (fuel : Nat) (tests : List Test) :
    (tracking host tests).Keeps host (rulesUpTo host true fuel tests) (Rules.upTo host fuel) := by
  induction fuel generalizing tests with
  | zero => exact tracked_zero hhonest tests
  | succ fuel ih =>
    exact tracked_layer hhonest ih tests (fun htag hn => tracks_context htag hn) fun _ _ _ => rfl

theorem tracked_rulesUpTo (hhonest : Honest host) (fuel : Nat) (tests : List Test) :
    (tracking host tests).Keeps host (rulesUpTo host true fuel tests) (rulesUpTo host false fuel tests) := by
  induction fuel generalizing tests with
  | zero => exact tracked_zero hhonest tests
  | succ fuel ih =>
    refine tracked_layer hhonest ih tests (fun htag hn => ?_) fun _ _ htag => if_neg htag
    rw [if_pos htag]
    exact tracks_subject htag hn

/-! ## Programs -/

section Programs

variable {host : Host} {r r' : Rules} (hr : (tracking host []).Keeps host r r')

include hr

theorem tracks_program {root : Node} (hroot : Closed host root) :
    Tracks host [] (Good host) (program r root) (program r' root) := by
  have hrunnable := hroot.runnable []
  have hscope : (tracking host []).Scope (fun _ => True) [] := ⟨trivial, forall_mem_nil _⟩
  obtain ⟨i, span, k⟩ := root
  cases k with
  | module body =>
    refine hr.blockResult (Invariant.body_of_forall (fun s hs _ => ?_) _) hscope
    exact hrunnable.child (of_decide_eq_true rfl) hs
  | _ => exact hr.eval hrunnable hscope

theorem tracks_request (name : String) {args : List Val} (hargs : GoodArgs host args) :
    Tracks host [] (fun _ => True) (request r name args) (request r' name args) := by
  refine tracks_get fun m m' hm => ?_
  rw [hm.exports]
  split
  · exact tracks_pure trivial
  · next f hf =>
    have hgood : Good host f := by
      obtain ⟨before, after, hexports, -⟩ := lookup_eq_some_iff.mp hf
      refine hm.goodExports (name, f) ?_
      rw [hexports]
      exact mem_append_right _ mem_cons_self
    have hcall : Tracks host [] (Good host) (r.call f args) (r'.call f args) := hr.call hgood hargs
    exact hcall.bind fun _ _ => tracks_pure trivial

/-- A program does what a careful run of it does, unless the careful run stops at a context reference. -/
theorem tracks_perform {root : Node} (hroot : Closed host root) {requests : List (String × List Val)}
    (hrequests : ∀ request ∈ requests, GoodArgs host request.2) :
    Tracks host [] (fun _ => True) (perform r root requests) (perform r' root requests) := by
  refine (tracks_program hr hroot).bind fun v _ => ?_
  refine hr.lawful.bind (hr.lawful.mapM fun q hq => tracks_request hr q.1 (hrequests q hq)) fun _ _ => ?_
  exact tracks_pure trivial

end Programs

end Motif.Testing
