import Motif.Proofs.Emit.Declared

/-!
# Yields are generated inside generators

Where the walk over scopes reports no misuse of `await` and `emit`, the innermost function is a generator
whenever one of them is compiled. To speak of these points, a look at the state, which may do anything, is put
before and after the code of every `await` and `emit`: looks that do nothing inside generators leave the
program as it is. So every yield of the program is directly in a generator function.
-/

namespace Motif.Emit

open Script

/-- Compiles a node, with a look at the state before and after the code of every `await` and `emit`. -/
def compileLooking (look : Emit Unit) : Node → Compiled :=
  Node.fold fun n k => if n.tag ∈ yieldTags then (compileNode n k).watched look else compileNode n k

theorem compileLooking_eq (look : Emit Unit) (n : Node) : compileLooking look n =
      if n.tag ∈ yieldTags then (compileNode n (n.kind.map (compileLooking look))).watched look
      else compileNode n (n.kind.map (compileLooking look)) := Node.fold_eq _ n

/-- The innermost function is a generator. -/
def State.InGenerator (s : State) : Prop := s.frames.head?.any Frame.isGenerator = true

theorem State.inGenerator_iff {s : State} : s.InGenerator ↔ generating s.frames = true := by
  obtain ⟨constants, ids, names, frames⟩ := s
  cases frames <;> exact Iff.rfl

def blocksOnly (setting : Setting) : Premises :=
  { setting, plain := False, blocks := True, ready := False, inBlock := False }

section Trees

variable {setting : Setting} {look : Emit Unit}

theorem makes_compileLooking (hlook : ∀ s : State, s.InGenerator → Emits setting look s () s) (n : Node)
    {path : Path} (hn : n.InBlocks path) {inner : Prop} (hinner : path.InBlock → inner) :
    ((blocksOnly setting).within inner).Makes (compileLooking look n) (compile n) := by
  refine makes_compile look (fun n => n.tag ∈ yieldTags) (fun n => ?_) ?_ n
    ⟨False.elim, False.elim, fun _ => hn, fun _ _ _ _ => trivial, False.elim, False.elim⟩ hinner
  · rw [compileLooking_eq]
    split
    · next htag => exact .inr ⟨htag, rfl⟩
    · exact .inl rfl
  · intro n inner htag hin s hs
    exact hlook s (State.inGenerator_iff.mpr (hs.block (hin trivial htag)))

theorem programBy_looking (hlook : ∀ s : State, s.InGenerator → Emits setting look s () s) {root : Node}
    (hroot : root.tag = .module → root.InBlocks []) :
    ((programBy (compileLooking look) root).run setting).run {} = ((program root).run setting).run {} ∧
      ∀ e imports s', Emits setting (program root) {} (e, imports) s' → e.YieldsIn false := by
  obtain ⟨i, span, k⟩ := root
  cases k with
  | module body =>
    have hchildren := (Node.inBlocks_iff.mp (hroot rfl)).2
    have houter : ¬ Path.InBlock [Node.frame ⟨i, span, .module body⟩] := Bool.false_ne_true
    obtain ⟨heq, hfits⟩ := programBy_does (blocksOnly setting) fun n hn =>
      makes_compileLooking hlook n (hchildren n hn) fun h => absurd h houter
    refine ⟨heq, fun e imports s' hrun => ?_⟩
    dsimp only [blocksOnly] at hfits
    rw [hrun] at hfits
    exact hfits.1.yieldsIn fun _ h => h trivial
  | _ => exact ⟨rfl, fun e imports s' hrun => by cases hrun⟩

end Trees

/-- Where the pass over scopes reports no misuse, the innermost function is a generator whenever an `await` or
    `emit` is compiled: a look at the state before and after their code, in whatever position, changes nothing
    if it does nothing inside generators. Every yield of the program is directly in a generator function. -/
theorem yields_in_generators (options : Options) (root : Node) (session : Session)
    (h : ∀ d ∈ Scope.reported options root session, d.kind ≠ .usage) (setting : Setting) :
    (∀ look : Emit Unit, (∀ s : State, s.InGenerator → Emits setting look s () s) →
      ((programBy (compileLooking look) root).run setting).run {} = ((program root).run setting).run {}) ∧
      ∀ e imports s, Emits setting (program root) {} (e, imports) s → e.YieldsIn false := by
  have hroot (htag : root.tag = .module) : root.InBlocks [] := Scope.inBlocks_of_reported htag h
  refine ⟨fun look hlook => (programBy_looking hlook hroot).1, ?_⟩
  have hpure (s : State) (_ : s.InGenerator) : Emits setting (pure ()) s () s := emits_pure ()
  exact (programBy_looking hpure hroot).2

def blocksModule : Node :=
  let num (x : Float) : Node := .ofKind (.literal (.number x))
  let name (s : String) : Node := .ofKind (.ident s)
  let wait (n : Node) : Node := .ofKind (.await .value n)
  .ofKind (.module [
    .ofKind (.assign (.name "task") (.ofKind (.doBlock [
      .ofKind (.ret (.ofKind (.choose (wait (num 1)) [] [.ofKind (.exprStmt (wait (num 2)))])))]))),
    .ofKind (.ret (.ofKind (.generator [
      .ofKind (.loop [.ofKind (.range (.name "x") (.ofKind (.array [num 3])) none)]
        [.ofKind (.exprStmt (.ofKind (.emit (name "x"))))] [])])))])

theorem yields_in_generators_blocks : (∀ d ∈ Scope.reported {} blocksModule {}, d.kind ≠ .usage) ∧
      (∀ look : Emit Unit, (∀ s : State, s.InGenerator → Emits ⟨{}, {}⟩ look s () s) →
        ((programBy (compileLooking look) blocksModule).run ⟨{}, {}⟩).run {} =
          ((program blocksModule).run ⟨{}, {}⟩).run {}) ∧
      ∃ e imports s, Emits ⟨{}, {}⟩ (program blocksModule) {} (e, imports) s ∧ e.YieldsIn false := by
  have hreported : ∀ d ∈ Scope.reported {} blocksModule {}, d.kind ≠ .usage := by decide
  obtain ⟨hlook, hcode⟩ := yields_in_generators {} blocksModule {} hreported ⟨{}, {}⟩
  have hok : (((program blocksModule).run ⟨{}, {}⟩).run {}).isOk = true := by decide +kernel
  refine ⟨hreported, hlook, ?_⟩
  cases hrun : ((program blocksModule).run ⟨{}, {}⟩).run {} with
  | error e =>
    rw [hrun] at hok
    cases hok
  | ok result => exact ⟨_, _, _, hrun, hcode _ _ _ hrun⟩

end Motif.Emit
