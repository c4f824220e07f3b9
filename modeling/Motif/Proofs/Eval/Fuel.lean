import Motif.Proofs.Eval.Invariant

/-!
# Fuel

A run that ends, with a result or with an error, ends in the same way if there is more fuel. `Prolongs`
says so of two runs. It is an invariant of running programs, so one layer of rules over judgements that
prolong others prolongs the layer over those, and `n + 1` layers prolong `n` layers.
-/

namespace Motif.Eval

variable {α β : Type}

/-- The second run ends as the first one does, in the same state, unless the first one runs out of
    fuel. -/
def Prolongs (x y : Run α) : Prop := ∀ m, (x.run.run m).1 = .error .outOfFuel ∨ y.run.run m = x.run.run m

namespace Prolongs

variable {x y z : Run α} {f g : α → Run β}

theorem refl (x : Run α) : Prolongs x x := fun _ => .inr rfl

theorem outOfFuel : Prolongs (throw .outOfFuel) y := fun _ => .inl rfl

theorem trans (hxy : Prolongs x y) (hyz : Prolongs y z) : Prolongs x z := by
  intro m
  rcases hxy m with hx | hx
  · exact .inl hx
  · rcases hyz m with hy | hy
    · exact .inl (hx ▸ hy)
    · exact .inr (hy.trans hx)

/-- The second parts have to be compared only for values that the first part can have. -/
theorem bind (hx : Prolongs x y) (hf : ∀ m a m', Gives x m a m' → Prolongs (f a) (g a)) :
    Prolongs (x >>= f) (y >>= g) := by
  intro m
  rw [ExceptT.run_bind, StateT.run_bind, ExceptT.run_bind, StateT.run_bind]
  rcases hrun : x.run.run m with ⟨s | a, m₁⟩
  · rcases hx m with h | h
    · rw [hrun] at h
      cases h
      exact .inl rfl
    · rw [h, hrun]
      exact .inr rfl
  · rcases hx m with h | h
    · rw [hrun] at h
      cases h
    · rw [h, hrun]
      exact hf m a m₁ hrun m₁

theorem improves (h : Prolongs x y) : Improves x y := by
  intro m a m₁ ha
  have ha : x.run.run m = (.ok a, m₁) := ha
  rcases h m with hm | hm
  · rw [ha] at hm
    cases hm
  · exact hm.trans ha

end Prolongs

/-- Given enough fuel, the run ends with a result or an error and leaves the state `m'`. -/
def Concludes (x : Nat → Run α) (m : Machine) (result : Except EvalError α) (m' : Machine) : Prop :=
  ∃ fuel, (x fuel).run.run m = (result.mapError .error, m')

theorem Concludes.imp {x y : Nat → Run α} {m m' : Machine} {result : Except EvalError α}
    (hxy : ∀ fuel, ∃ fuel', Prolongs (x fuel) (y fuel')) (h : Concludes x m result m') :
    Concludes y m result m' := by
  obtain ⟨fuel, hx⟩ := h
  obtain ⟨fuel', hy⟩ := hxy fuel
  rcases hy m with hend | hend
  · rw [hx] at hend
    cases result with
    | ok a => cases hend
    | error e => cases hend
  · exact ⟨fuel', hend.trans hx⟩

structure Rules.Prolongs (r r' : Rules) : Prop where
  eval : ∀ n e, Eval.Prolongs (r.eval n e) (r'.eval n e)
  exec : ∀ n e, Eval.Prolongs (r.exec n e) (r'.exec n e)
  call : ∀ f args, Eval.Prolongs (r.call f args) (r'.call f args)
  fits : ∀ n l v e, Eval.Prolongs (r.fits n l v e) (r'.fits n l v e)

/-! ## One layer more -/

def prolonging : Invariant where
  Related P x y := Prolongs x y ∧ ∀ m a m', Gives x m a m' → P a
  Runs _ _ := True
  Tests _ _ _ := True
  Good _ := True
  Covers _ _ := True
  Loose := True

namespace prolonging

theorem scope (env : Env) : prolonging.Scope (fun _ => True) env := ⟨trivial, fun _ _ => trivial⟩

theorem body {names : Scope.Names} (body : List Node) : prolonging.Body names body :=
  Invariant.body_of_forall (fun _ _ _ => trivial) _

theorem enters {names : Scope.Names} (body : Body) : prolonging.Enters names body := by
  cases body with
  | block b => exact prolonging.body b
  | expr e => trivial

theorem executed (names : Scope.Names) (n : Node) (x : Flow × Env) : prolonging.Executed names n x :=
  ⟨⟨fun _ _ => trivial, fun _ _ => trivial, fun _ => trivial⟩, fun _ => .inr trivial, .inr trivial⟩

theorem clause (host : Host) (names : Scope.Names) (c : Node) : prolonging.Clause host names c := by
  unfold Invariant.Clause
  split
  · exact ⟨fun _ _ _ _ => trivial, fun _ _ _ => trivial⟩
  · trivial

theorem refl (x : Run α) : prolonging.Related (fun _ => True) x x := ⟨.refl x, fun _ _ _ _ => trivial⟩

theorem lawful (host : Host) : prolonging.Lawful host where
  pure h := ⟨.refl _, fun _ _ _ hgives => (gives_pure_inv hgives).1 ▸ h⟩
  bind hx hf := by
    refine ⟨hx.1.bind fun m a m' ha => (hf a (hx.2 m a m' ha)).1, fun m b m' hb => ?_⟩
    obtain ⟨a, m₁, ha, hb⟩ := hb.bind_inv
    exact (hf a (hx.2 m a m₁ ha)).2 m₁ b m' hb
  fail _ := ⟨.refl _, fun _ _ _ hgives => absurd hgives not_gives_fail⟩
  freshStamp := refl _
  addExport _ _ _ := refl _
  callNative _ _ := refl _
  data _ := trivial
  regex _ _ _ := trivial
  function {_ code scope _} _ :=
    ⟨fun _ _ => trivial, fun _ => True, prolonging.scope scope, fun _ _ => trivial, enters code.body⟩
  pattern {_ _ scope} _ := ⟨fun _ => True, prolonging.scope scope, fun _ _ => trivial⟩
  covers _ _ _ := trivial
  fewer _ _ := trivial
  loose _ _ _ := trivial
  needs {names n} hn := by
    refine Invariant.needs_of_children trivial (fun _ _ _ _ => refl _) (fun _ _ _ _ => trivial)
      (fun _ => clause host names _) hn fun htag => ?_
    obtain ⟨i, span, k⟩ := n
    cases k with
    | lambda | function => exact fun _ _ => by intros; trivial
    | pattern => exact ⟨fun _ _ => trivial, fun _ _ _ => trivial⟩
    | _ => simp [Kind.tag] at htag

end prolonging

theorem Rules.Prolongs.keeps {r r' : Rules} (h : r.Prolongs r') (host : Host) :
    prolonging.Keeps host r r' where
  lawful := prolonging.lawful host
  eval _ _ := ⟨h.eval _ _, fun _ _ _ _ => trivial⟩
  exec _ _ := ⟨h.exec _ _, fun _ x _ _ => prolonging.executed _ _ x⟩
  call _ _ := ⟨h.call _ _, fun _ _ _ _ => trivial⟩
  fits _ _ _ := ⟨h.fits _ _ _ _, fun _ _ _ _ => trivial⟩

theorem Rules.Prolongs.step {host : Host} {r r' : Rules} (h : r.Prolongs r') :
    (Rules.step host r).Prolongs (Rules.step host r') where
  eval n e := by
    refine ((h.keeps host).evalNode (fun htag => ?_) trivial (prolonging.scope e)).1
    obtain ⟨i, span, k⟩ := n
    cases k with
    | context => exact prolonging.refl _
    | _ => cases htag
  exec n e := ((h.keeps host).execNode trivial (prolonging.scope e)).1
  call f args := ((h.keeps host).callVal trivial fun _ _ => trivial).1
  fits n l v e := by
    refine ((h.keeps host).fitsNode (fun _ _ _ => prolonging.refl _) trivial (fun _ c _ => ?_) trivial
      (prolonging.scope e)).1
    unfold Invariant.Element
    split
    · exact ⟨fun _ _ => trivial, fun _ _ => trivial⟩
    · trivial

/-! ## Any number of layers -/

theorem Rules.exec_succ (host : Host) (n : Nat) (node : Node) (env : Env) :
    (Rules.upTo host (n + 1)).exec node env = execNode host (Rules.upTo host n) node env := rfl

theorem Rules.prolongs_upTo_succ (host : Host) (n : Nat) :
    (Rules.upTo host n).Prolongs (Rules.upTo host (n + 1)) := by
  induction n with
  | zero => exact ⟨fun _ _ => .outOfFuel, fun _ _ => .outOfFuel, fun _ _ => .outOfFuel,
      fun _ _ _ _ => .outOfFuel⟩
  | succ n ih => exact ih.step

theorem Rules.keeps_upTo_succ (host : Host) (n : Nat) :
    prolonging.Keeps host (Rules.upTo host n) (Rules.upTo host (n + 1)) :=
  (Rules.prolongs_upTo_succ host n).keeps host

theorem Rules.eval_upTo_succ (host : Host) (n : Nat) (node : Node) (env : Env) :
    Improves ((Rules.upTo host n).eval node env) ((Rules.upTo host (n + 1)).eval node env) :=
  ((Rules.prolongs_upTo_succ host n).eval node env).improves

theorem Rules.exec_upTo_succ (host : Host) (n : Nat) (node : Node) (env : Env) :
    Improves ((Rules.upTo host n).exec node env) ((Rules.upTo host (n + 1)).exec node env) :=
  ((Rules.prolongs_upTo_succ host n).exec node env).improves

theorem Rules.eval_upTo_le (host : Host) {k n : Nat} (h : k ≤ n) (node : Node) (env : Env) :
    Improves ((Rules.upTo host k).eval node env) ((Rules.upTo host n).eval node env) := by
  induction h with
  | refl => exact .refl _
  | step _ ih => exact ih.trans (Rules.eval_upTo_succ host _ node env)

/-- Given enough fuel, the expression has a value and leaves the state `m'`. -/
def Evaluates (host : Host) (n : Node) (env : Env) (m : Machine) (v : Val) (m' : Machine) : Prop :=
  ∃ fuel, Gives ((Rules.upTo host fuel).eval n env) m v m'

theorem Evaluates.unique {host : Host} {n : Node} {env : Env} {m m₁ m₂ : Machine} {v w : Val}
    (hv : Evaluates host n env m v m₁) (hw : Evaluates host n env m w m₂) : v = w ∧ m₁ = m₂ := by
  obtain ⟨k, hv⟩ := hv
  obtain ⟨k', hw⟩ := hw
  have hboth := (Rules.eval_upTo_le host (Nat.le_max_left k k') n env hv).symm.trans
    (Rules.eval_upTo_le host (Nat.le_max_right k k') n env hw)
  cases hboth
  exact ⟨rfl, rfl⟩

end Motif.Eval
