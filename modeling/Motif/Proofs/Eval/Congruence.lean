import Motif.Proofs.Eval.Correspondence

/-!
# Evaluation respects correspondences

One layer of the rules of evaluation, on nodes of the same shape with corresponding children, does
alike things if the layer below does. There is one statement for each function that the rules are
made of; `Rules.Sim.evalNode`, `execNode`, `callVal` and `fitsNode` put them together. Nothing here
depends on what the corresponding nodes look like.
-/

namespace Motif.Eval

open List

variable {C : Correspondence} {host : Host} {r r' : Rules} {e e' : Env} {v v' : Val} {n n' : Node}
  {as b b' : List Node} {as' : List Val} {span : Span} {α : Type}

/-! ## Machines -/

theorem follows_freshStamp : Follows C (· = ·) freshStamp freshStamp := by
  intro m m' hm a m₁ h
  cases h
  exact ⟨m'.nextStamp, { m' with nextStamp := m'.nextStamp + 1 }, rfl, hm.nextStamp.symm,
    ⟨hm.locals, hm.exports, hm.calls, by rw [hm.nextStamp]⟩⟩

theorem follows_setLocal (l : Nat) (hv : Val.Alike C v v') :
    Follows C (fun _ _ => True) (setLocal l v) (setLocal l v') := by
  intro m m' hm a m₁ h
  cases h
  exact ⟨(), _, rfl, trivial, ⟨hm.locals.set l hv, hm.exports, hm.calls, hm.nextStamp⟩⟩

theorem follows_addExport (name : String) (hv : Val.Alike C v v') :
    Follows C (fun _ _ => True) (addExport name v) (addExport name v') := by
  intro m m' hm a m₁ h
  cases h
  exact ⟨(), _, rfl, trivial,
    ⟨hm.locals, hm.exports.append (.cons hv .nil), hm.calls, hm.nextStamp⟩⟩

theorem Val.Alike.getD {v v' : Option Val} (h : Option.Rel (Val.Alike C) v v') :
    Val.Alike C (v.getD .nothing) (v'.getD .nothing) := by
  cases h with
  | none => exact .data .nothing
  | some hv => exact hv

theorem follows_getLocal (l : Nat) : Follows C (Val.Alike C) (getLocal l) (getLocal l) := by
  intro m m' hm a m₁ h
  cases h
  exact ⟨(Dict.get? l m'.locals).getD .nothing, m', rfl, .getD (hm.locals.get? l), hm⟩

theorem follows_asData (hv : Val.Alike C v v') : Follows C (· = ·) (asData v) (asData v') := by
  cases hv with
  | data d => exact .ofPure rfl
  | _ => exact .ofFail

theorem follows_callNative (hh : host.Respects (Val.Alike C)) (name : String)
    {args args' : List Val} (ha : Forall₂ (Val.Alike C) args args') :
    Follows C (Val.Alike C) (callNative host name args) (callNative host name args') := by
  intro m m' hm v m₁ h
  obtain ⟨s, m₂, hget, hrest⟩ := h.bind_inv
  obtain ⟨rfl, rfl⟩ := gives_get_inv hget
  obtain ⟨_, m₃, hmod, hcall⟩ := hrest.bind_inv
  obtain rfl := gives_modify_inv hmod
  -- The second run notes its own call first, so its state is alike again.
  have hm' : Machine.Alike (Val.Alike C) { m with calls := m.calls ++ [{ name, args }] }
      { m' with calls := m'.calls ++ [{ name, args := args' }] } :=
    ⟨hm.locals, hm.exports, rel_append hm.calls (.cons ⟨rfl, ha⟩ .nil), hm.nextStamp⟩
  cases hf : host.natives name with
  | none =>
    rw [hf] at hcall
    exact absurd hcall not_gives_fail
  | some f =>
    rw [hf] at hcall
    cases hfv : f m.calls args with
    | error e =>
      simp only [hfv] at hcall
      exact absurd hcall not_gives_fail
    | ok w =>
      simp only [hfv] at hcall
      obtain ⟨rfl, rfl⟩ := gives_pure_inv hcall
      obtain ⟨v', hv', hvv'⟩ := hh name f hf _ _ _ _ hm.calls ha _ hfv
      refine ⟨v', _, ?_, hvv', hm'⟩
      refine (gives_get m').bind ((gives_modify _ m').bind ?_)
      simp only [hf, hv']
      exact gives_pure _ _

/-! ## Names -/

theorem follows_lookup (name : String) (he : Env.Alike C e e') :
    Follows C (Val.Alike C) (lookup host name e) (lookup host name e') := by
  have hget := he.get? name
  unfold lookup
  generalize Dict.get? name e = v at *
  generalize Dict.get? name e' = v' at *
  cases hget with
  | some hv => exact .ofPure hv
  | none =>
    dsimp only
    split
    · exact .ofPure (.native name)
    · split
      · exact .ofPure (.type _)
      · exact .ofFail

theorem Env.Alike.bind (target : Target) (hv : Val.Alike C v v') (he : Env.Alike C e e') :
    Env.Alike C (bind target v e) (Eval.bind target v' e') := by
  cases target with
  | name name => exact he.set name hv
  | array names =>
    -- The parts are data, so they are equal on both sides.
    cases hv <;> exact Dict.Alike.setAll (alikeData _ _) he
  | object pairs =>
    unfold Eval.bind
    simp only [hv.data?_eq]
    exact Dict.Alike.setAll (Dict.Alike.map pairs fun p => ⟨rfl, .data _⟩) he
where
  alikeData (items : List Value) (names : List String) :
      Env.Alike C (names.mapIdx fun i name => (name, .data (items[i]?.getD .nothing)))
        (names.mapIdx fun i name => (name, .data (items[i]?.getD .nothing))) := by
    rw [mapIdx_eq_zipIdx_map]
    exact Dict.Alike.map _ fun p => ⟨rfl, .data _⟩

/-! ## Blocks and loops -/

theorem follows_block {exec exec' : Node → Env → Run (Flow × Env)}
    (hx : ∀ {n n' e e'}, C.node n n' → Env.Alike C e e' → Follows C (Outcome C) (exec n e) (exec' n' e'))
    (hb : Forall₂ C.node b b') (he : Env.Alike C e e') :
    Follows C (Outcome C) (block exec b e) (block exec' b' e') := by
  induction hb generalizing e e' with
  | nil => exact .ofPure ⟨.next, he⟩
  | cons hn _ ih =>
    refine (hx hn he).bind fun x x' hxx' => ?_
    obtain ⟨f, e₁⟩ := x
    obtain ⟨f', e₁'⟩ := x'
    obtain ⟨hf, he₁⟩ := hxx'
    cases hf with
    | next => exact ih he₁
    | returned hv => exact .ofPure ⟨.returned hv, he₁⟩

structure Progress.Alike (C : Correspondence) (p p' : Progress) : Prop where
  outer : Env.Alike C p.outer p'.outer
  ran : p'.ran = p.ran

structure LoopOutcome (C : Correspondence) (x x' : Flow × Progress) : Prop where
  flow : Flow.Alike C x.1 x'.1
  progress : Progress.Alike C x.2 x'.2

theorem follows_iterate (hv : Val.Alike C v v') : Follows C (· = ·) (iterate v) (iterate v') := by
  unfold iterate
  rw [hv.data?_eq]
  split
  · exact .ofPure rfl
  · exact .ofFail

variable {β : Type} {p p' : Progress} {rs rs' : List Node} {f f' w w' : Val} {R : α → β → Prop}
  {xs : List α} {ys : List β} {i : Nat} {span' : Span} {x : Node} {m m₁ : Machine}

theorem follows_overItems {step step' : Value → Progress → Run (Flow × Progress)}
    (hs : ∀ v {p p'}, Progress.Alike C p p' → Follows C (LoopOutcome C) (step v p) (step' v p'))
    (items : List Value) (hp : Progress.Alike C p p') :
    Follows C (LoopOutcome C) (overItems step items p) (overItems step' items p') := by
  induction items generalizing p p' with
  | nil => exact .ofPure ⟨.next, hp⟩
  | cons v items ih =>
    refine (hs v hp).bind fun x x' hxx' => ?_
    obtain ⟨f, p₁⟩ := x
    obtain ⟨f', p₁'⟩ := x'
    obtain ⟨hf, hp₁⟩ := hxx'
    cases hf with
    | next => exact ih hp₁
    | returned hv => exact .ofPure ⟨.returned hv, hp₁⟩

theorem Env.Alike.carry (carried : List String) {i i' o o' : Env} (hi : Env.Alike C i i')
    (ho : Env.Alike C o o') : Env.Alike C (carry carried i o) (Eval.carry carried i' o') := by
  unfold Eval.carry
  induction carried generalizing o o' with
  | nil => exact ho
  | cons name carried ih =>
    refine ih ?_
    have hget := hi.get? name
    dsimp only
    generalize Dict.get? name i = v at *
    generalize Dict.get? name i' = v' at *
    cases hget with
    | none => exact ho
    | some hv => exact ho.set name hv

theorem Rules.Sim.admits (hr : r.Sim C r') {g g' : Option Node} (hg : Option.Rel C.node g g')
    (he : Env.Alike C e e') : Follows C (· = ·) (admits r g e) (Eval.admits r' g' e') := by
  cases hg with
  | none => exact .ofPure rfl
  | some hn => exact (hr.eval hn he).bind fun v v' hv => .ofPure hv.isTruthy_eq.symm

theorem Rules.Sim.overRanges (hC : C.Lawful) (hr : r.Sim C r') (carried : List String) (hb : C.body b b')
    (hrs : Forall₂ C.node rs rs') (he : Env.Alike C e e') (hp : Progress.Alike C p p') :
    Follows C (LoopOutcome C) (overRanges r carried b rs e p) (Eval.overRanges r' carried b' rs' e' p') := by
  induction hrs generalizing e e' p p' with
  | nil =>
    refine (hr.block hb (he.setAll hp.outer)).bind fun x x' hx => ?_
    exact .ofPure ⟨hx.flow, hx.env.carry carried hp.outer, rfl⟩
  | @cons n n' rs rs' hn _ ih =>
    unfold Eval.overRanges
    cases hk : n.kind with
    | range t c g =>
      obtain ⟨c', g', hk', hc, hg⟩ := (hC.rigid hn (by simp [Node.tag, hk, Kind.tag, rigidTags])).range hk
      simp only [hk']
      refine (hr.eval hc (he.setAll hp.outer)).bind fun v v' hv => ?_
      refine (follows_iterate hv).bindEq fun items => ?_
      refine follows_overItems (fun item p p' hp => ?_) items hp
      have he₁ := he.bind t (.data item)
      refine (hr.admits hg (he₁.setAll hp.outer)).bindEq fun a => ?_
      cases a with
      | true => exact ih he₁ hp
      | false => exact .ofPure ⟨.next, hp⟩
    | _ => exact .ofFail

/-! ## Tests -/

theorem Rules.Sim.matchesPattern (hr : r.Sim C r') (hn : C.Tests n n') (hv : Val.Alike C v v')
    (he : Env.Alike C e e') :
    Follows C (· = ·) (matchesPattern host r n v e) (Eval.matchesPattern host r' n' v' e') := by
  rw [matchesPattern_eq, matchesPattern_eq, hn.id]
  cases host.annotations.local? n.id with
  | none => exact .ofFail
  | some l => exact hr.fits l hn.template hv he

theorem Rules.Sim.isMatch (hr : r.Sim C r') (hf : Val.Alike C f f') (hv : Val.Alike C v v') :
    Follows C (· = ·) (isMatch host r f v) (Eval.isMatch host r' f' v') := by
  cases hf with
  | data d => cases hv <;> exact .ofPure rfl
  | function hc he hp =>
    refine (hr.call (.function hc he hp) (.cons hv .nil)).bind fun w w' hw => ?_
    exact .ofPure hw.isTruthy_eq.symm
  | native n =>
    refine (hr.call (.native n) (.cons hv .nil)).bind fun w w' hw => ?_
    exact .ofPure hw.isTruthy_eq.symm
  | pattern _ ht he => exact hr.matchesPattern ht hv he
  | regex p f c =>
    cases hv with
    | data d => cases d <;> exact .ofPure rfl
    | _ => exact .ofPure rfl
  | type t => exact .ofPure (hv.hasType_eq t).symm

theorem follows_allElements {test test' : Nat → Node → Run Bool} {es es' : List Node}
    (hes : Forall₂ C.Element es es')
    (ht : ∀ i {n n'}, C.Element n n' → Follows C (· = ·) (test i n) (test' i n')) (i : Nat) :
    Follows C (· = ·) (allElements test i es) (allElements test' i es') := by
  induction hes generalizing i with
  | nil => exact .ofPure rfl
  | cons hn _ ih =>
    refine (ht i hn).bindEq fun a => ?_
    cases a with
    | true => exact ih (i + 1)
    | false => exact .ofPure rfl

theorem Rules.Sim.key (hr : r.Sim C r') (hn : C.Named n n') (he : Env.Alike C e e') (named : String → α)
    (computed : Value → α) :
    Follows C (· = ·)
      (match n.ident? with
        | some name => pure (named name)
        | none => do return computed (← asData (← r.eval n e)))
      (match n'.ident? with
        | some name => pure (named name)
        | none => do return computed (← asData (← r'.eval n' e'))) := by
  rw [hn.2]
  cases n.ident? with
  | some name => exact .ofPure rfl
  | none =>
    refine (hr.eval hn.1 he).bind fun v v' hv => ?_
    refine (follows_asData hv).bindEq fun d => ?_
    exact .ofPure rfl

theorem Rules.Sim.elementKey (hr : r.Sim C r') {k k' : Option Node} (hk : Option.Rel C.Named k k')
    (position : Nat) (he : Env.Alike C e e') :
    Follows C (· = ·) (elementKey r k position e) (Eval.elementKey r' k' position e') := by
  cases hk with
  | none => exact .ofPure rfl
  | some hn =>
    have hkey := hr.key hn he Value.string id
    simp only [id, bind_pure] at hkey
    exact hkey

theorem Rules.Sim.fitsElement (hr : r.Sim C r') (collection : Value) (he : Env.Alike C e e')
    (position : Nat) (hn : C.Element n n') : Follows C (· = ·) (fitsElement host r collection e position n)
      (Eval.fitsElement host r' collection e' position n') := by
  unfold Eval.fitsElement
  cases hk : n.kind with
  | element key t =>
    obtain ⟨hid, key', t', hk', hkey, ht⟩ := hn hk
    simp only [hk', hid]
    refine (hr.elementKey hkey position he).bindEq fun d => ?_
    cases host.annotations.local? n.id with
    | none => exact .ofFail
    | some l => exact hr.fits l ht (.data _) he
  | _ => exact .ofFail

theorem fitsNode_simple (host : Host) (r : Rules) (htag : n.tag ∉ collectionTags) (l : Nat) (v : Val)
    (e : Env) : fitsNode host r n l v e = fitsSimple host r n l v e := by
  obtain ⟨i, span, k⟩ := n
  cases k with
  | objectPattern | arrayPattern => exact absurd htag (not_not.mpr (of_decide_eq_true rfl))
  | _ => rfl

theorem fitsSimple_condition (r : Rules) (h : speaks host n = true) (l : Nat) (v : Val) (e : Env) :
    fitsSimple host r n l v e = holdsFor r n l v e := by
  unfold fitsSimple
  exact if_pos h

theorem fitsSimple_comparison (r : Rules) (h : speaks host n = false) (htag : n.tag ∉ [Tag.ident, .literal])
    (l : Nat) (v : Val) (e : Env) : fitsSimple host r n l v e = comparesWith host r n v e := by
  unfold fitsSimple
  refine (if_neg (by rw [← speaks, h]; exact Bool.false_ne_true)).trans ?_
  obtain ⟨i, span, k⟩ := n
  cases k with
  | ident | literal => exact absurd htag (not_not.mpr (of_decide_eq_true rfl))
  | _ => rfl

theorem Rules.Sim.holdsFor (hr : r.Sim C r') (hn : C.node n n') (l : Nat) (hv : Val.Alike C v v')
    (he : Env.Alike C e e') : Follows C (· = ·) (holdsFor r n l v e) (Eval.holdsFor r' n' l v' e') := by
  refine (follows_setLocal l hv).bind fun _ _ _ => ?_
  exact (hr.eval hn he).bind fun w w' hw => .ofPure hw.isTruthy_eq.symm

theorem Rules.Sim.comparesWith (hr : r.Sim C r') (hn : C.node n n') (hv : Val.Alike C v v')
    (he : Env.Alike C e e') :
    Follows C (· = ·) (comparesWith host r n v e) (Eval.comparesWith host r' n' v' e') :=
  (hr.eval hn he).bind fun _ _ hf => hr.isMatch hf hv

theorem Rules.Sim.fitsCollection (hr : r.Sim C r') (hid : n'.id = n.id) (hn : C.Collection n.kind n'.kind)
    (l : Nat) (hv : Val.Alike C v v') (he : Env.Alike C e e') :
    Follows C (· = ·) (fitsNode host r n l v e) (fitsNode host r' n' l v' e') := by
  have helements {es es' : List Node} (hes : Forall₂ C.Element es es') (d : Value) :
      Follows C (· = ·) (allElements (Eval.fitsElement host r d e) 0 es)
        (allElements (Eval.fitsElement host r' d e') 0 es') :=
    follows_allElements hes (fun i _ _ hn => hr.fitsElement d he i hn) 0
  unfold fitsNode
  rw [hid]
  generalize n.kind = k at hn ⊢
  generalize n'.kind = k' at hn ⊢
  cases hn with
  | object hes =>
    refine (follows_setLocal _ hv).bind fun _ _ _ => ?_
    cases hv with
    | data d =>
      cases d with
      | object entries => exact helements hes _
      | _ => exact .ofPure rfl
    | _ => exact .ofPure rfl
  | array hes =>
    refine (follows_setLocal _ hv).bind fun _ _ _ => ?_
    cases hv with
    | data d =>
      cases d with
      | array items =>
        rw [hes.length_eq]
        dsimp only
        split
        · exact helements hes _
        · exact .ofPure rfl
      | _ => exact .ofPure rfl
    | _ => exact .ofPure rfl

theorem Rules.Sim.fitsSimple (hr : r.Sim C r') (hid : n'.id = n.id) (hkind : n'.kind = n.kind)
    (hn : C.node n n') (l : Nat) (hv : Val.Alike C v v') (he : Env.Alike C e e') :
    Follows C (· = ·) (fitsSimple host r n l v e) (Eval.fitsSimple host r' n' l v' e') := by
  have hcompare : Follows C (· = ·) (Eval.comparesWith host r n v e)
      (Eval.comparesWith host r' n' v' e') := hr.comparesWith hn hv he
  have htag : n'.tag = n.tag := congrArg Kind.tag hkind
  unfold Eval.fitsSimple
  dsimp only
  rw [hid, htag, hkind]
  split
  · exact hr.holdsFor hn l hv he
  · cases n.kind with
    | ident name =>
      dsimp only
      rw [he.contains_eq]
      split
      · exact .ofPure (hv.hasType_eq _).symm
      · exact hcompare
    | literal d =>
      dsimp only
      split
      · exact .ofPure (by rw [hv.data?_eq])
      · exact hcompare
    | _ => exact hcompare

theorem Rules.Sim.fitsNode (hr : r.Sim C r') (hn : C.Tested host r' n n') (l : Nat) (hv : Val.Alike C v v')
    (he : Env.Alike C e e') :
    Follows C (· = ·) (fitsNode host r n l v e) (Eval.fitsNode host r' n' l v' e') := by
  cases hn with
  | collection hid h => exact hr.fitsCollection hid h l hv he
  | leaf hid hkind htag hn =>
    have htag' : n'.tag ∉ collectionTags := by rwa [Node.tag, hkind]
    rw [fitsNode_simple host r htag, fitsNode_simple host r' htag']
    exact hr.fitsSimple hid hkind hn l hv he
  | condition hspeaks htag hn himp =>
    rw [fitsNode_simple host r htag, fitsSimple_condition r hspeaks]
    exact (hr.holdsFor hn l hv he).improve (himp l v' e')
  | comparison hspeaks htag hn himp =>
    have hleaf : n.tag ∉ [Tag.ident, .literal] := fun h => htag (mem_append_left collectionTags h)
    have htag : n.tag ∉ collectionTags := fun h => htag (mem_append_right [Tag.ident, .literal] h)
    rw [fitsNode_simple host r htag, fitsSimple_comparison r hspeaks hleaf]
    exact (hr.comparesWith hn hv he).improve (himp l v' e')

theorem Rules.Sim.chooseBody (hC : C.Lawful) (hr : r.Sim C r') (hv : Val.Alike C v v')
    (he : Env.Alike C e e') {o o' : List Node} (ho : C.body o o') (hvalued : C.valued o o')
    {cs cs' : List Node} (hcs : Forall₂ C.node cs cs') :
    Follows C (fun b b' => C.body b b' ∧ C.valued b b') (chooseBody host r v e o cs)
      (Eval.chooseBody host r' v' e' o' cs') := by
  have hany {ps ps' : List Node} (hps : Forall₂ C.Tests ps ps') :
      Follows C (· = ·) (ps.anyM fun p => Eval.matchesPattern host r p v e)
        (ps'.anyM fun p => Eval.matchesPattern host r' p v' e') := by
    induction hps with
    | nil => exact .ofPure rfl
    | cons hp _ ih =>
      refine (hr.matchesPattern hp hv he).bindEq fun a => ?_
      cases a with
      | true => exact .ofPure rfl
      | false => exact ih
  induction hcs with
  | nil => exact .ofPure ⟨ho, hvalued⟩
  | @cons n n' _ _ hn _ ih =>
    unfold Eval.chooseBody
    cases hk : n.kind with
    | clause ps b =>
      obtain ⟨ps', b', hk', hps, hb⟩ := (hC.rigid hn (by simp [Node.tag, hk, Kind.tag, rigidTags])).clause hk
      simp only [hk']
      refine (hany hps).bindEq fun a => ?_
      cases a with
      | true => exact .ofPure hb
      | false => exact ih
    | _ => exact .ofFail

/-! ## Calls -/

theorem rel_head? (h : Forall₂ R xs ys) : Option.Rel R xs.head? ys.head? := by
  cases h with
  | nil => exact .none
  | cons hx _ => exact .some hx

theorem rel_getLast? (h : Forall₂ R xs ys) : Option.Rel R xs.getLast? ys.getLast? := by
  rw [getLast?_eq_head?_reverse, getLast?_eq_head?_reverse]
  exact rel_head? (forall₂_reverse_iff.mpr h)

theorem Val.Alike.head {as : List Val} (h : Forall₂ (Val.Alike C) as as') :
    Val.Alike C (as.head?.getD .nothing) (as'.head?.getD .nothing) := .getD (rel_head? h)

theorem follows_argument (variadic : Bool) {as : List Val} (h : Forall₂ (Val.Alike C) as as') :
    Follows C (Val.Alike C) (argument variadic as) (argument variadic as') := by
  cases variadic with
  | true =>
    refine (Refines.mapM h fun v v' hv => follows_asData hv).bind fun ds ds' hds => ?_
    rw [forall₂_eq_eq_eq] at hds
    subst hds
    exact .ofPure (.data _)
  | false => exact .ofPure (.head h)

theorem follows_bindParams (hC : C.Lawful) {ps ps' : List Node} (hps : Forall₂ C.node ps ps')
    {as : List Val} (has : Forall₂ (Val.Alike C) as as') (he : Env.Alike C e e') :
    Follows C (Env.Alike C) (bindParams ps as e) (bindParams ps' as' e') := by
  induction hps generalizing as as' e e' with
  | nil => exact .ofPure he
  | @cons n n' _ _ hn _ ih =>
    unfold bindParams
    cases hk : n.kind with
    | param name p variadic =>
      obtain ⟨p', hk'⟩ := (hC.rigid hn (by simp [Node.tag, hk, Kind.tag, rigidTags])).param hk
      simp only [hk']
      refine (follows_argument variadic has).bind fun v v' hv => ?_
      have htail : Forall₂ (Val.Alike C) as.tail as'.tail := by
        cases has with
        | nil => exact .nil
        | cons _ h => exact h
      exact ih htail (he.set name hv)
    | _ => exact .ofFail

theorem Rules.Sim.blockResult (hr : r.Sim C r') (hb : C.body b b') (he : Env.Alike C e e') :
    Follows C (Val.Alike C) (blockResult r.exec b e) (Eval.blockResult r'.exec b' e') := by
  refine (hr.block hb he).bind fun x x' hx => ?_
  obtain ⟨f, e₁⟩ := x
  obtain ⟨f', e₁'⟩ := x'
  cases hx.flow with
  | next => exact .ofPure (.data .nothing)
  | returned hv => exact .ofPure hv

theorem Rules.Sim.enterBody (hr : r.Sim C r') {b b' : Body} (hb : Body.Alike C b b') (he : Env.Alike C e e') :
    Follows C (Val.Alike C) (enterBody r b e) (Eval.enterBody r' b' e') := by
  cases hb with
  | block hb => exact hr.blockResult hb he
  | expr hn => exact hr.eval hn he

theorem Rules.Sim.callVal (hC : C.Lawful) (hh : host.Respects (Val.Alike C)) (hr : r.Sim C r')
    (hf : Val.Alike C f f') {as : List Val} (has : Forall₂ (Val.Alike C) as as') :
    Follows C (Val.Alike C) (callVal host r f as) (Eval.callVal host r' f' as') := by
  have htest {g g' : Val} (hg : Val.Alike C g g') :
      Follows C (Val.Alike C) (do return .bool (← Eval.isMatch host r g (as.head?.getD .nothing)))
        (do return .bool (← Eval.isMatch host r' g' (as'.head?.getD .nothing))) := by
    refine (hr.isMatch hg (.head has)).bindEq fun a => ?_
    exact .ofPure (.data _)
  cases hf with
  | @function s c c' e e' p p' hc he hp =>
    have henv : Env.Alike C
        (match c.name with | some name => Dict.set name (.function s c e p) e | none => e)
        (match c'.name with | some name => Dict.set name (.function s c' e' p') e' | none => e') := by
      rw [hc.name]
      cases c.name with
      | none => exact he
      | some name => exact he.set name (.function hc he hp)
    unfold Eval.callVal
    refine (follows_bindParams hC hc.params has henv).bind fun e₁ e₁' he₁ => ?_
    refine (hr.admits hc.guard he₁).bindEq fun a => ?_
    cases a with
    | true => exact hr.enterBody hc.body he₁
    | false =>
      cases hp with
      | none => exact .ofFail
      | some hv => exact hr.call hv has
  | data d => exact .ofFail
  | native n => exact follows_callNative hh n has
  | pattern hn ht he => exact htest (.pattern hn ht he)
  | regex p f c => exact htest (.regex p f c)
  | type t => exact htest (.type t)

/-! ## Expressions -/

theorem follows_unary (op : UnaryOp) (hv : Val.Alike C v v') :
    Follows C (Val.Alike C) (unary op v) (unary op v') := by
  cases hv with
  | data d =>
    unfold unary
    dsimp only
    cases op.eval? d with
    | none => exact .ofFail
    | some d => exact .ofPure (Val.Alike.data d)
  | _ =>
    cases op with
    | not => exact .ofPure (.data _)
    | neg => exact .ofFail

theorem operate?_eq (op : BinaryOp) (hv : Val.Alike C v v') (hw : Val.Alike C w w') :
    operate? op v' w' = operate? op v w := by
  cases hv <;> cases hw <;> cases op <;> rfl

theorem Rules.Sim.binary (hr : r.Sim C r') (op : BinaryOp) (hv : Val.Alike C v v') (hw : Val.Alike C w w') :
    Follows C (Val.Alike C) (binary host r op v w) (Eval.binary host r' op v' w') := by
  unfold Eval.binary
  rw [operate?_eq op hv hw, hv.typeName_eq, hw.typeName_eq]
  split
  · refine (hr.isMatch hw hv).bindEq fun a => ?_
    exact .ofPure (.data _)
  · split
    · exact .ofPure (.data _)
    · exact .ofFail

theorem Rules.Sim.objectEntry (hC : C.Lawful) (hr : r.Sim C r') (he : Env.Alike C e e') (hn : C.node n n') :
    Follows C (· = ·) (objectEntry r e n) (Eval.objectEntry r' e' n') := by
  unfold Eval.objectEntry
  cases hk : n.kind with
  | entry key value =>
    obtain ⟨key', value', hk', hkey, hvalue⟩ :=
      (hC.rigid hn (by simp [Node.tag, hk, Kind.tag, rigidTags])).entry hk
    simp only [hk']
    refine (hr.key hkey he (fun name => name) Value.propertyKey).bindEq fun s => ?_
    refine (hr.eval hvalue he).bind fun v v' hv => ?_
    refine (follows_asData hv).bindEq fun d => ?_
    exact .ofPure rfl
  | _ => exact .ofFail

theorem follows_blockValue (hC : C.Lawful)
    (honly : ∀ {n e m x m₁}, Gives (r.exec n e) m x m₁ → n.tag ∈ statementTags)
    (heval : ∀ {n n' e e'}, C.node n n' → Env.Alike C e e' →
      Follows C (Val.Alike C) (r.eval n e) (r'.eval n' e'))
    (hexec : ∀ {n n' e e'}, C.node n n' → Env.Alike C e e' →
      Follows C (Outcome C) (r.exec n e) (r'.exec n' e')) (hb : Forall₂ C.node b b')
    (he : Env.Alike C e e') : Follows C (Val.Alike C) (blockValue r b e) (blockValue r' b' e') := by
  have hinit : Forall₂ C.node b.dropLast b'.dropLast := by
    rw [dropLast_eq_take, dropLast_eq_take, ← hb.length_eq]
    exact forall₂_take _ hb
  have hlast : Option.Rel C.node b.getLast? b'.getLast? := rel_getLast? hb
  unfold blockValue
  generalize b.getLast? = last at hlast
  generalize b'.getLast? = last' at hlast
  cases hlast with
  | none => exact .ofPure (.data .nothing)
  | @some n n' hn =>
    refine (follows_block hexec hinit he).bind fun x x' hx => ?_
    obtain ⟨f, e₁⟩ := x
    obtain ⟨f', e₁'⟩ := x'
    obtain ⟨hf, he₁⟩ := hx
    cases hf with
    | returned hv => exact .ofPure hv
    | next =>
      have hresult : Follows C (Val.Alike C) (Eval.blockResult r.exec [n] e₁)
          (Eval.blockResult r'.exec [n'] e₁') := by
        refine (follows_block hexec (.cons hn .nil) he₁).bind fun y y' hy => ?_
        obtain ⟨g, e₂⟩ := y
        obtain ⟨g', e₂'⟩ := y'
        cases hy.flow with
        | next => exact .ofPure (.data .nothing)
        | returned hv => exact .ofPure hv
      dsimp only
      split
      · rename_i x hk
        obtain ⟨x', hk', hx⟩ := (hC.rigid hn (by simp [Node.tag, hk, Kind.tag, rigidTags])).exprStmt hk
        simp only [hk']
        exact heval hx he₁
      · rename_i hk
        refine .ofSuccess fun m y m₁ hgives => ?_
        -- What has been run is a statement, so it stands for no expression either.
        obtain ⟨_, _, hblock, -⟩ := hgives.bind_inv
        rw [block_singleton] at hblock
        have htag := hC.statement hn (honly hblock)
        split
        · rename_i x' hk'
          rw [Node.tag, hk', Kind.tag] at htag
          cases hk'' : n.kind with
          | exprStmt x => exact absurd hk'' (hk x)
          | _ => rw [Node.tag, hk''] at htag; cases htag
        · exact hresult

theorem Rules.Sim.accumulate (hC : C.Lawful) (hr : r.Sim C r') {as' : List Node}
    (has : Forall₂ C.node as as') (he : Env.Alike C e e') :
    Follows C (fun x x' => Env.Alike C x.1 x'.1 ∧ x.2 = x'.2) (accumulate r as e)
      (Eval.accumulate r' as' e') := by
  induction has generalizing e e' with
  | nil => exact .ofPure ⟨he, rfl⟩
  | @cons n n' _ _ hn _ ih =>
    refine .ofSuccess fun m x m₁ hgives => ?_
    -- What has been run is a statement, so it stands for one of the same kind.
    obtain ⟨_, _, hexec, -⟩ := hgives.bind_inv
    have htag := hr.onlyStatements hexec
    refine (hr.exec hn he).bind fun y y' hy => ?_
    refine (ih hy.env).bind fun z z' hz => ?_
    refine .ofPure ⟨hz.1, ?_⟩
    dsimp only
    rw [hz.2]
    congr 1
    split
    · rename_i t v hk
      obtain ⟨v', hk', -⟩ := (hC.rigid hn (by simp [Node.tag, hk, Kind.tag, rigidTags])).assign hk
      rw [hk']
    · rename_i hk
      split
      · rename_i t' v' hk'
        have hassign : n.tag = .assign := by rw [← hC.statement hn htag, Node.tag, hk']; rfl
        cases hk'' : n.kind with
        | assign t v => exact absurd hk'' (hk t v)
        | _ => rw [Node.tag, hk''] at hassign; cases hassign
      · rfl

theorem Rules.Sim.reduction (hC : C.Lawful) (hr : r.Sim C r') {as' : List Node}
    (has : Forall₂ C.node as as') (hrs : Forall₂ C.node rs rs') (hb : C.body b b')
    (he : Env.Alike C e e') :
    Follows C (Val.Alike C) (reduction r as rs b e) (Eval.reduction r' as' rs' b' e') := by
  refine (hr.accumulate hC has he).bind fun x x' hx => ?_
  obtain ⟨scope, carried⟩ := x
  obtain ⟨scope', carried'⟩ := x'
  obtain ⟨hscope, hcarried⟩ := hx
  dsimp only at hcarried hscope
  subst hcarried
  have hstart : Progress.Alike C { outer := scope } { outer := scope' } := ⟨hscope, rfl⟩
  refine (hr.overRanges hC carried hb hrs .nil hstart).bind fun y y' hy => ?_
  obtain ⟨f, p⟩ := y
  obtain ⟨f', p'⟩ := y'
  obtain ⟨hf, hp⟩ := hy
  cases hf with
  | returned hv => exact .ofPure hv
  | next =>
    refine .ofPure (.getD ?_)
    cases carried with
    | nil => exact .none
    | cons name _ => exact hp.outer.get? name

theorem evalNode_call (host : Host) (r : Rules) {f : Node} (h : f.tag ≠ .pattern ∨ as.length ≠ 1)
    (e : Env) : Eval.evalNode host r ⟨i, span, .call f as⟩ e =
      (do r.call (← r.eval f e) (← as.mapM fun a => r.eval a e)) := by
  unfold Eval.evalNode
  dsimp only
  split
  · rename_i hk
    simp [Node.tag, hk, Kind.tag] at h
  · rfl

theorem evalNode_test (host : Host) (r : Rules) {f a : Node} (hf : f.tag = .pattern) (e : Env) :
    Eval.evalNode host r ⟨i, span, .call f [a]⟩ e =
      (do return .bool (← matchesPattern host r f (← r.eval a e) e)) := by
  obtain ⟨j, s, k⟩ := f
  cases k with
  | pattern => rfl
  | _ => cases hf

theorem Rules.Sim.evalCall (hC : C.Lawful) (hr : r.Sim C r') (i : Nat) {f f' : Node}
    (hf : C.node f f') {as' : List Node} (has : Forall₂ C.node as as')
    (hplaced : C.Placed (.call f as) (.call f' as')) (he : Env.Alike C e e') :
    Follows C (Val.Alike C) (evalNode host r ⟨i, span, .call f as⟩ e)
      (evalNode host r' ⟨i, span', .call f' as'⟩ e') := by
  have happly : Follows C (Val.Alike C) (do r.call (← r.eval f e) (← as.mapM fun a => r.eval a e))
      (do r'.call (← r'.eval f' e') (← as'.mapM fun a => r'.eval a e')) := by
    refine (hr.eval hf he).bind fun g g' hg => ?_
    refine (Refines.mapM has fun a a' ha => hr.eval ha he).bind fun vs vs' hvs => ?_
    exact hr.call hg hvs
  by_cases hone : as.length = 1
  · obtain ⟨a, rfl⟩ := length_eq_one_iff.mp hone
    by_cases htag : f.tag = .pattern
    · have hs := hC.rigid hf (htag ▸ of_decide_eq_true rfl)
      cases has with
      | cons ha hnil =>
        cases hnil
        rw [evalNode_test host r htag, evalNode_test host r' (hs.tag_eq.trans htag)]
        refine (hr.eval ha he).bind fun v v' hv => ?_
        refine (hr.matchesPattern (hs.tests htag) hv he).bindEq fun b => ?_
        exact .ofPure (.data _)
    · rw [evalNode_call host r (.inl htag), evalNode_call host r' (.inl fun h => htag (hplaced h))]
      exact happly
  · rw [evalNode_call host r (.inr hone), evalNode_call host r' (.inr (has.length_eq ▸ hone))]
    exact happly

theorem Rules.Sim.evalNode (hC : C.Lawful) (hr : r.Sim C r') (hn : C.Same n n')
    (hpattern : n.tag = .pattern → C.node n n') (he : Env.Alike C e e') :
    Follows C (Val.Alike C) (evalNode host r n e) (Eval.evalNode host r' n' e') := by
  obtain ⟨i, span, k⟩ := n
  obtain ⟨i', span', k'⟩ := n'
  obtain ⟨hid, hk, hplaced⟩ := hn
  dsimp only at hid hk hplaced
  subst hid
  cases hk with
  | literal => exact .ofPure (.data _)
  | ident => exact follows_lookup _ he
  | context =>
    unfold Eval.evalNode
    dsimp only
    split
    · exact follows_getLocal _
    · exact .ofFail
  | unary hx => exact (hr.eval hx he).bind fun v v' hv => follows_unary _ hv
  | binary hx hy =>
    refine (hr.eval hx he).bind fun v v' hv => (hr.eval hy he).bind fun w w' hw => ?_
    exact hr.binary _ hv hw
  | conj hx hy =>
    refine (hr.eval hx he).bind fun v v' hv => ?_
    rw [hv.isTruthy_eq]
    split
    · exact hr.eval hy he
    · exact .ofPure hv
  | disj hx hy =>
    refine (hr.eval hx he).bind fun v v' hv => ?_
    rw [hv.isTruthy_eq]
    split
    · exact .ofPure hv
    · exact hr.eval hy he
  | cond hc hx hy =>
    refine (hr.eval hc he).bind fun v v' hv => ?_
    rw [hv.isTruthy_eq]
    split
    · exact hr.eval hx he
    · exact hr.eval hy he
  | array hes =>
    refine (Refines.mapM hes fun x x' hx =>
      (hr.eval hx he).bind fun v v' hv => follows_asData hv).bind fun ds ds' hds => ?_
    rw [forall₂_eq_eq_eq] at hds
    subst hds
    exact .ofPure (.data _)
  | object hes =>
    refine (Refines.mapM hes fun x x' hx => hr.objectEntry hC he hx).bind fun ds ds' hds => ?_
    rw [forall₂_eq_eq_eq] at hds
    subst hds
    exact .ofPure (.data _)
  | member ho hp =>
    refine (hr.eval ho he).bind fun v v' hv => (follows_asData hv).bindEq fun d => ?_
    have hkey := hr.key hp he Value.string id
    simp only [id, bind_pure] at hkey
    refine hkey.bindEq fun key => ?_
    exact .ofPure (.data _)
  | call hf has => exact hr.evalCall hC _ hf has hplaced he
  | lambda hps hb =>
    refine follows_freshStamp.bindEq fun s => ?_
    exact .ofPure (.function ⟨rfl, hps, .none, .expr hb⟩ he .none)
  | pattern hx =>
    refine follows_freshStamp.bindEq fun s => ?_
    exact .ofPure (.pattern (hpattern rfl) ⟨rfl, hplaced⟩ he)
  | regex =>
    unfold Eval.evalNode
    dsimp only
    split
    · exact .ofPure (.regex _ _ _)
    · exact .ofFail
  | choose hv hcs ho =>
    refine (hr.eval hv he).bind fun v v' hv => ?_
    exact (hr.chooseBody hC hv he ho hplaced hcs).bind fun b b' hb => hr.value hb.2 he
  | reduce has hrs hb => exact hr.reduction hC has hrs hb he
  | _ => exact .ofFail

theorem evalNode_element (h : n.tag = .element) : Eval.evalNode host r n e = fail (.unsupported .element) := by
  obtain ⟨i, span, k⟩ := n
  cases k with
  | element => rfl
  | _ => cases h

/-! ## Statements -/

theorem follows_exportAll (he : Env.Alike C e e') (items : List (String × String)) :
    Follows C (fun _ _ => True) (exportAll host e items) (exportAll host e' items) := by
  induction items with
  | nil => exact .ofPure trivial
  | cons item items ih =>
    obtain ⟨name, visible⟩ := item
    refine (follows_lookup name he).bind fun v v' hv => ?_
    exact (follows_addExport visible hv).bind fun _ _ _ => ih

theorem Rules.Sim.exportedDecl (hr : r.Sim C r') {d d' : Option Node} (hd : Option.Rel C.Named d d')
    {items items' : List ModuleItem} (hplaced : C.Placed (.exported d items) (.exported d' items'))
    (he : Env.Alike C e e') : Follows C (fun x x' => Env.Alike C x.1 x'.1 ∧ x.2 = x'.2) (exportedDecl r d e)
      (Eval.exportedDecl r' d' e') := by
  cases hd with
  | none => exact .ofPure ⟨he, rfl⟩
  | some hn => exact (hr.exec hn.1 he).bind fun x x' hx => .ofPure ⟨hx.env, Eq.symm hplaced⟩

theorem execNode_exprStmt (host : Host) (r : Rules) (hx : x.tag ≠ .choose) (e : Env) :
    Eval.execNode host r ⟨i, span, .exprStmt x⟩ e = (do let _ ← r.eval x e; return (.next, e)) := by
  unfold Eval.execNode
  dsimp only
  split
  · rename_i hk
    simp [Node.tag, hk, Kind.tag] at hx
  · rfl

theorem Rules.Sim.execExpr (hC : C.Lawful) (hr : r.Sim C r') (i : Nat) {x' : Node}
    (hx : C.node x x') (hplaced : C.Placed (.exprStmt x) (.exprStmt x')) (he : Env.Alike C e e') :
    Follows C (Outcome C) (execNode host r ⟨i, span, .exprStmt x⟩ e)
      (execNode host r' ⟨i, span', .exprStmt x'⟩ e') := by
  by_cases htag : x.tag = .choose
  · cases hk : x.kind with
    | choose v cs o =>
      obtain ⟨v', cs', o', hk', hv, hcs, ho, hvalued⟩ :=
        (hC.rigid hx (htag ▸ of_decide_eq_true rfl)).choose hk
      unfold execNode
      simp only [hk, hk']
      refine (hr.eval hv he).bind fun w w' hw => ?_
      exact (hr.chooseBody hC hw he ho hvalued hcs).bind fun b b' hb => hr.block hb.1 he
    | _ => rw [Node.tag, hk] at htag; cases htag
  · rw [execNode_exprStmt host r htag, execNode_exprStmt host r' fun h => htag (hplaced h)]
    exact (hr.eval hx he).bind fun v v' hv => .ofPure ⟨.next, he⟩

theorem Rules.Sim.execNode (hC : C.Lawful) (hr : r.Sim C r') (hn : C.Same n n') (he : Env.Alike C e e') :
    Follows C (Outcome C) (execNode host r n e) (Eval.execNode host r' n' e') := by
  obtain ⟨i, span, k⟩ := n
  obtain ⟨i', span', k'⟩ := n'
  obtain ⟨hid, hk, hplaced⟩ := hn
  dsimp only at hid hk hplaced
  subst hid
  cases hk with
  | declare has => exact follows_block hr.exec has he
  | assign hv => exact (hr.eval hv he).bind fun v v' hv => .ofPure ⟨.next, he.bind _ hv⟩
  | branch hc ht hf =>
    refine (hr.eval hc he).bind fun v v' hv => ?_
    rw [hv.isTruthy_eq]
    split
    · exact hr.block ht he
    · exact hr.block hf he
  | loop hrs hb helse =>
    have hstart : Progress.Alike C { outer := e } { outer := e' } := ⟨he, rfl⟩
    refine (hr.overRanges hC [] hb hrs .nil hstart).bind fun x x' hx => ?_
    obtain ⟨f, p⟩ := x
    obtain ⟨f', p'⟩ := x'
    obtain ⟨hf, hp⟩ := hx
    cases hf with
    | returned hv => exact .ofPure ⟨.returned hv, he⟩
    | next =>
      have hran : p'.ran = p.ran := hp.ran
      simp only [hran]
      split
      · exact .ofPure ⟨.next, he⟩
      · exact hr.block helse he
  | ret hv => exact (hr.eval hv he).bind fun v v' hv => .ofPure ⟨.returned hv, he⟩
  | exprStmt hx => exact hr.execExpr hC _ hx hplaced he
  | @function name ps ps' g g' b b' hps hg hb =>
    have hsome : g'.isSome = g.isSome := by cases hg <;> rfl
    refine follows_freshStamp.bindEq fun s => ?_
    refine .ofPure ⟨.next, he.set name (.function ⟨rfl, hps, hg, .block hb⟩ he ?_)⟩
    rw [hsome]
    split
    · exact he.get? name
    · exact .none
  | exported hd =>
    refine (hr.exportedDecl hd hplaced he).bind fun x x' hx => ?_
    obtain ⟨e₁, names⟩ := x
    obtain ⟨e₁', names'⟩ := x'
    obtain ⟨he₁, rfl⟩ := hx
    exact (follows_exportAll he₁ _).bind fun _ _ _ => .ofPure ⟨.next, he₁⟩
  | _ => exact .ofFail

theorem execNode_statement {x : Flow × Env} (h : Gives (execNode host r n e) m x m₁) :
    n.tag ∈ statementTags := by
  obtain ⟨i, span, k⟩ := n
  cases k with
  | declare | assign | branch | loop | ret | exprStmt | function | exported =>
    simp [Kind.tag, statementTags]
  | _ => exact absurd h not_gives_fail

/-! ## Layers -/

theorem not_gives_blockValue_zero (hb : b ≠ []) : ¬ Gives (blockValue (Rules.upTo host 0) b e) m v m₁ := by
  unfold blockValue
  rw [getLast?_eq_some_getLast hb]
  intro h
  obtain ⟨⟨f, e₁⟩, m₂, hinit, hlast⟩ := h.bind_inv
  cases hd : b.dropLast with
  | cons n ns =>
    rw [hd] at hinit
    obtain ⟨_, _, hexec, -⟩ := hinit.bind_inv
    exact not_gives_throw hexec
  | nil =>
    rw [hd] at hinit
    cases hinit
    dsimp only at hlast
    split at hlast
    · exact not_gives_throw hlast
    · obtain ⟨_, _, hblock, -⟩ := hlast.bind_inv
      obtain ⟨_, _, hexec, -⟩ := hblock.bind_inv
      exact not_gives_throw hexec

theorem Rules.Sim.zero (hbody : ∀ {b}, C.body [] b → b = []) (hvalued : ∀ {b}, C.valued [] b → b = []) :
    (Rules.upTo host 0).Sim C r' where
  onlyStatements h := absurd h not_gives_throw
  eval _ _ := .ofThrow
  exec _ _ := .ofThrow
  block {b b' e e'} hb he := by
    cases b with
    | nil =>
      obtain rfl := hbody hb
      exact .ofPure ⟨.next, he⟩
    | cons n b =>
      intro m m' _ x m₁ h
      obtain ⟨_, _, hexec, -⟩ := h.bind_inv
      exact absurd hexec not_gives_throw
  value {b b' e e'} hb he := by
    cases b with
    | nil =>
      obtain rfl := hvalued hb
      exact .ofPure (.data .nothing)
    | cons n b => exact fun _ _ _ _ _ h => absurd h (not_gives_blockValue_zero (cons_ne_nil n b))
  call _ _ := .ofThrow
  fits _ _ _ _ := .ofThrow

/-- Rules that follow others still do with one more layer on both, if what a node stands for does
    at least as well as a node of the same shape, and likewise for bodies and templates. The elements
    of patterns are not run on their own. -/
theorem Rules.Sim.step (hC : C.Lawful) (hh : host.Respects (Val.Alike C)) (hr : r.Sim C r')
    (hnode : ∀ {n n'}, C.node n n' → n.tag ≠ .element → ∃ k, C.Same n k ∧ (n.tag = .pattern → C.node n k) ∧
      (∀ e, Improves (Eval.evalNode host r' k e) (Eval.evalNode host r' n' e)) ∧
      ∀ e, Improves (Eval.execNode host r' k e) (Eval.execNode host r' n' e))
    (hbody : ∀ {b b'}, C.body b b' → ∃ mid, Forall₂ C.node b mid ∧
      ∀ e, Improves (Eval.block (Eval.execNode host r') mid e) (Eval.block (Eval.execNode host r') b' e))
    (hvalued : ∀ {b b'}, C.valued b b' → ∃ mid, Forall₂ C.node b mid ∧
      ∀ e, Improves (blockValue (Rules.step host r') mid e) (blockValue (Rules.step host r') b' e))
    (htemplate : ∀ {n n'}, C.template n n' → C.Tested host r' n n') :
    (Rules.step host r).Sim C (Rules.step host r') := by
  have heval {n n' : Node} {e e' : Env} (hn : C.node n n') (he : Env.Alike C e e') :
      Follows C (Val.Alike C) (Eval.evalNode host r n e) (Eval.evalNode host r' n' e') := by
    by_cases htag : n.tag = .element
    · rw [evalNode_element htag]
      exact .ofFail
    · obtain ⟨k, hk, hpattern, himp, -⟩ := hnode hn htag
      exact (hr.evalNode hC hk hpattern he).improve (himp e')
  have hexec {n n' : Node} {e e' : Env} (hn : C.node n n') (he : Env.Alike C e e') :
      Follows C (Outcome C) (Eval.execNode host r n e) (Eval.execNode host r' n' e') := by
    refine .ofSuccess fun m x m₁ h => ?_
    have htag : n.tag ≠ .element := fun htag => by
      have hstatement := execNode_statement h
      rw [htag] at hstatement
      exact absurd hstatement (by decide)
    obtain ⟨k, hk, -, -, himp⟩ := hnode hn htag
    exact (hr.execNode hC hk he).improve (himp e')
  exact
    { onlyStatements := execNode_statement
      eval := heval
      exec := hexec
      block := fun hb he => by
        obtain ⟨mid, hmid, himp⟩ := hbody hb
        exact (follows_block hexec hmid he).improve (himp _)
      value := fun hb he => by
        obtain ⟨mid, hmid, himp⟩ := hvalued hb
        exact (follows_blockValue hC execNode_statement heval hexec hmid he).improve (himp _)
      call := fun hf has => hr.callVal hC hh hf has
      fits := fun l ht hv he => hr.fitsNode (htemplate ht) l hv he }

end Motif.Eval
