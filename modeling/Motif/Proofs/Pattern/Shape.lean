import Motif.Proofs.Tree.Identity

/-!
# Bringing patterns into shape

Equations for the first half of pattern elaboration, and its account of ids: a tree in shape uses
every id of the tree at most once, and the new nodes have ids that were drawn for them.
-/

namespace Motif.Desugar

open List
open Node (idsOf ids_mk)

variable {ps : List Node}

/-! ## Equations -/

theorem shapeList_eq (ns : List Node) : shapeList ns = Kind.traverseList shape ns := by
  induction ns with
  | nil => rfl
  | cons n ns ih =>
    rw [Kind.traverseList, ← ih]
    rfl

theorem shapeOption_eq (n : Option Node) : shapeOption n = Kind.traverseOption shape n := by
  cases n <;> rfl

theorem shapeAlternatives_cons (wrap : Option Nat) (wraps : List (Option Nat)) (p : Node)
    (ps : List Node) : shapeAlternatives (wrap :: wraps) (p :: ps) = (do
      let template ← shape p
      let rest ← shapeAlternatives wraps ps
      return wrapWith wrap p.span template :: rest) := rfl

theorem shapeAlternatives_nil (wraps : List (Option Nat)) : shapeAlternatives wraps [] = pure [] := by
  cases wraps <;> rfl

theorem shapeParams_cons (p : Node) (ps : List Node) : shapeParams (p :: ps) = (do
    let param ← match plainParam p with
      | some param => pure param
      | none => shape p
    let rest ← shapeParams ps
    return param :: rest) := rfl

theorem shapeTerms_nil (plan : List (Option TermIds)) : shapeTerms plan [] = pure [] := by
  rcases plan with _ | ⟨_ | ids, plan⟩ <;> rfl

theorem shapeTerms_cons (ids : TermIds) (plan : List (Option TermIds)) (i : Nat) (span : Span)
    (name : String) (template : Node) (variadic : Bool) (ps : List Node) :
    shapeTerms (some ids :: plan) (⟨i, span, .param name (some template) variadic⟩ :: ps) = (do
      let pattern ← shape template
      let rest ← shapeTerms plan ps
      return (span, termFor ids span name (wrapWith ids.wrap template.span pattern)) :: rest) := rfl

theorem shapeTerms_cases (plan : List (Option TermIds)) (p : Node) (ps : List Node) :
    (∃ ids plan' i span name template variadic, plan = some ids :: plan' ∧
      p = ⟨i, span, .param name (some template) variadic⟩) ∨
    (∃ entry plan', plan = entry :: plan' ∧ shapeTerms plan (p :: ps) = shapeTerms plan' ps) ∨
    shapeTerms plan (p :: ps) = pure [] := by
  obtain ⟨i, span, k⟩ := p
  rcases plan with _ | ⟨_ | ids, plan⟩
  · exact .inr (.inr rfl)
  · exact .inr (.inl ⟨_, _, rfl, rfl⟩)
  · cases k with
    | param name template variadic =>
      cases template with
      | none => exact .inr (.inl ⟨_, _, rfl, rfl⟩)
      | some template => exact .inl ⟨ids, plan, i, span, name, template, variadic, rfl, rfl⟩
    | _ => exact .inr (.inl ⟨_, _, rfl, rfl⟩)

theorem shape_eq (n : Node) (h : n.tag ∉ [Tag.function, .clause, .pattern, .element]) :
    shape n = (do return ⟨n.id, n.span, ← n.kind.traverse shape pure⟩) := by
  obtain ⟨i, span, k⟩ := n
  cases k with
  | function | clause | pattern | element => exact absurd h (by simp [Kind.tag])
  | _ => simp only [Kind.traverse, ← shapeList_eq, ← shapeOption_eq]; rfl

theorem shape_function (i : Nat) (span : Span) (name : String) (params : List Node)
    (guard : Option Node) (body : List Node) :
    shape ⟨i, span, .function name params guard body⟩ = (do
      let plan ← Kind.traverseList drawTerm params
      let terms := (plan.filter Option.isSome).length
      if terms = 0 then
        return ⟨i, span,
          .function name (← shapeList params) (← shapeOption guard) (← shapeList body)⟩
      else
        let joins ← drawMany (terms + guard.toList.length - 1)
        let params' ← shapeParams params
        let terms ← shapeTerms plan params
        let guard' ← shapeGuard guard
        let body' ← shapeList body
        return ⟨i, span, .function name params' (guardOf joins (terms ++ guard')) body'⟩) := rfl

theorem shape_clause (i : Nat) (span : Span) (patterns body : List Node) :
    shape ⟨i, span, .clause patterns body⟩ = (do
      let wraps ← Kind.traverseList drawWrap patterns
      return ⟨i, span, .clause (← shapeAlternatives wraps patterns) (← shapeList body)⟩) := rfl

theorem shape_pattern (i : Nat) (span : Span) (expr : Node) :
    shape ⟨i, span, .pattern expr⟩ =
      if isPattern expr then shape expr else do return ⟨i, span, .pattern (← shape expr)⟩ := rfl

theorem shape_element (i : Nat) (span : Span) (key : Option Node) (value : Node) :
    shape ⟨i, span, .element key value⟩ = (do
      return ⟨i, span, .element (← shapeOption key) (← shapeTemplate value)⟩) := rfl

/-- The template of an element is what is left when patterns are taken off. -/
theorem shapeTemplate_cases (n : Node) :
    (∃ i span expr, n = ⟨i, span, .pattern expr⟩ ∧ shapeTemplate n = shapeTemplate expr) ∨
      shapeTemplate n = shape n := by
  obtain ⟨i, span, k⟩ := n
  cases k with
  | pattern expr => exact .inl ⟨i, span, expr, rfl, rfl⟩
  | _ => exact .inr rfl

theorem plainParam_eq_some {p q : Node} (h : plainParam p = some q) :
    ∃ i span name template variadic, p = ⟨i, span, .param name (some template) variadic⟩ ∧
      q = ⟨i, span, .param name none variadic⟩ := by
  obtain ⟨i, span, k⟩ := p
  unfold plainParam at h
  split at h
  · rename_i name template variadic hk
    cases h
    dsimp only at hk
    subst hk
    exact ⟨i, span, name, template, variadic, rfl, rfl⟩
  · cases h

/-! ## New nodes -/

def TermIds.ids (t : TermIds) : List Nat := t.wrap.toList ++ [t.argument, t.call]

def planIds (plan : List (Option TermIds)) : List Nat :=
  plan.flatMap fun ids => ids.toList.flatMap TermIds.ids

theorem draws_drawWrap (template : Node) : Draws [] (drawWrap template) Option.toList := by
  unfold drawWrap
  split
  · exact .pure (by grind)
  · exact Draws.freshId.map (by grind)

theorem draws_drawTerm (param : Node) :
    Draws [] (drawTerm param) fun ids => ids.toList.flatMap TermIds.ids := by
  unfold drawTerm
  split
  · rename_i template _ _
    refine (draws_drawWrap template).bind [] (by grind) fun wrap => ?_
    refine Draws.freshId.bind wrap.toList (by grind) fun argument => ?_
    refine Draws.freshId.bind (argument :: wrap.toList) (by grind) fun call => .pure ?_
    grind [TermIds.ids]
  · exact .pure (by grind)

theorem draws_plan (params : List Node) : Draws [] (Kind.traverseList drawTerm params) planIds := by
  have hall := Draws.traverseList fun p (_ : p ∈ params) => draws_drawTerm p
  rwa [flatMap_eq_nil_iff.mpr fun _ _ => rfl] at hall

theorem draws_drawMany (n : Nat) : Draws [] (drawMany n) fun ids => ids := by
  induction n with
  | zero => exact .pure (by grind)
  | succ n ih =>
    refine Draws.freshId.bind [] (by grind) fun id => ?_
    exact ih.bind [id] (by grind) fun ids => .pure (by grind)

@[grind =]
theorem ids_wrapWith (id : Option Nat) (span : Span) (template : Node) :
    (wrapWith id span template).ids = id.toList ++ template.ids := by
  cases id with
  | none => rfl
  | some id => simp [wrapWith, ids_mk]

@[grind =]
theorem ids_termFor (ids : TermIds) (span : Span) (name : String) (pattern : Node) :
    (termFor ids span name pattern).ids = ids.call :: (pattern.ids ++ [ids.argument]) := by
  simp [termFor, ids_mk]

theorem count_ids_conjoin (left : Node) (span : Span) (ids : List Nat) (terms : List (Span × Node))
    (id : Nat) : (conjoin left span ids terms).ids.count id ≤
      left.ids.count id + ids.count id + (idsOf (terms.map Prod.snd)).count id := by
  induction terms generalizing left span ids with
  | nil =>
    have hleft : conjoin left span ids [] = left := by cases ids <;> rfl
    rw [hleft]
    omega
  | cons term terms ih =>
    obtain ⟨other, right⟩ := term
    cases ids with
    | nil =>
      rw [conjoin]
      · omega
      · simp
    | cons join ids =>
      have hnode := ih ⟨join, span.merge other, .conj left right⟩ (span.merge other) ids
      rw [conjoin]
      grind [Kind.children]

theorem count_ids_guardOf (ids : List Nat) (terms : List (Span × Node)) (id : Nat) :
    (idsOf (guardOf ids terms).toList).count id ≤ ids.count id + (idsOf (terms.map Prod.snd)).count id := by
  cases terms with
  | nil => exact Nat.zero_le _
  | cons term terms =>
    have hconjoin := count_ids_conjoin term.2 term.1 ids terms id
    rw [guardOf]
    grind

/-! ## Parts of functions and clauses -/

def template? (param : Node) : Option Node :=
  match param.kind with
  | .param _ template _ => template
  | _ => none

theorem mem_children_of_template? {p t : Node} (h : t ∈ template? p) : t ∈ p.children := by
  unfold template? at h
  split at h
  · rename_i hk
    simpa [Node.children, hk] using h
  · cases h

def plainIds (param : Node) : List Nat :=
  match template? param with
  | some _ => [param.id]
  | none => param.ids

def templateIds (params : List Node) : List Nat := params.flatMap fun p => idsOf (template? p).toList

theorem count_plainIds (params : List Node) (id : Nat) :
    (params.flatMap plainIds).count id + (templateIds params).count id = (idsOf params).count id := by
  have hparam (p : Node) : plainIds p ++ idsOf (template? p).toList = p.ids := by
    obtain ⟨i, span, k⟩ := p
    unfold plainIds
    cases k with
    | param name template variadic => cases template <;> simp [template?, ids_mk]
    | _ => simp [template?]
  induction params with
  | nil => rfl
  | cons p params ih =>
    have hp := hparam p
    unfold templateIds at ih ⊢
    grind

def Kept (n : Node) : Prop := Draws n.ids (shape n) Node.ids

theorem draws_shapeAlternatives {wraps : List (Option Nat)} (h : ∀ p ∈ ps, Kept p) :
    Draws (wraps.flatMap Option.toList ++ idsOf ps) (shapeAlternatives wraps ps) idsOf := by
  induction ps generalizing wraps with
  | nil =>
    rw [shapeAlternatives_nil]
    exact .pure (by grind)
  | cons p ps ih =>
    obtain ⟨hp, hps⟩ := forall_mem_cons.mp h
    cases wraps with
    | nil => exact .pure (by grind)
    | cons wrap wraps =>
      rw [shapeAlternatives_cons]
      refine hp.bind (wrap.toList ++ (wraps.flatMap Option.toList ++ idsOf ps)) (by grind)
        fun p' => ?_
      exact (ih hps).bind (wrap.toList ++ p'.ids) (by grind) fun ps' => .pure (by grind)

theorem draws_shapeParams (h : ∀ p ∈ ps, Kept p) : Draws (ps.flatMap plainIds) (shapeParams ps) idsOf := by
  induction ps with
  | nil => exact .pure (by grind)
  | cons p ps ih =>
    obtain ⟨hp, hps⟩ := forall_mem_cons.mp h
    have htail (p' : Node) : Draws (p'.ids ++ ps.flatMap plainIds)
        (do let ps' ← shapeParams ps; pure (p' :: ps')) idsOf :=
      (ih hps).bind p'.ids (by grind) fun _ => .pure (by grind)
    rw [shapeParams_cons]
    split
    · rename_i p' hplain
      obtain ⟨i, span, name, template, variadic, rfl, rfl⟩ := plainParam_eq_some hplain
      refine (htail _).mono ?_
      simp [plainIds, template?, ids_mk]
    · rename_i hplain
      have hids : plainIds p = p.ids := by
        obtain ⟨i, span, k⟩ := p
        cases k with
        | param name template variadic =>
          cases template with
          | none => rfl
          | some template => cases hplain
        | _ => rfl
      rw [flatMap_cons, hids]
      exact hp.bind (ps.flatMap plainIds) (by grind) htail

theorem draws_shapeTerms {plan : List (Option TermIds)} (h : ∀ p ∈ ps, ∀ t ∈ template? p, Kept t) :
    Draws (planIds plan ++ templateIds ps) (shapeTerms plan ps) fun terms => idsOf (terms.map Prod.snd) := by
  induction ps generalizing plan with
  | nil =>
    rw [shapeTerms_nil]
    exact .pure (by grind)
  | cons p ps ih =>
    obtain ⟨hp, hps⟩ := forall_mem_cons.mp h
    obtain ⟨ids, plan, i, span, name, template, variadic, rfl, rfl⟩ | ⟨entry, plan, rfl, hpass⟩ |
      hnil := shapeTerms_cases plan p ps
    · have hgiven : planIds (some ids :: plan) ++
          templateIds (⟨i, span, .param name (some template) variadic⟩ :: ps) =
          ids.ids ++ planIds plan ++ (template.ids ++ templateIds ps) := by
        simp [planIds, templateIds, template?]
      rw [hgiven, shapeTerms_cons]
      refine (hp template rfl).bind (ids.ids ++ (planIds plan ++ templateIds ps)) (by grind)
        fun pattern => ?_
      refine (ih hps).bind (ids.ids ++ pattern.ids) (by grind) fun terms => .pure ?_
      grind [TermIds.ids]
    · rw [hpass]
      refine (ih hps).mono ?_
      grind [planIds, templateIds]
    · rw [hnil]
      exact .pure (by grind)

theorem draws_shapeList {ns : List Node} (h : ∀ n ∈ ns, Kept n) : Draws (idsOf ns) (shapeList ns) idsOf := by
  rw [shapeList_eq]
  exact Draws.traverseList h

theorem draws_shapeOption {n : Option Node} (h : ∀ m ∈ n, Kept m) :
    Draws (idsOf n.toList) (shapeOption n) fun n' => idsOf n'.toList := by
  have hlist : Draws (idsOf n.toList) (shapeList n.toList) idsOf :=
    draws_shapeList fun m hm => h m (by simpa using hm)
  rw [shapeList_eq, Kind.traverseList_toList, ← shapeOption_eq] at hlist
  exact hlist.of_map

theorem draws_shapeGuard {guard : Option Node} (h : ∀ g ∈ guard, Kept g) :
    Draws (idsOf guard.toList) (shapeGuard guard) fun terms => idsOf (terms.map Prod.snd) := by
  cases guard with
  | none => exact .pure (by grind)
  | some g => exact ((h g rfl).mono (by grind)).map (by grind)

/-! ## Whole trees -/

theorem kept_function {i : Nat} {span : Span} {name : String} {params body : List Node}
    {guard : Option Node} (hparams : ∀ p ∈ params, Kept p)
    (htemplates : ∀ p ∈ params, ∀ t ∈ template? p, Kept t) (hguard : ∀ g ∈ guard, Kept g)
    (hbody : ∀ b ∈ body, Kept b) : Kept ⟨i, span, .function name params guard body⟩ := by
  unfold Kept
  have hids : Node.ids ⟨i, span, .function name params guard body⟩ =
      i :: (idsOf params ++ (idsOf guard.toList ++ idsOf body)) := by
    simp [ids_mk]
  have hids' (params' : List Node) (guard' : Option Node) (body' : List Node) :
      Node.ids ⟨i, span, .function name params' guard' body'⟩ =
        i :: (idsOf params' ++ (idsOf guard'.toList ++ idsOf body')) := by
    simp [ids_mk]
  rw [shape_function, hids]
  refine (draws_plan params).bind (i :: (idsOf params ++ (idsOf guard.toList ++ idsOf body)))
    (by grind) fun plan => ?_
  dsimp only
  split
  · refine (draws_shapeList hparams).bind (i :: (idsOf guard.toList ++ idsOf body)) (by grind)
      fun params' => ?_
    refine (draws_shapeOption hguard).bind (i :: (idsOf params' ++ idsOf body)) (by grind)
      fun guard' => ?_
    refine (draws_shapeList hbody).bind (i :: (idsOf params' ++ idsOf guard'.toList)) (by grind)
      fun body' => .pure ?_
    rw [hids']
    grind
  · refine (draws_drawMany _).bind
      (planIds plan ++ i :: (idsOf params ++ (idsOf guard.toList ++ idsOf body))) (by grind)
      fun joins => ?_
    -- The ids of a parameter go two ways: those of its template to its term, the others stay.
    refine (draws_shapeParams hparams).bind
      (joins ++ planIds plan ++ templateIds params ++ i :: (idsOf guard.toList ++ idsOf body))
      (fun id => ?_) fun params' => ?_
    · have hplain := count_plainIds params id
      grind
    · refine (draws_shapeTerms htemplates).bind
        (joins ++ idsOf params' ++ i :: (idsOf guard.toList ++ idsOf body)) (by grind)
        fun terms => ?_
      refine (draws_shapeGuard hguard).bind
        (joins ++ idsOf params' ++ idsOf (terms.map Prod.snd) ++ i :: idsOf body) (by grind)
        fun guard' => ?_
      refine (draws_shapeList hbody).bind
        (joins ++ idsOf params' ++ idsOf (terms.map Prod.snd) ++ idsOf (guard'.map Prod.snd) ++ [i])
        (by grind) fun body' => .pure fun id => ?_
      rw [hids']
      have hguard := count_ids_guardOf joins (terms ++ guard') id
      grind

theorem kept_layer {n : Node} (h : n.tag ∉ [Tag.function, .clause, .pattern, .element])
    (ih : ∀ c ∈ n.children, Kept c) : Kept n := by
  unfold Kept
  rw [shape_eq n h, Node.ids_eq, Node.children]
  exact (draws_traverse ih).bind [n.id] (by grind) fun k => .pure (by grind)

/-- A tree in shape uses the ids of the tree. In the place of the template of an element, patterns are
    taken off first. -/
theorem kept_shape (n : Node) : n.Everywhere fun m => Kept m ∧ Draws m.ids (shapeTemplate m) Node.ids := by
  induction n using Node.ind with
  | step n ih =>
    have hchild (c : Node) (hc : c ∈ n.children) : Kept c := (ih c hc).here.1
    have hkept : Kept n := by
      by_cases htag : n.tag ∈ [Tag.function, .clause, .pattern, .element]
      · obtain ⟨i, span, k⟩ := n
        cases k with
        | function name params guard body =>
          refine kept_function ?_ ?_ ?_ ?_
          · exact fun p hp => hchild p (by simp [hp])
          · intro p hp t ht
            have hp' := ih p (by simp [hp])
            exact (hp'.child (mem_children_of_template? ht)).here.1
          · exact fun g hg => hchild g (by simp_all)
          · exact fun b hb => hchild b (by simp [hb])
        | clause patterns body =>
          unfold Kept
          have hwraps := Draws.traverseList fun p (_ : p ∈ patterns) => draws_drawWrap p
          rw [flatMap_eq_nil_iff.mpr fun _ _ => rfl] at hwraps
          rw [shape_clause, ids_mk, Kind.children, Node.idsOf_append]
          -- The ids of the wraps are drawn before anything of the clause is shaped.
          refine hwraps.bind (i :: (idsOf patterns ++ idsOf body)) (by grind) fun wraps => ?_
          refine (draws_shapeAlternatives fun p hp =>
            hchild p (mem_append_left _ hp)).bind (i :: idsOf body) (by grind)
            fun patterns' => ?_
          refine (draws_shapeList fun b hb => hchild b (mem_append_right _ hb)).bind
            (i :: idsOf patterns') (by grind) fun body' => .pure ?_
          grind [Kind.children]
        | pattern expr =>
          unfold Kept
          have hexpr := hchild expr (mem_singleton.mpr rfl)
          rw [shape_pattern, ids_mk, Kind.children]
          split
          · exact hexpr.mono (by grind)
          · refine hexpr.bind [i] (by grind) fun expr' => .pure ?_
            grind [Kind.children]
        | element key value =>
          unfold Kept
          have hvalue := (ih value (mem_append_right _ mem_cons_self)).here.2
          rw [shape_element, ids_mk, Kind.children, Node.idsOf_append]
          refine (draws_shapeOption fun k hk => hchild k ?_).bind (i :: value.ids) (by grind)
            fun key' => ?_
          · exact mem_append_left _ (by simpa using hk)
          refine hvalue.bind (i :: idsOf key'.toList) (by grind) fun value' => .pure ?_
          grind [Kind.children]
        | _ => exact absurd htag (by simp [Kind.tag])
      · exact kept_layer htag hchild
    refine .mk ⟨hkept, ?_⟩ ih
    obtain ⟨i, span, expr, rfl, hpeel⟩ | hstay := shapeTemplate_cases n
    · rw [hpeel]
      refine (ih expr (mem_singleton.mpr rfl)).here.2.mono ?_
      grind [Kind.children]
    · rw [hstay]
      exact hkept

end Motif.Desugar
