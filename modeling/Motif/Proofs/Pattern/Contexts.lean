import Motif.Proofs.Pattern.Walk

/-!
# Context references

After pattern elaboration a context reference has the local of its owner, and a reference without an owner is
told of. The nodes between a reference and its owner are marked, and no others.
-/

namespace Motif.Pattern

open List

theorem filter_located {root : Node} (hids : root.ids.Nodup) {x : Path × Node}
    (hx : x ∈ root.located []) : (root.located []).filter (fun y => y.2.id == x.2.id) = [x] := by
  rw [← Node.map_located root []] at hids
  generalize root.located [] = xs at *
  induction xs with
  | nil => cases hx
  | cons y xs ih =>
    rw [map_cons, nodup_cons] at hids
    have hother {z w : Path × Node} (hz : z ∈ xs) (hw : w.2.id = z.2.id) :
        w.2.id ∈ xs.map fun x => x.2.id := hw ▸ mem_map_of_mem hz
    rcases mem_cons.mp hx with rfl | hx
    · rw [filter_cons_of_pos (by simp)]
      refine congrArg (x :: ·) (filter_eq_nil_iff.mpr fun z hz heq => hids.1 ?_)
      exact hother hz (beq_iff_eq.mp heq).symm
    · have hne : y.2.id ≠ x.2.id := fun heq => hids.1 (hother hx heq)
      rw [filter_cons_of_neg (by simpa using hne)]
      exact ih hids.2 hx

/-- In a tree that the pass has gone over, a context reference whose owner is a pattern or an element
    has the owner's local and is not told of, and any other has none and is told of once. Any other
    node is marked with a local just if a context reference that it sees is its owner's as well. -/
theorem run_resolves_contexts (root : Node) : ∃ root' session,
      run (Tree.ofRoot root).root (.startingAt (Tree.ofRoot root).nextId) = (.ok root', session) ∧
      ∀ path n, (path, n) ∈ root'.located [] → (n.tag = .context → ∀ f, owner? path = some f →
          ∃ l, session.annotations.local? f.id = some l ∧ session.annotations.context? n.id = some l ∧
            session.diagnostics.filter (·.node == n.id) = []) ∧ (n.tag = .context → owner? path = none →
          session.annotations.context? n.id = none ∧
            session.diagnostics.filter (·.node == n.id) = [remark n]) ∧
        (n.tag ≠ .context → ∀ l, session.annotations.context? n.id = some l ↔ n.tag ∉ ends ∧ SeesContext n ∧
            ∃ f, owner? path = some f ∧ session.annotations.local? f.id = some l) := by
  obtain ⟨root', nextId, s, -, hrun, hids, hvisits⟩ := run_visits (Tree.distinct_ids root).startingAt
  have hlocated : locatedIn [root'] [] = root'.located [] := flatMap_singleton _ _
  refine ⟨root', s.session, hrun, fun path n hn => ?_⟩
  have hcontext : s.session.annotations.context? n.id =
      mark (opens n) (resolved s.session.annotations path) none :=
    hvisits.inside (path, n) (hlocated ▸ hn)
  have htold : s.session.diagnostics.filter (·.node == n.id) =
      if isUnresolved (path, n) then [remark n] else [] := by
    have hown : (fun d => d.node == n.id) ∘ (fun x : Path × Node => remark x.2) =
        fun x => x.2.id == n.id := rfl
    have hall : s.session.diagnostics = ((root'.located []).filter isUnresolved).map fun x =>
        remark x.2 := hlocated ▸ hvisits.told
    rw [hall, filter_map, hown, filter_comm, filter_located hids.nodup hn, filter_cons]
    split <;> rfl
  have hopens : opens n = (n.tag == .context || decide (n.tag ∉ ends) && n.children.any opens) := opens_eq n
  refine ⟨fun htag f hf => ?_, fun htag hnone => ?_, fun htag l => ?_⟩
  · obtain ⟨l, hl, hresolved⟩ := hvisits.resolved_owner hn hf
    refine ⟨l, hl, ?_, ?_⟩
    · rw [hcontext, hresolved, hopens, htag]
      rfl
    · rw [htold, isUnresolved, hf]
      simp
  · rw [hcontext, htold, resolved, isUnresolved, hnone, htag]
    exact ⟨mark_none _ _, rfl⟩
  · rw [beq_false_of_ne htag, Bool.false_or] at hopens
    have hsees := sees_iff n
    rw [hcontext, mark, hopens, Option.or_none]
    cases howner : owner? path with
    | none =>
      rw [resolved, howner]
      simp
    | some f =>
      obtain ⟨l', hl', hresolved⟩ := hvisits.resolved_owner hn howner
      rw [hresolved]
      simp [hl', hsees, and_assoc]

end Motif.Pattern
