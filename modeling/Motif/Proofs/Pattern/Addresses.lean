import Motif.Proofs.Pattern.Clauses
import Motif.Proofs.Pattern.Walk

/-!
# Where patterns find their subjects

After pattern elaboration every pattern and every element has a local of its own, no pattern is what
another pattern or an element tests against, and a collection pattern takes apart the local of the nearest
pattern or element around it, and so do its elements.
-/

namespace Motif

open List

namespace Desugar

open Pattern (tested? tag_of_tested? boundaries)

/-! ## Templates in shape -/

def Unnested (n : Node) : Prop := ∀ t ∈ tested? n, t.tag ≠ .pattern

theorem unnested_of_tag {n : Node} (h : n.tag ∉ boundaries) : Unnested n :=
  fun _ ht => absurd (tag_of_tested? ht) h

structure Flat (n n' : Node) : Prop where
  tag : n'.tag = n.tag
  unnested : n'.Everywhere Unnested

theorem flat_of_layer {n n' : Node}
    (h : Layer Flat (fun _ m => m.tag ≠ .pattern ∧ m.Everywhere Unnested) n n') : Flat n n' := by
  have hnew (m : Node) (hm : m.tag ∈ newTags) : Unnested m := by
    refine unnested_of_tag fun hboundary => ?_
    have hdisjoint : ∀ t ∈ newTags, t ∉ boundaries := by decide
    exact hdisjoint _ hm hboundary
  -- A pattern is put around a template only if it is no pattern.
  have hwrap (i : Nat) (span : Span) (c c' : Node) (htag : c.tag ≠ .pattern) (h : Flat c c') :
      Unnested ⟨i, span, .pattern c'⟩ := by
    rintro t ⟨⟩
    rw [h.tag]
    exact htag
  have htag : n'.tag = n.tag := h.tag_eq fun _ _ hc => hc.tag
  refine ⟨htag, everywhere_of_layer (fun _ _ h => h.unnested) hnew hwrap (fun _ _ h => h.2) h ?_⟩
  cases h with
  | @same i span k k' hsame h =>
    refine unnested_of_tag fun hboundary => hsame ?_
    have hboundaries : ∀ t ∈ boundaries, t ∈ [Tag.function, .clause, .pattern, .element] := by decide
    rw [htag] at hboundary
    exact hboundaries _ hboundary
  | function | clause => exact unnested_of_tag (of_decide_eq_true rfl)
  | pattern hpattern h => exact hwrap _ _ _ _ hpattern h
  | inner _ h => exact h.unnested.here
  | element hkey hvalue =>
    rintro t ⟨⟩
    exact hvalue.1

theorem flat_of_shapes {n n' : Node} (h : Shapes n n') : Flat n n' := by
  refine (layer_induct (fun _ _ _ => flat_of_layer) (fun _ _ _ _ hexpr => hexpr)
    (fun m m' htag hflat => ⟨?_, hflat.unnested⟩) n).1 n' h
  rw [hflat.tag]
  exact htag

end Desugar

namespace Pattern

/-! ## The pass -/

/-- In a tree that the pass has gone over, patterns and elements have locals of their own, and none of
    them tests against a pattern. A collection pattern whose owner is a pattern or an element takes
    apart the owner's local, and its elements have been told the same local. -/
theorem run_addresses_subjects (root : Node) : ∃ root' session,
      run (Tree.ofRoot root).root (.startingAt (Tree.ofRoot root).nextId) = (.ok root', session) ∧
      (∀ b ∈ root'.preorder, b.tag ∈ boundaries → (session.annotations.local? b.id).isSome) ∧
      (∀ b ∈ root'.preorder, ∀ c ∈ root'.preorder, b.tag ∈ boundaries → c.tag ∈ boundaries →
        b ≠ c → session.annotations.local? b.id ≠ session.annotations.local? c.id) ∧
      (∀ b ∈ root'.preorder, ∀ t ∈ tested? b, t.tag ≠ .pattern) ∧
      ∀ path n f, (path, n) ∈ root'.located [] → n.tag ∈ collections → owner? path = some f →
        ∃ l, session.annotations.local? f.id = some l ∧ session.annotations.parent? n.id = some l ∧
          ∀ e ∈ n.children, e.tag = .element → session.annotations.parent? e.id = some l := by
  obtain ⟨root', nextId, s, hshape, hrun, hids, hvisits⟩ := run_visits (Tree.distinct_ids root).startingAt
  have hlinks := hvisits.links (untold_empty root')
  have hmem {b : Node} (hb : b ∈ root'.preorder) : b ∈ nodesOf [root'] := by
    rwa [nodesOf, flatMap_singleton]
  refine ⟨root', s.session, hrun, fun b hb htag => ?_, fun b hb c hc hbtag hctag hne heq => hne ?_,
    (Desugar.flat_of_shapes (.of_run hshape)).unnested, fun path n f hn htag hf => ?_⟩
  · obtain ⟨l, hl, -⟩ := hvisits.given b (hmem hb) htag
    rw [hl]
    rfl
  · exact inj_on_of_nodup_map hids.nodup hb hc
      (hvisits.distinct b (hmem hb) c (hmem hc) hbtag hctag heq)
  · have hn' : n ∈ root'.preorder := by
      rw [← Node.map_snd_located root' []]
      exact mem_map_of_mem hn
    obtain ⟨l, hl, hresolved⟩ := hvisits.resolved_owner hn hf
    have hparent := hlinks.collections (path, n) (by rwa [locatedIn, flatMap_singleton]) htag l
      hresolved
    exact ⟨l, hl, hparent, fun e he hetag => hlinks.members n (hmem hn') htag e he hetag l hparent⟩

end Pattern

end Motif
