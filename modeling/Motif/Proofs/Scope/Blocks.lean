import Motif.Pass.Scope
import Motif.Proofs.Pattern.Owners

/-!
# Blocks around `await` and `emit`

The blocks that are run as generators are those of `do` and `generate`. `InBlocks` says that every `await`
and `emit` of a tree stands in such a block, with no function, lambda or pattern in between.
-/

namespace Motif

open List

def blockTags : List Tag := [.doBlock, .generator]

def yieldTags : List Tag := [.await, .emit]

/-- A block is around, with no function, lambda or pattern in between. -/
def Path.InBlock (path : Path) : Prop := (path.nearest? blockTags Scope.barriers).isSome

def Node.InBlocks (n : Node) (path : Path) : Prop := ∀ x ∈ n.located path, x.2.tag ∈ yieldTags → x.1.InBlock

theorem barrier_not_block {tag : Tag} (h : tag ∈ Scope.barriers) : tag ∉ blockTags := by
  simp only [Scope.barriers, mem_cons, not_mem_nil, or_false] at h
  rcases h with rfl | rfl | rfl <;> decide

section Paths

variable {n : Node} {path : Path} {f : Frame}

theorem Path.inBlock_cons : Path.InBlock (f :: path) ↔
    f.tag ∈ blockTags ∨ f.tag ∉ Scope.barriers ∧ path.InBlock := by
  unfold InBlock
  rw [nearest?]
  split
  · next h => simp [contains_iff_mem.mp h]
  · next h =>
    rw [contains_iff_mem] at h
    split
    · next hbarrier => simp [h, contains_iff_mem.mp hbarrier]
    · next hbarrier =>
      rw [contains_iff_mem] at hbarrier
      simp [h, hbarrier]

theorem Path.inBlock_of_nearest? {tag : Tag} (htag : tag ∈ blockTags)
    (h : (path.nearest? [tag] Scope.barriers).isSome) : path.InBlock := by
  induction path with
  | nil => cases h
  | cons f path ih =>
    rw [inBlock_cons]
    rw [nearest?] at h
    split at h
    · next hf =>
      rw [contains_iff_mem, mem_singleton] at hf
      exact .inl (hf ▸ htag)
    · split at h
      · cases h
      · next hbarrier => exact .inr ⟨mt contains_iff_mem.mpr hbarrier, ih h⟩

theorem Node.inBlocks_iff : n.InBlocks path ↔
    (n.tag ∈ yieldTags → path.InBlock) ∧ ∀ c ∈ n.children, c.InBlocks (n.frame :: path) := by
  unfold InBlocks
  rw [located_eq, forall_mem_cons, forall_mem_flatMap]

theorem Node.inBlocks_of_isIdent (h : n.isIdent) (path : Path) : n.InBlocks path := by
  obtain ⟨i, span, k⟩ := n
  cases k with
  | ident name =>
    rw [inBlocks_iff]
    exact ⟨fun htag => by cases htag; contradiction, fun c hc => by cases hc⟩
  | _ => cases h

end Paths

end Motif
