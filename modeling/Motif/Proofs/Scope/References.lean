import Motif.Proofs.Scope.Walk
import Motif.Proofs.Tree.Numbering

/-!
# What is told about references

The pass over a numbered tree tells of each reference that is not declared, once and in source order,
and of each function that takes a name that its scope has declared already. It marks those functions
and nothing else.
-/

namespace Motif.Scope

/-! ## References -/

/-- The references in a node, given those in its children: identifiers, except for the bare names of
    members and of entries, and the items of export lists. -/
def referencesNode (n : Node) (below : Kind (List (Node × String))) : List (Node × String) :=
  match n.kind, below with
  | .ident name, _ => [(n, name)]
  | .member _ property, .member object name => object ++ if property.isIdent then [] else name
  | .entry key _, .entry name value => (if key.isIdent then [] else name) ++ value
  | .exported _ items, _ => items.map (fun item => (n, item.name)) ++ below.children.flatten
  | _, _ => below.children.flatten

def references : Node → List (Node × String) := Node.fold referencesNode

def Event.use? : Event → Option (Node × String)
  | .refers user _ name => some (user, name)
  | _ => none

theorem references_eq (n : Node) (around : List Nat) :
    references n = (announced n around).filterMap Event.use? ++ (visited n).flatMap references := by
  have hchildren : (n.kind.map references).children.flatten = n.children.flatMap references := by
    rw [Kind.children_map, ← List.flatMap_def, Node.children]
  have heq : references n = referencesNode n (n.kind.map references) := Node.fold_eq _ n
  rw [heq]
  unfold referencesNode
  obtain ⟨i, span, k⟩ := n
  cases k with
  | ident name => rfl
  | member | entry =>
    dsimp only [visited, announced, Kind.map]
    split <;> simp
  | function => cases around <;> exact hchildren
  | exported decl items =>
    dsimp only [announced]
    rw [hchildren, List.filterMap_map, ← List.filterMap_eq_map]
    rfl
  | _ => exact hchildren

theorem uses_trail (n : Node) (around : List Nat) : (trail n around).filterMap Event.use? = references n := by
  induction n using Node.ind generalizing around with
  | step n ih =>
    rw [filterMap_trail fun _ _ => rfl, references_eq n around]
    exact congrArg _ (List.flatMap_congr fun c hc => ih c ((visited_sublist n).subset hc) _)

/-! ## The pass -/

/-- The pass over a numbered tree: exactly one error for each reference whose name no scope around it
    has declared further up the trail, exactly one warning and a mark for each function whose name
    its scope has declared further up the trail, both in the order of the trail. The references stand
    on the trail in source order, each once, and ids tell scopes apart. -/
theorem run_tells_references (options : Options) (root : Node) :
    ∃ session, run options (Tree.ofRoot root).root (.startingAt (Tree.ofRoot root).nextId) =
        (.ok (Tree.ofRoot root).root, session) ∧
      Records session (moduleTrail options.globals (Tree.ofRoot root).root) ∧
      (moduleTrail options.globals (Tree.ofRoot root).root).filterMap Event.use? =
        references (Tree.ofRoot root).root ∧ ((Tree.ofRoot root).root.preorder.map Node.id).Nodup := by
  obtain ⟨session, hrun, hrecords⟩ :=
    records_run options (Tree.tag_root root) (records_startingAt (Tree.ofRoot root).nextId)
  refine ⟨session, hrun, hrecords, ?_, Tree.nodup_ids root⟩
  rw [filterMap_moduleTrail fun _ _ => rfl, uses_trail]

end Motif.Scope
