import Motif.Proofs.Pipeline.Matching
import Motif.Proofs.Pipeline.Overloads
import Motif.Proofs.Scope.References

/-!
# Keys that are bare names

The key of a member, of an entry or of an element of a pattern is a plain name where it is a bare name:
nothing looks it up when the program is run. The pass over scopes passes by the keys of members and of
entries. It does not pass by the keys of elements, and so tells of each whose name no scope around it has
declared.
-/

namespace Motif

open List
open Node (idsOf)
open Pattern (mem_preorder_of_child)
open Desugar (mem_preorder_self)

namespace Scope

def passedBy (n : Node) : List Node :=
  match n.kind with
  | .member _ property => if property.isIdent then [property] else []
  | .entry key _ => if key.isIdent then [key] else []
  | _ => []

theorem perm_children (n : Node) : (visited n ++ passedBy n).Perm n.children := by
  obtain ⟨i, span, k⟩ := n
  cases k with
  | member object property =>
    dsimp only [visited, passedBy]
    split <;> exact .refl _
  | entry key value =>
    dsimp only [visited, passedBy]
    split
    · exact .swap key value []
    · exact .refl _
  | _ => exact .of_eq (append_nil _)

/-- A node that is asked for a name: an identifier, or an export list, that no node has passed by. -/
structure Asks (root user : Node) (name : String) : Prop where
  mem : user ∈ root.preorder
  names : user.kind = .ident name ∨ user.tag = .exported
  visited : ∀ owner ∈ root.preorder, ∀ key ∈ passedBy owner, key.id ≠ user.id

theorem eq_of_mem_announced {n user : Node} {name : String}
    (h : (user, name) ∈ (announced n []).filterMap Event.use?) :
    user = n ∧ (n.kind = .ident name ∨ n.tag = .exported) := by
  obtain ⟨e, he, huse⟩ := mem_filterMap.mp h
  obtain ⟨i, span, k⟩ := n
  cases k with
  | ident x =>
    obtain rfl := mem_singleton.mp he
    cases huse
    exact ⟨rfl, .inl rfl⟩
  | exported decl items =>
    obtain ⟨item, -, rfl⟩ := mem_map.mp he
    cases huse
    exact ⟨rfl, .inr rfl⟩
  | _ => cases he

theorem asks_of_mem_references {n user : Node} {name : String} (hids : n.ids.Nodup)
    (h : (user, name) ∈ references n) : Asks n user name := by
  induction n using Node.ind with
  | step n ih =>
    rw [Node.ids_eq, nodup_cons] at hids
    obtain ⟨hnew, hbelow⟩ := hids
    -- A key that is passed by is below one of the children.
    have hkey {owner key : Node} (howner : owner ∈ n.preorder) (hkey : key ∈ passedBy owner) :
        ∃ c ∈ n.children, key.id ∈ c.ids ∧ (owner = n ∨ owner ∈ c.preorder) := by
      have hchild := (perm_children owner).subset (mem_append_right _ hkey)
      rw [Node.preorder_eq] at howner
      rcases mem_cons.mp howner with rfl | howner
      · exact ⟨key, hchild, key.id_mem, .inl rfl⟩
      · obtain ⟨c, hc, howner⟩ := mem_flatMap.mp howner
        exact ⟨c, hc, mem_map_of_mem (mem_preorder_of_child howner hchild), .inr howner⟩
    rw [references_eq n [], mem_append, mem_flatMap] at h
    rcases h with h | ⟨c, hc, h⟩
    · obtain ⟨rfl, hnames⟩ := eq_of_mem_announced h
      refine ⟨mem_preorder_self user, hnames, fun owner howner key hk hid => hnew ?_⟩
      obtain ⟨c, hc, hin, -⟩ := hkey howner hk
      exact mem_flatMap.mpr ⟨c, hc, hid ▸ hin⟩
    · have hchild := (visited_sublist n).subset hc
      have hasks := ih c hchild ((nodup_flatMap.mp hbelow).1 c hchild) h
      refine ⟨?_, hasks.names, fun owner howner key hk hid => ?_⟩
      · rw [Node.preorder_eq]
        exact mem_cons_of_mem _ (mem_flatMap.mpr ⟨c, hchild, hasks.mem⟩)
      have huser : key.id ∈ c.ids := hid ▸ mem_map_of_mem hasks.mem
      obtain ⟨c', hc', hin, rfl | howner⟩ := hkey howner hk
      · have hparts := ((perm_children owner).flatMap_right Node.ids).nodup_iff.mpr hbelow
        rw [flatMap_append] at hparts
        exact (nodup_append.mp hparts).2.2 key.id (mem_flatMap.mpr ⟨c, hc, huser⟩) key.id
          (mem_flatMap.mpr ⟨key, hk, key.id_mem⟩) rfl
      · obtain rfl := Node.eq_of_mem_ids hbelow hchild hc' huser hin
        exact hasks.visited owner howner key hk hid

theorem mem_uses_of_undeclared {es : List Event} {finding : Node × String}
    (h : finding ∈ undeclared es) : finding ∈ es.filterMap Event.use? := by
  obtain ⟨earlier, e, later, rfl, htest⟩ := mem_findings_iff.mp h
  refine mem_filterMap.mpr ⟨e, by simp, ?_⟩
  cases e with
  | refers user around name =>
    rw [Event.undeclared?] at htest
    split at htest
    · cases htest
    · exact htest
  | _ => cases htest

def IsTold (s : Session) (n : Node) : Prop := ∃ d ∈ s.diagnostics, d.kind = .declaration ∧ d.node = n.id

theorem Records.isTold_iff {s : Session} {es : List Event} (h : Records s es) (n : Node) :
    IsTold s n ↔ ∃ f ∈ undeclared es, f.1.id = n.id := by
  have htold : IsTold s n ↔ n.id ∈ (remarks .declaration s.diagnostics).map Prod.fst := by
    simp [IsTold, remarks, and_assoc]
  rw [htold, h.told]
  simp [undeclaredRemark]

end Scope

open Scope

/-- A bare name that is the key of a member or of an entry is never told to be undeclared. One that is the
    key of an element is, if no scope around it has declared the name before. -/
theorem runPasses_tells_of_element_keys {t : Tree} (ht : t.Built) (options : Options) :
    ∃ tree session, runPasses options [.pattern, .scope] t = .ok (tree, session) ∧
      ∀ owner ∈ tree.root.preorder, owner.tag ∈ [Tag.member, .entry, .element] →
        ∀ key ∈ owner.kind.keys, ∀ name, key.kind = .ident name → (IsTold session key ↔ owner.tag = .element ∧
            (key, name) ∈ undeclared (moduleTrail options.globals tree.root)) := by
  obtain ⟨root, session, hrun, -, hids, hrecords⟩ := runPasses_pattern_scope ht options
  refine ⟨_, session, hrun, fun owner howner htag key hkey name hname => ?_⟩
  rw [hrecords.isTold_iff]
  refine ⟨fun ⟨(user, x), hfinding, hid⟩ => ?_, fun h => ⟨_, h.2, rfl⟩⟩
  have huse := mem_uses_of_undeclared hfinding
  rw [filterMap_moduleTrail fun _ _ => rfl, uses_trail] at huse
  have hasks := asks_of_mem_references hids huse
  have hin := mem_preorder_of_child howner (Kind.mem_children_of_mem_keys hkey)
  obtain rfl := Node.eq_of_id_eq hids hasks.mem hin hid
  have hx : x = name := by
    rcases hasks.names with h | h
    · cases hname.symm.trans h
      rfl
    · rw [Node.tag, hname] at h
      cases h
  refine ⟨?_, hx ▸ hfinding⟩
  have hident : user.isIdent = true := by rw [Node.isIdent, Node.ident?, hname]; rfl
  have hvisited (h : user ∈ passedBy owner) : False := hasks.visited owner howner user h rfl
  obtain ⟨i, span, k⟩ := owner
  cases k with
  | member | entry =>
    obtain rfl := mem_singleton.mp hkey
    exact (hvisited (by simp [passedBy, hident])).elim
  | element => rfl
  | _ => simp [Kind.tag] at htag

def keyedBody : List Node :=
  let name : Node := .ofKind (.ident "x")
  let yes : Node := .ofKind (.literal (.bool true))
  [.ofKind (.ret (.ofKind (.call
    (.ofKind (.pattern (.ofKind (.objectPattern [.ofKind (.element name yes)]))))
    [.ofKind (.object [.ofKind (.entry name yes)])])))]

theorem runPasses_tells_of_element_keys_keyed : (Tree.ofBody keyedBody).Built ∧
      ∃ tree session, runPasses {} [.pattern, .scope] (.ofBody keyedBody) = .ok (tree, session) ∧
        ∀ owner ∈ tree.root.preorder, owner.tag ∈ [Tag.member, .entry, .element] →
          ∀ key ∈ owner.kind.keys, ∀ name, key.kind = .ident name →
            (IsTold session key ↔ owner.tag = .element ∧
              (key, name) ∈ undeclared (moduleTrail ({} : Options).globals tree.root)) :=
  ⟨.body keyedBody, runPasses_tells_of_element_keys (.body keyedBody) {}⟩

/-- The key of the element is told to be undeclared, although the run reads it as it stands: the object has
    what the pattern asks for. -/
theorem element_key_told :
    ∃ tree session m, runPasses {} [.pattern, .scope] (.ofBody keyedBody) = .ok (tree, session) ∧
      (∃ owner ∈ tree.root.preorder, owner.tag = .element ∧ ∃ key ∈ owner.kind.keys,
        key.kind = .ident "x" ∧ IsTold session key) ∧
      Eval.Gives (Eval.run (Eval.bareHost session.annotations) 9 tree.root) {} (.data (.bool true)) m :=
  ⟨_, _, _, rfl, ⟨_, .tail _ (.tail _ (.tail _ (.tail _ (.tail _ (.head _))))), rfl, _, .head _, rfl, _,
    .head _, rfl, rfl⟩, rfl⟩

end Motif
