import Motif.Annotation

/-!
# Stores that differ in some kinds of annotations

A component reads annotations of some kinds and writes annotations of others. `SameExcept` compares two
stores up to given kinds: whatever is read by another key is the same in both.
-/

namespace Motif

theorem Notes.get?_set (notes : Notes) (note : Annotation) (key : AnnotationKey) :
    (notes.set note).get? key = if note.key = key then some note else notes.get? key := by
  cases note <;> cases key <;> rfl

namespace Annotations

theorem get?_annotate (a : Annotations) (id other : Nat) (note : Annotation) (key : AnnotationKey) :
    (a.annotate id note).get? other key =
      if id = other ∧ note.key = key then some note else a.get? other key := by
  rw [get?, notes_annotate]
  by_cases hid : id = other
  · subst hid
    rw [if_pos rfl, Notes.get?_set]
    by_cases hkey : note.key = key
    · rw [if_pos hkey, if_pos ⟨rfl, hkey⟩]
    · rw [if_neg hkey, if_neg fun h => hkey h.2]
      rfl
  · rw [if_neg hid, if_neg fun h => hid h.1]
    rfl

/-- The second store has the annotations of the first one, those of the given kinds aside. -/
def SameExcept (keys : List AnnotationKey) (a b : Annotations) : Prop :=
  ∀ id, ∀ key ∉ keys, b.get? id key = a.get? id key

namespace SameExcept

variable {keys : List AnnotationKey} {a b c : Annotations}

theorem refl (keys : List AnnotationKey) (a : Annotations) : SameExcept keys a a := fun _ _ _ => rfl

theorem symm (h : SameExcept keys a b) : SameExcept keys b a := fun id key hkey => (h id key hkey).symm

theorem trans (hab : SameExcept keys a b) (hbc : SameExcept keys b c) : SameExcept keys a c :=
  fun id key hkey => (hbc id key hkey).trans (hab id key hkey)

theorem mono {keys' : List AnnotationKey} (h : SameExcept keys a b) (hkeys : keys ⊆ keys') :
    SameExcept keys' a b := fun id key hkey => h id key fun hmem => hkey (hkeys hmem)

theorem annotate (a : Annotations) (id : Nat) {note : Annotation} (hnote : note.key ∈ keys) :
    SameExcept keys a (a.annotate id note) := by
  intro other key hkey
  rw [get?_annotate, if_neg]
  rintro ⟨-, rfl⟩
  exact hkey hnote

theorem has (h : SameExcept keys a b) {key : AnnotationKey} (hkey : key ∉ keys) (id : Nat) :
    b.has id key = a.has id key := by
  rw [Annotations.has, h id key hkey]
  rfl

theorem local? (h : SameExcept keys a b) (hkey : .patternLocal ∉ keys) (id : Nat) :
    b.local? id = a.local? id :=
  Option.map_injective (fun _ _ => Annotation.patternLocal.inj) (h id .patternLocal hkey)

theorem parent? (h : SameExcept keys a b) (hkey : .patternParent ∉ keys) (id : Nat) :
    b.parent? id = a.parent? id :=
  Option.map_injective (fun _ _ => Annotation.patternParent.inj) (h id .patternParent hkey)

theorem context? (h : SameExcept keys a b) (hkey : .patternContext ∉ keys) (id : Nat) :
    b.context? id = a.context? id :=
  Option.map_injective (fun _ _ => Annotation.patternContext.inj) (h id .patternContext hkey)

theorem declarations (h : SameExcept keys a b) (hkey : .scopeDeclarations ∉ keys) (id : Nat) :
    b.declarations id = a.declarations id :=
  congrArg (Option.getD · []) (Option.map_injective (fun _ _ => Annotation.scopeDeclarations.inj)
    (h id .scopeDeclarations hkey))

theorem isShadow (h : SameExcept keys a b) (hkey : .functionShadow ∉ keys) (id : Nat) :
    b.isShadow id = a.isShadow id := by
  have hsome (a : Annotations) : (a.get? id .functionShadow).isSome = a.isShadow id := by
    show (if a.isShadow id then some Annotation.functionShadow else none).isSome = _
    cases a.isShadow id <;> rfl
  rw [← hsome b, h id .functionShadow hkey, hsome a]

end SameExcept

end Annotations

end Motif
