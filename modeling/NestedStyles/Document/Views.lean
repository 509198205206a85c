import NestedStyles.Document.Edit

/-!
# Operations and views

What the basic operations on a document do to its views `next`, `kind`, `parent` and `children`.
-/

namespace NestedStyles.Document

/-! ### Changing a node -/

@[simp]
theorem next_setKind (doc : Document) (id : Nat) (k : Kind) : (doc.setKind id k).next = doc.next := next_modify ..

@[simp]
theorem next_setParent (doc : Document) (id : Nat) (p : Option Nat) : (doc.setParent id p).next = doc.next :=
  next_modify ..

@[simp]
theorem next_setChildren (doc : Document) (id : Nat) (cs : List Nat) : (doc.setChildren id cs).next = doc.next :=
  next_modify ..

theorem kind_setKind (doc : Document) (id : Nat) (k : Kind) (other : Nat) :
    (doc.setKind id k).kind other = if id = other ∧ other < doc.next then k else doc.kind other := by
  simp only [kind, setKind, node_modify]
  split <;> rfl

@[simp]
theorem parent_setKind (doc : Document) (id : Nat) (k : Kind) (other : Nat) :
    (doc.setKind id k).parent other = doc.parent other := by
  simp only [parent, setKind, node_modify]
  split <;> rfl

@[simp]
theorem children_setKind (doc : Document) (id : Nat) (k : Kind) (other : Nat) :
    (doc.setKind id k).children other = doc.children other := by
  simp only [children, setKind, node_modify]
  split <;> rfl

@[simp]
theorem kind_setParent (doc : Document) (id : Nat) (p : Option Nat) (other : Nat) :
    (doc.setParent id p).kind other = doc.kind other := by
  simp only [kind, setParent, node_modify]
  split <;> rfl

theorem parent_setParent (doc : Document) (id : Nat) (p : Option Nat) (other : Nat) :
    (doc.setParent id p).parent other = if id = other ∧ other < doc.next then p else doc.parent other := by
  simp only [parent, setParent, node_modify]
  split <;> rfl

@[simp]
theorem children_setParent (doc : Document) (id : Nat) (p : Option Nat) (other : Nat) :
    (doc.setParent id p).children other = doc.children other := by
  simp only [children, setParent, node_modify]
  split <;> rfl

@[simp]
theorem kind_setChildren (doc : Document) (id : Nat) (cs : List Nat) (other : Nat) :
    (doc.setChildren id cs).kind other = doc.kind other := by
  simp only [kind, setChildren, node_modify]
  split <;> rfl

@[simp]
theorem parent_setChildren (doc : Document) (id : Nat) (cs : List Nat) (other : Nat) :
    (doc.setChildren id cs).parent other = doc.parent other := by
  simp only [parent, setChildren, node_modify]
  split <;> rfl

theorem children_setChildren (doc : Document) (id : Nat) (cs : List Nat) (other : Nat) :
    (doc.setChildren id cs).children other = if id = other ∧ other < doc.next then cs else doc.children other := by
  simp only [children, setChildren, node_modify]
  split <;> rfl

/-! ### New nodes -/

@[simp]
theorem next_push (doc : Document) (n : Node) : (doc.push n).1.next = doc.next + 1 := by
  simp [push, next]

@[simp]
theorem id_push (doc : Document) (n : Node) : (doc.push n).2 = doc.next := rfl

theorem kind_push (doc : Document) (n : Node) (other : Nat) :
    (doc.push n).1.kind other = if other = doc.next then n.kind else doc.kind other := by
  simp only [kind, node_push]
  split <;> rfl

theorem parent_push (doc : Document) (n : Node) (other : Nat) :
    (doc.push n).1.parent other = if other = doc.next then n.parent else doc.parent other := by
  simp only [parent, node_push]
  split <;> rfl

theorem children_push (doc : Document) (n : Node) (other : Nat) :
    (doc.push n).1.children other = if other = doc.next then n.slots.toList else doc.children other := by
  simp only [children, node_push]
  split <;> rfl

/-- Numbers that are not in use have no parent. -/
theorem parent_of_le {doc : Document} {id : Nat} (h : doc.next ≤ id) : doc.parent id = none := by
  rw [parent, node_of_le h]; rfl

/-- Numbers that are not in use have no children. -/
theorem children_of_le {doc : Document} {id : Nat} (h : doc.next ≤ id) : doc.children id = [] := by
  rw [children, node_of_le h]; rfl

/-! ### Positions -/

theorem indexOf?_eq (doc : Document) (parent node : Nat) :
    doc.indexOf? parent node = (doc.children parent).idxOf? node := by
  rw [indexOf?, children, ← List.idxOf?_toArray]

theorem contains_slots (doc : Document) (parent node : Nat) :
    (doc.node parent).slots.contains node = true ↔ node ∈ doc.children parent := by
  rw [Array.contains_iff_mem, children, Array.mem_toList_iff]

theorem size_slots (doc : Document) (parent : Nat) : (doc.node parent).slots.size = (doc.children parent).length := by
  rw [children, Array.length_toList]

/-! ### Attaching -/

@[simp]
theorem next_place (doc : Document) (parent : Nat) (index : Nat) (node : Nat) :
    (doc.place parent index node).next = doc.next := by
  simp [place]

@[simp]
theorem kind_place (doc : Document) (parent : Nat) (index : Nat) (node other : Nat) :
    (doc.place parent index node).kind other = doc.kind other := by
  simp only [place, kind_setParent]
  simp only [kind, node_modify]
  split <;> rfl

theorem parent_place (doc : Document) (parent : Nat) (index : Nat) (node other : Nat) :
    (doc.place parent index node).parent other =
      if node = other ∧ other < doc.next then some parent else doc.parent other := by
  simp only [place, parent_setParent, next_modify]
  split
  · rfl
  · simp only [Document.parent, node_modify]
    split <;> rfl

theorem children_place (doc : Document) (parent : Nat) (index : Nat) (node other : Nat) :
    (doc.place parent index node).children other =
      if parent = other ∧ other < doc.next then (doc.children other).insertIdx index node else doc.children other := by
  simp only [place, children_setParent]
  simp only [children, node_modify]
  split
  · rw [← @Array.toArray_toList _ (doc.node other).slots, List.insertIdxIfInBounds_toArray]
  · rfl

/-! ### Detaching -/

theorem removeChild_of_not_mem {doc : Document} {parent node : Nat} (h : node ∉ doc.children parent) :
    doc.removeChild parent node = (doc, false) := by
  rw [removeChild, if_neg (by rwa [contains_slots])]

theorem removeChild_snd (doc : Document) (parent node : Nat) :
    (doc.removeChild parent node).2 = true ↔ node ∈ doc.children parent := by
  rw [removeChild, ← contains_slots]
  split <;> simp_all

@[simp]
theorem next_removeChild (doc : Document) (parent node : Nat) : (doc.removeChild parent node).1.next = doc.next := by
  rw [removeChild]
  split <;> simp

@[simp]
theorem kind_removeChild (doc : Document) (parent node other : Nat) :
    (doc.removeChild parent node).1.kind other = doc.kind other := by
  rw [removeChild]
  split
  · simp only [kind_setParent]
    simp only [kind, node_modify]
    split <;> rfl
  · rfl

theorem parent_removeChild {doc : Document} {parent node : Nat} (h : node ∈ doc.children parent) (other : Nat) :
    (doc.removeChild parent node).1.parent other =
      if node = other ∧ other < doc.next then none else doc.parent other := by
  rw [removeChild, if_pos ((contains_slots ..).2 h)]
  simp only [parent_setParent, next_modify]
  split
  · rfl
  · simp only [Document.parent, node_modify]
    split <;> rfl

theorem children_removeChild (doc : Document) (parent node other : Nat) :
    (doc.removeChild parent node).1.children other =
      if parent = other then (doc.children other).erase node else doc.children other := by
  by_cases h : node ∈ doc.children parent
  · rw [removeChild, if_pos ((contains_slots ..).2 h)]
    simp only [children_setParent]
    simp only [children, node_modify]
    by_cases hp : parent = other
    · subst hp
      have hlt : parent < doc.next := by
        by_cases hlt : parent < doc.next
        · exact hlt
        · rw [children_of_le (by omega)] at h
          simp at h
      rw [if_pos ⟨rfl, hlt⟩, if_pos rfl]
      rw [← @Array.toArray_toList _ (doc.node parent).slots, List.erase_toArray]
    · rw [if_neg (fun hpo => hp hpo.1), if_neg hp]
  · rw [removeChild_of_not_mem h]
    split
    · next hp => rw [hp] at h; rw [List.erase_of_not_mem h]
    · rfl

end NestedStyles.Document
