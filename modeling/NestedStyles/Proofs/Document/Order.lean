import NestedStyles.Proofs.Document.Traversal

/-!
# Document order

The descendants of a node stand in one piece in those of every node above it (`WellFormed.descendants_infix`). So of a
list of descendants cut in two, the second part has all that is below a node of it, and what is below a node of the
first part is in the first part unless the cut goes through that subtree.

Several passes look for nodes with a certain property and leave alone what is inside of those that they find. A node is
free of a property if nothing above it has it. The free nodes at and below a node follow the recursion of the
descendants.
-/

namespace NestedStyles.Document

variable {doc : Document} {top x y : Nat}

namespace WellFormed

variable (hwf : doc.WellFormed)

include hwf

theorem mem_tail_lineage : y ∈ (doc.lineage x).tail ↔ doc.Spans y x ∧ y ≠ x := by
  rw [hwf.lineage_eq, List.tail_cons]
  cases hp : doc.parent x with
  | none =>
    constructor
    · intro hmem
      simp at hmem
    · rintro ⟨hspan, hne⟩
      exact absurd (hspan.eq_of_parent_none hp).symm hne
  | some parent =>
    show y ∈ doc.lineage parent ↔ _
    rw [hwf.mem_lineage]
    constructor
    · intro hspan
      refine ⟨hspan.down hp, ?_⟩
      rintro rfl
      exact hwf.not_spans_parent hp hspan
    · rintro ⟨hspan, hne⟩
      exact hspan.up (Ne.symm hne) hp

theorem mem_descendants_self : x ∈ doc.descendants x := hwf.mem_descendants.2 (Spans.refl doc x)

/-! ### Pieces of the order -/

theorem descendants_infix (hx : x ∈ doc.descendants top) : doc.descendants x <:+: doc.descendants top := by
  refine Spans.climb (motive := fun x => doc.descendants x <:+: doc.descendants top) List.infix_rfl ?_
    (hwf.mem_descendants.1 hx)
  intro x parent hp _ ih
  obtain ⟨before, after, hlist⟩ := List.append_of_mem (hwf.mem_children_iff.2 hp)
  refine List.IsInfix.trans ⟨parent :: before.flatMap doc.descendants, after.flatMap doc.descendants, ?_⟩ ih
  rw [hwf.descendants_eq parent, hlist]
  simp

variable {before after rest : List Nat}

/-- Nothing is in both parts of the order. -/
theorem ne_of_mem (hsplit : doc.descendants top = before ++ rest) (hx : x ∈ before) (hy : y ∈ rest) : x ≠ y := by
  have hnodup := hwf.nodup_descendants top
  rw [hsplit, List.nodup_append] at hnodup
  exact hnodup.2.2 x hx y hy

/-- What is below a node comes after it. -/
theorem mem_of_spans_of_mem (hsplit : doc.descendants top = before ++ rest) (hx : x ∈ rest) (hspan : doc.Spans x y) :
    y ∈ rest := by
  obtain ⟨front, back, hpiece⟩ := hwf.descendants_infix (show x ∈ doc.descendants top by simp [hsplit, hx])
  have hy := hwf.mem_descendants.2 hspan
  rw [List.append_assoc, hsplit] at hpiece
  rcases List.append_eq_append_iff.1 hpiece with ⟨middle, rfl, hrest⟩ | ⟨middle, -, rfl⟩
  · cases middle with
    | nil =>
      rw [List.nil_append] at hrest
      simp [← hrest, hy]
    | cons z middle =>
      -- the cut would be behind the node, which is in the second part
      rw [hwf.descendants_eq, List.cons_append] at hrest
      obtain ⟨rfl, -⟩ := List.cons.inj hrest
      exact absurd rfl (hwf.ne_of_mem hsplit (by simp) hx)
  · simp [hy]

/-- A node that comes before another one, and is not above it, is above nothing that comes after that one. -/
theorem not_spans_of_mem {z : Nat} (hsplit : doc.descendants top = before ++ y :: after) (hx : x ∈ before)
    (hy : ¬ doc.Spans x y) (hz : z ∈ after) : ¬ doc.Spans x z := by
  intro hspan
  obtain ⟨front, back, hpiece⟩ := hwf.descendants_infix (show x ∈ doc.descendants top by simp [hsplit, hx])
  have hbefore : z ∉ before := fun hmem => hwf.ne_of_mem hsplit hmem (.tail y hz) rfl
  have hmem := hwf.mem_descendants.2 hspan
  rw [hsplit] at hpiece
  rcases List.append_eq_append_iff.1 hpiece with ⟨middle, rfl, -⟩ | ⟨middle, hfront, hrest⟩
  · exact hbefore (by simp [hmem])
  · cases middle with
    | nil =>
      rw [List.append_nil] at hfront
      exact hbefore (by simp [← hfront, hmem])
    | cons v middle =>
      -- the piece ends behind `y`, so it starts there or behind
      obtain ⟨rfl, -⟩ := List.cons.inj hrest
      rcases List.append_eq_append_iff.1 hfront with ⟨more, rfl, hdesc⟩ | ⟨more, rfl, -⟩
      · exact hy (hwf.mem_descendants.1 (by simp [hdesc]))
      · rw [← hpiece, List.append_assoc] at hsplit
        exact hwf.ne_of_mem hsplit (List.mem_append_left _ hx) (by simp [hwf.mem_descendants_self]) rfl

end WellFormed

/-! ### Nodes inside of others -/

/-- Whether nothing above a node has the property. -/
def isFree (doc : Document) (p : Nat → Bool) (x : Nat) : Bool := (doc.lineage x).tail.all fun y => !p y

namespace WellFormed

variable {p : Nat → Bool} (hwf : doc.WellFormed)

include hwf

theorem isFree_iff : doc.isFree p x = true ↔ ∀ y, doc.Spans y x → y ≠ x → p y = false := by
  simp only [isFree, List.all_eq_true, hwf.mem_tail_lineage, Bool.not_eq_true', and_imp]

theorem isFree_of_parent_none (hp : doc.parent x = none) : doc.isFree p x = true :=
  hwf.isFree_iff.2 fun _ hspan hne => absurd (hspan.eq_of_parent_none hp).symm hne

/-- A child of a free node is free if that node does not have the property itself. -/
theorem isFree_child (hx : doc.isFree p x = true) (hnot : p x = false) (hy : y ∈ doc.children x) :
    doc.isFree p y = true := by
  have hp := hwf.mem_children_iff.1 hy
  rw [hwf.isFree_iff] at hx ⊢
  intro z hspan hne
  by_cases hz : z = x
  · rw [hz, hnot]
  · exact hx z (hspan.up (Ne.symm hne) hp) hz

theorem isFree_eq_false (hx : p x = true) (hspan : doc.Spans x y) (hne : x ≠ y) : doc.isFree p y = false := by
  rw [← Bool.not_eq_true, hwf.isFree_iff]
  intro h
  have hnot := h x hspan hne
  simp [hx] at hnot

/-- A node is free, or the topmost node above it with the property is. -/
theorem isFree_or_exists (hspan : doc.Spans top x) (htop : doc.parent top = none) :
    doc.isFree p x = true ∨ ∃ y, doc.Spans top y ∧ doc.Spans y x ∧ y ≠ x ∧ p y = true ∧ doc.isFree p y = true := by
  refine Spans.climb (motive := fun x => doc.isFree p x = true ∨
    ∃ y, doc.Spans top y ∧ doc.Spans y x ∧ y ≠ x ∧ p y = true ∧ doc.isFree p y = true) ?_ ?_ hspan
  · exact Or.inl (hwf.isFree_of_parent_none htop)
  · intro x parent hp hparent ih
    rcases ih with hfree | ⟨y, hy, hspan, hne, hpy, hfree⟩
    · by_cases hpar : p parent = true
      · exact Or.inr ⟨parent, hparent, Spans.of_parent hp, (hwf.parent_ne hp).symm, hpar, hfree⟩
      · exact Or.inl (hwf.isFree_child hfree (by simpa using hpar) (hwf.mem_children_iff.2 hp))
    · refine Or.inr ⟨y, hy, hspan.down hp, ?_, hpy, hfree⟩
      rintro rfl
      exact hwf.not_spans_parent hp hspan

theorem filter_isFree_eq (hx : doc.isFree p x = true) :
    (doc.descendants x).filter (doc.isFree p) =
      x :: (doc.children x).flatMap fun c => (doc.descendants c).filter (doc.isFree p) := by
  rw [hwf.descendants_eq, List.filter_cons_of_pos hx, List.filter_flatMap]

/-- Below a node with the property nothing is free. -/
theorem filter_isFree_of (hx : doc.isFree p x = true) (hpx : p x = true) :
    (doc.descendants x).filter (doc.isFree p) = [x] := by
  rw [hwf.filter_isFree_eq hx, List.cons.injEq, List.flatMap_eq_nil_iff]
  refine ⟨rfl, ?_⟩
  intro c hc
  rw [List.filter_eq_nil_iff]
  intro y hy
  have hp := hwf.mem_children_iff.1 hc
  have hspan := hwf.mem_descendants.1 hy
  have hne : x ≠ y := by
    rintro rfl
    exact hwf.not_spans_parent hp hspan
  rw [hwf.isFree_eq_false hpx ((Spans.of_parent hp).trans hspan) hne]
  simp

end WellFormed

end NestedStyles.Document
