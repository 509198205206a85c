import Mathlib.Data.List.Nodup
import Std.Data.TreeSet.Lemmas
import NestedStyles.Proofs.Document.Ancestry

/-!
# Well-formed documents pass the check

The check goes through what is below the root with a stack. Whatever has been pushed, seen or not, has a parent that has
been seen (`Visiting`). So the children of a node that is seen for the first time cannot have been pushed before.
-/

namespace NestedStyles.Document

variable {doc : Document} {seen : Std.TreeSet Nat} {stack : List Nat}

/-- The state of the check when nothing has been found wrong. -/
structure Visiting (doc : Document) (seen : Std.TreeSet Nat) (stack : List Nat) : Prop where
  nodup : stack.Nodup
  unseen : ∀ x ∈ stack, x ∉ seen
  parent_seen : ∀ {x p}, x ∈ seen ∨ x ∈ stack → doc.parent x = some p → p ∈ seen

theorem WellFormed.visiting_root (hwf : doc.WellFormed) : Visiting doc ∅ [root] where
  nodup := List.nodup_singleton root
  unseen x _ := Std.TreeSet.not_mem_emptyc
  parent_seen := by
    intro x p hx hp
    rcases hx with hx | hx
    · exact absurd hx Std.TreeSet.not_mem_emptyc
    · rw [List.mem_singleton.1 hx, hwf.parent_root] at hp
      simp at hp

/-- A child of the node on top of the stack is new. -/
theorem Visiting.not_pushed {id child : Nat} (h : Visiting doc seen (id :: stack))
    (hp : doc.parent child = some id) : child ∉ seen ∧ child ∉ id :: stack := by
  have hid : id ∉ seen := h.unseen id List.mem_cons_self
  exact ⟨fun hmem => hid (h.parent_seen (Or.inl hmem) hp), fun hmem => hid (h.parent_seen (Or.inr hmem) hp)⟩

theorem Visiting.step (hwf : doc.WellFormed) {id : Nat} (h : Visiting doc seen (id :: stack)) :
    Visiting doc (seen.insert id) ((doc.children id).reverse ++ stack) := by
  obtain ⟨hid, hstack⟩ := List.nodup_cons.1 h.nodup
  -- all three parts come down to this: what is pushed now has not been pushed before
  have hnew : ∀ x ∈ (doc.children id).reverse, x ∉ seen ∧ x ∉ id :: stack := by
    intro x hx
    exact h.not_pushed (hwf.mem_children_iff.1 (List.mem_reverse.1 hx))
  refine ⟨?_, ?_, ?_⟩
  · refine List.nodup_append.2 ⟨List.nodup_reverse.2 (hwf.nodup_children id), hstack, ?_⟩
    rintro x hx y hy rfl
    exact (hnew x hx).2 (List.mem_cons_of_mem id hy)
  · intro x hx hseen
    rw [Std.TreeSet.mem_insert, Std.LawfulEqCmp.compare_eq_iff_eq] at hseen
    rcases List.mem_append.1 hx with hx | hx
    · rcases hseen with rfl | hseen
      · exact (hnew id hx).2 List.mem_cons_self
      · exact (hnew x hx).1 hseen
    · rcases hseen with rfl | hseen
      · exact hid hx
      · exact h.unseen x (List.mem_cons_of_mem id hx) hseen
  · intro x p hx hp
    rw [Std.TreeSet.mem_insert, Std.LawfulEqCmp.compare_eq_iff_eq] at hx ⊢
    rcases hx with (rfl | hx) | hx
    · exact Or.inr (h.parent_seen (Or.inr List.mem_cons_self) hp)
    · exact Or.inr (h.parent_seen (Or.inl hx) hp)
    · rcases List.mem_append.1 hx with hx | hx
      · rw [List.mem_reverse, hwf.mem_children_iff, hp] at hx
        exact Or.inl (Option.some.inj hx).symm
      · exact Or.inr (h.parent_seen (Or.inr (List.mem_cons_of_mem id hx)) hp)

/-- The node on top of the stack has not been seen. -/
theorem Visiting.contains_eq_false {id : Nat} (h : Visiting doc seen (id :: stack)) : seen.contains id = false := by
  rw [← Bool.not_eq_true, ← Std.TreeSet.mem_iff_contains]
  exact h.unseen id List.mem_cons_self

/-- No child of a node has another parent. -/
theorem WellFormed.find?_misplaced (hwf : doc.WellFormed) (id : Nat) :
    ((doc.children id).find? fun child => doc.parent child ≠ some id) = none := by
  rw [List.find?_eq_none]
  intro child hchild
  simp [hwf.mem_children_iff.1 hchild]

theorem Visiting.checkFrom_eq (hwf : doc.WellFormed) (h : Visiting doc seen stack) (steps : Nat) :
    doc.checkFrom steps seen stack = .ok () := by
  induction steps generalizing seen stack with
  | zero => rfl
  | succ steps ih =>
    cases stack with
    | nil => rfl
    | cons id stack =>
      rw [checkFrom, h.contains_eq_false, hwf.find?_misplaced]
      exact ih (h.step hwf)

theorem WellFormed.verify_eq (hwf : doc.WellFormed) : doc.verify = .ok () := by
  unfold verify
  rw [hwf.parent_root]
  exact hwf.visiting_root.checkFrom_eq hwf _

end NestedStyles.Document
