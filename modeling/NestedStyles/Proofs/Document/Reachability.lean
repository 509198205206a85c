import Mathlib.Computability.StateTransition
import NestedStyles.Proofs.Document.Building

/-!
# Downward and upward reachability

What is below a node can be listed going down, by a loop with a stack of nodes (`Tour`) or by recursion on the child
lists (`WellFormed.preorder`), and told node by node going up, by the climb along the parents (`Spans`). In a well-formed
document the loop ends, both listings are `descendants`, and they hold the nodes from which the climb comes by
(`reachable_both_ways`). So the attached nodes are those below the root, and `size` counts them.
-/

namespace NestedStyles.Document

/-- A listing under way: the nodes on the stack, with its top at the end, and those taken from it so far. -/
structure Tour where
  stack : List Nat
  taken : List Nat

/-- One round of the loop. The node on top is taken, and its children go on the stack in reverse, so that the first of
them comes next. There are no more rounds once the stack is empty. -/
def Tour.advance? (doc : Document) (tour : Tour) : Option Tour :=
  tour.stack.getLast?.map fun id => ⟨tour.stack.dropLast ++ (doc.children id).reverse, tour.taken ++ [id]⟩

/-- A node, followed by what the recursion lists for its children, one after the other. -/
def WellFormed.preorder {doc : Document} (hwf : doc.WellFormed) (id : Nat) : List Nat :=
  id :: (doc.children id).attach.flatMap fun child => hwf.preorder child.1
termination_by doc.next - (doc.lineage id).length
decreasing_by exact hwf.levels_left_lt child.2

variable {doc : Document}

/-! ### The loop -/

theorem Tour.advance?_append (stack taken : List Nat) (id : Nat) :
    advance? doc ⟨stack ++ [id], taken⟩ = some ⟨stack ++ (doc.children id).reverse, taken ++ [id]⟩ := by
  simp [advance?]

/-- The rounds of the loop take the nodes of a list from a stack that has them in reverse. -/
theorem Lists.reaches {stack out : List Nat} (h : doc.Lists stack out) (taken : List Nat) :
    StateTransition.Reaches (Tour.advance? doc) ⟨stack.reverse, taken⟩ ⟨[], taken ++ out⟩ := by
  induction h generalizing taken with
  | done =>
    rw [List.append_nil]
    exact Relation.ReflTransGen.refl
  | @take id stack out _ ih =>
    have hround : Tour.advance? doc ⟨(id :: stack).reverse, taken⟩ =
        some ⟨(doc.children id ++ stack).reverse, taken ++ [id]⟩ := by
      rw [List.reverse_cons, List.reverse_append, Tour.advance?_append]
    have hrest := ih (taken ++ [id])
    rw [← List.append_cons] at hrest
    exact Relation.ReflTransGen.head hround hrest

namespace WellFormed

variable (hwf : doc.WellFormed)
include hwf

theorem eval_advance? (id : Nat) :
    StateTransition.eval (Tour.advance? doc) ⟨[id], []⟩ = Part.some ⟨[], doc.descendants id⟩ := by
  rw [Part.eq_some_iff, StateTransition.mem_eval]
  exact ⟨(hwf.lists_descendants id).reaches [], rfl⟩

/-! ### The recursion -/

theorem preorder_eq (id : Nat) : hwf.preorder id = id :: (doc.children id).flatMap hwf.preorder := by
  rw [preorder, List.flatMap_subtype (fun _ _ => rfl), List.unattach_attach]

theorem descendants_eq_preorder (id : Nat) : doc.descendants id = hwf.preorder id := by
  induction id using hwf.children_induction with
  | step id ih => rw [hwf.descendants_eq, hwf.preorder_eq, List.flatMap_congr ih]

/-! ### Attached nodes -/

theorem isAttached_iff_mem_descendants {x : Nat} : doc.isAttached x = true ↔ x ∈ doc.descendants root := by
  rw [hwf.isAttached_iff, hwf.mem_descendants]

theorem size_eq_countP : doc.size = (List.range doc.next).countP doc.isAttached := by
  -- two lists without repetitions that have the same members
  have hperm : ((List.range doc.next).filter doc.isAttached).Perm (doc.descendants root) := by
    rw [List.perm_ext_iff_of_nodup (List.nodup_range.filter _) (hwf.nodup_descendants root)]
    intro x
    rw [List.mem_filter, List.mem_range, hwf.isAttached_iff_mem_descendants]
    refine ⟨And.right, fun hmem => ⟨?_, hmem⟩⟩
    exact (hwf.mem_descendants.1 hmem).lt_next hwf.root_lt_next
  rw [List.countP_eq_length_filter, hperm.length_eq, size]

end WellFormed

/-- The ways down and up agree. From any node the loop ends, with the listing of the recursion, in which nothing is
repeated and which holds exactly the nodes whose climb comes by that node. Hence the attached nodes are those listed
for the root, and the size of a document is their number. -/
theorem reachable_both_ways (doc : Document) (hwf : doc.WellFormed) :
    (∀ id,
      StateTransition.eval (Tour.advance? doc) ⟨[id], []⟩ = Part.some ⟨[], doc.descendants id⟩ ∧
      doc.descendants id = hwf.preorder id ∧ (doc.descendants id).Nodup ∧
      ∀ x, x ∈ doc.descendants id ↔ doc.Spans id x) ∧
    (∀ x, doc.isAttached x = true ↔ x ∈ doc.descendants root) ∧
    doc.size = (List.range doc.next).countP doc.isAttached := by
  refine ⟨fun id => ⟨hwf.eval_advance? id, hwf.descendants_eq_preorder id, hwf.nodup_descendants id, ?_⟩, ?_, ?_⟩
  · exact fun x => hwf.mem_descendants
  · exact fun x => hwf.isAttached_iff_mem_descendants
  · exact hwf.size_eq_countP

/-- Two rules with something in them change places, and a third one is taken out of one of them. -/
def parted : Document :=
  [.append 0 (.rule "a"), .append 0 (.rule "b"), .append 1 (.declaration "p" "v"), .append 1 (.rule "c"),
    .append 4 (.comment "d"), .append 2 (.declaration "q" "w"), .detach 4, .detach 2,
    .insertAt 0 0 (some 2)].foldl perform (blank none)

/-- The two parts are listed apart, in an order that is neither that of the numbers nor level by level. -/
theorem reachable_parted :
    parted.WellFormed ∧ parted.descendants root = [0, 2, 6, 1, 3] ∧ parted.descendants 4 = [4, 5] ∧
      StateTransition.eval (Tour.advance? parted) ⟨[0], []⟩ = Part.some ⟨[], [0, 2, 6, 1, 3]⟩ ∧
      parted.Spans 2 6 ∧ ¬ parted.Spans root 5 ∧ parted.isAttached 6 = true ∧ parted.isAttached 5 = false ∧
      parted.size = 5 ∧ (List.range 7).countP parted.isAttached = 5 := by
  have hbuilt : Built parted := by
    rw [parted]
    simp only [List.foldl_cons, List.foldl_nil]
    refine Built.edit (Built.edit (Built.edit (Built.edit (Built.edit (Built.edit (Built.edit (Built.edit (Built.edit
      (Built.blank none) _ ?_) _ ?_) _ ?_) _ ?_) _ ?_) _ ?_) _ ?_) _ ?_) _ ?_
    all_goals decide +kernel
  have hroot : parted.descendants root = [0, 2, 6, 1, 3] := by decide +kernel
  have hmoved : parted.descendants 2 = [2, 6] := by decide +kernel
  have hnext : parted.next = 7 := by decide +kernel
  obtain ⟨hviews, hattached, hsize⟩ := reachable_both_ways parted hbuilt.wellFormed
  obtain ⟨hloop, -, -, hmem⟩ := hviews root
  have hcount : parted.size = 5 := by rw [size, hroot]; rfl
  rw [hroot] at hloop hmem
  refine ⟨hbuilt.wellFormed, hroot, by decide +kernel, hloop, ?_, ?_, ?_, ?_, hcount, ?_⟩
  · exact ((hviews 2).2.2.2 6).1 (by simp [hmoved])
  · simp [← hmem]
  · simp [hattached, hroot]
  · simp [← Bool.not_eq_true, hattached, hroot]
  · rw [← hnext, ← hsize, hcount]

end NestedStyles.Document
