import NestedStyles.Fragment.Css
import NestedStyles.Proofs.Document.Building

/-!
# Copies

A copy of a fragment consists of new nodes, numbered in pre-order from the next free number on, and leaves the nodes
that were there as they are (`Copied`). So the copy of a subtree has the content and the text of the subtree, and no
node in common with it (`copies_exact`).
-/

namespace NestedStyles.Document

/-- A document has got a detached copy of a fragment, under the next free numbers in pre-order, and is otherwise as it
was. The result comes with the number of the copy. -/
structure Copied (doc : Document) (f : Fragment) (result : Document × Nat) : Prop where
  wellFormed : result.1.WellFormed
  id_eq : result.2 = doc.next
  parent_eq : result.1.parent result.2 = none
  fragment_eq : result.1.fragment result.2 = f
  descendants_eq : result.1.descendants result.2 = List.range' doc.next f.size
  next_eq : result.1.next = doc.next + f.size
  node_eq : ∀ x < doc.next, result.1.node x = doc.node x

theorem WellFormed.copied_instantiate {doc : Document} (hwf : doc.WellFormed) (f : Fragment) :
    doc.Copied f (doc.instantiate f) where
  wellFormed := hwf.instantiate f
  id_eq := instantiate_id doc f
  parent_eq := by rw [instantiate_id, parent_instantiate]
  fragment_eq := by rw [instantiate_id, hwf.fragment_instantiate]
  descendants_eq := by rw [instantiate_id, (laid_instantiate doc f).descendants_eq (hwf.instantiate f)]
  next_eq := (instantiate_spec doc f).next_eq
  node_eq := (instantiate_spec doc f).node_eq

namespace Copied

variable {doc : Document} {f : Fragment} {result : Document × Nat} (h : doc.Copied f result)

include h

/-- The nodes of a copy are new. -/
theorem next_le {x : Nat} (hx : x ∈ result.1.descendants result.2) : doc.next ≤ x := by
  rw [h.descendants_eq, List.mem_range'_1] at hx
  exact hx.1

theorem fragment_of_lt (hwf : doc.WellFormed) {id : Nat} (hlt : id < doc.next) :
    result.1.fragment id = doc.fragment id := by
  apply hwf.fragment_congr h.wellFormed
  intro x hx
  have hnode := h.node_eq x (hx.lt_next hlt)
  exact ⟨congrArg Node.kind hnode, congrArg (fun node => node.slots.toList) hnode⟩

/-- A copy has no node in common with the subtree of a node that was there before. -/
theorem disjoint {id : Nat} (hlt : id < doc.next) :
    List.Disjoint (result.1.descendants result.2) (result.1.descendants id) := by
  intro x hcopy hold
  rw [h.wellFormed.mem_descendants] at hcopy hold
  rcases hcopy.total hold with habove | hbelow
  · have hle := h.next_le (h.wellFormed.mem_descendants.2 habove)
    omega
  · have heq := hbelow.eq_of_parent_none h.parent_eq
    have hid := h.id_eq
    omega

end Copied

/-- Instantiating a fragment gives an exact copy of it, and so does copying from the document itself, where the original
stays as it is and shares nothing with its copy, and from another one. A document made from a stylesheet holds that
stylesheet. -/
theorem copies_exact :
    (∀ doc : Document, doc.WellFormed →
      (∀ f, doc.Copied f (doc.instantiate f)) ∧
      (∀ id < doc.next, doc.Copied (doc.fragment id) (doc.copy id) ∧
        (doc.copy id).1.fragment id = doc.fragment id ∧
        ((doc.copy id).1.fragment (doc.copy id).2).css = (doc.fragment id).css ∧
        List.Disjoint ((doc.copy id).1.descendants (doc.copy id).2) ((doc.copy id).1.descendants id)) ∧
      ∀ other id, doc.Copied (other.fragment id) (doc.graft other id) ∧
        ((doc.graft other id).1.fragment (doc.graft other id).2).css = (other.fragment id).css ∧
        ∀ x ∈ (doc.graft other id).1.descendants (doc.graft other id).2, doc.next ≤ x) ∧
    ∀ directory children, ∃ doc, ofFragment ⟨.stylesheet directory, children⟩ = .ok doc ∧ doc.WellFormed ∧
      doc.fragment root = ⟨.stylesheet directory, children⟩ := by
  constructor
  · intro doc hwf
    refine ⟨hwf.copied_instantiate, ?_, ?_⟩
    · intro id hlt
      have hcopy : doc.Copied (doc.fragment id) (doc.copy id) := hwf.copied_instantiate _
      exact ⟨hcopy, hcopy.fragment_of_lt hwf hlt, by rw [hcopy.fragment_eq], hcopy.disjoint hlt⟩
    · intro other id
      have hcopy : doc.Copied (other.fragment id) (doc.graft other id) := hwf.copied_instantiate _
      exact ⟨hcopy, by rw [hcopy.fragment_eq], fun x hx => hcopy.next_le hx⟩
  · intro directory children
    obtain ⟨doc, hdoc⟩ : ∃ doc, ofFragment ⟨.stylesheet directory, children⟩ = .ok doc := ⟨_, rfl⟩
    exact ⟨doc, hdoc, ofFragment_spec hdoc⟩

/-- A rule with a declaration and another rule in it, taken out of the tree. -/
def quarry : Document :=
  [.append 0 (.rule "a"), .append 1 (.rule "b"), .append 1 (.declaration "p" "v"), .append 2 (.comment "c"),
    .detach 1].foldl perform (blank none)

/-- The rule is copied in its document and into an empty one. Its nodes were not made in pre-order, those of the copies
are. -/
theorem copies_quarry :
    quarry.descendants 1 = [1, 2, 4, 3] ∧
      (quarry.copy 1).2 = 5 ∧ (quarry.copy 1).1.descendants 5 = [5, 6, 7, 8] ∧
      (quarry.copy 1).1.fragment 5 = quarry.fragment 1 ∧
      List.Disjoint ((quarry.copy 1).1.descendants 5) ((quarry.copy 1).1.descendants 1) ∧
      ((blank none).graft quarry 1).1.descendants 1 = [1, 2, 3, 4] ∧
      (((blank none).graft quarry 1).1.fragment 1).css = (quarry.fragment 1).css := by
  have hbuilt : Built quarry := by
    rw [quarry]
    simp only [List.foldl_cons, List.foldl_nil]
    refine Built.edit (Built.edit (Built.edit (Built.edit (Built.edit (Built.blank none) _ ?_) _ ?_) _ ?_) _ ?_) _ ?_
    all_goals decide +kernel
  have hnext : quarry.next = 5 := by decide +kernel
  have hsize : (quarry.fragment 1).size = 4 := by decide +kernel
  obtain ⟨hcopy, -, -, hdisjoint⟩ := (copies_exact.1 quarry hbuilt.wellFormed).2.1 1 (by decide +kernel)
  obtain ⟨hgraft, hcss, -⟩ := (copies_exact.1 (blank none) (Built.blank none).wellFormed).2.2 quarry 1
  have hid : (quarry.copy 1).2 = 5 := by rw [hcopy.id_eq, hnext]
  have hid' : ((blank none).graft quarry 1).2 = 1 := hgraft.id_eq
  have hcopied := hcopy.descendants_eq
  have hcontent := hcopy.fragment_eq
  have hgrafted := hgraft.descendants_eq
  rw [hid] at hcopied hcontent hdisjoint
  rw [hid'] at hgrafted hcss
  rw [hsize] at hcopied hgrafted
  rw [hnext] at hcopied
  exact ⟨by decide +kernel, hid, hcopied, hcontent, hdisjoint, hgrafted, hcss⟩

end NestedStyles.Document
