import NestedStyles.Proofs.Document.Editing
import NestedStyles.Proofs.Document.Instantiation
import NestedStyles.Proofs.Document.Traversal

/-!
# Documents that can be built

A document starts out blank, from a fragment or from a text, and is then changed by one edit after the other (`Built`).
An edit may be refused, and nodes may be put below nodes that are detached themselves. Each edit keeps the links in
order (`WellFormed.perform`), so they are in order in whatever can be built, and every loop along them ends.
-/

namespace NestedStyles.Document

/-- What can be asked of a document. -/
inductive Edit where
  | create (kind : Kind)
  | append (parent : Nat) (kind : Kind)
  | insertAt (parent index : Nat) (node : Option Nat)
  | insertAfter (parent anchor node : Nat)
  | removeChild (parent node : Nat)
  | detach (node : Nat)
  | setKind (node : Nat) (kind : Kind)
  | setDirectory (directory : Option String)
  | instantiate (f : Fragment)
  | copy (node : Nat)

/-- The nodes that an edit names. -/
def Edit.nodes : Edit → List Nat
  | create _ | setDirectory _ | instantiate _ => []
  | append parent _ => [parent]
  | insertAt parent _ node => parent :: node.toList
  | insertAfter parent anchor node => [parent, anchor, node]
  | removeChild parent node => [parent, node]
  | detach node | setKind node _ | copy node => [node]

/-- What is there after an edit that may have been refused. -/
def orUnchanged (doc : Document) : Except EditError Document → Document
  | .ok doc' => doc'
  | .error _ => doc

/-- The document after an edit. -/
def perform (doc : Document) : Edit → Document
  | .create kind => (doc.create kind).1
  | .append parent kind => (doc.append parent kind).1
  | .insertAt parent index node => doc.orUnchanged (doc.insertAt parent index node)
  | .insertAfter parent anchor node => doc.orUnchanged (doc.insertAfter parent anchor node)
  | .removeChild parent node => (doc.removeChild parent node).1
  | .detach node => (doc.detach node).1
  | .setKind node kind => doc.setKind node kind
  | .setDirectory directory => doc.setDirectory directory
  | .instantiate f => (doc.instantiate f).1
  | .copy node => (doc.copy node).1

/-- The documents that come out of any sequence of edits of nodes that are there. -/
inductive Built : Document → Prop
  | blank (directory : Option String) : Built (Document.blank directory)
  | ofFragment {f : Fragment} {doc : Document} (h : Document.ofFragment f = .ok doc) : Built doc
  | read {text : String} {doc : Document} (h : Document.read text = .ok doc) : Built doc
  | edit {doc : Document} (h : Built doc) (edit : Edit) (hnodes : ∀ x ∈ edit.nodes, x < doc.next) :
      Built (doc.perform edit)
  | graft {doc other : Document} (h : Built doc) (hother : Built other) {node : Nat} (hlt : node < other.next) :
      Built (doc.graft other node).1

variable {doc : Document}

/-! ### Single edits -/

/-- A new node has no links, like the number that it has got. -/
@[simp]
theorem parent_create (doc : Document) (kind : Kind) (x : Nat) : (doc.create kind).1.parent x = doc.parent x := by
  rw [create, parent_push]
  split
  · next hx => rw [hx, parent_of_le (Nat.le_refl _)]
  · rfl

@[simp]
theorem children_create (doc : Document) (kind : Kind) (x : Nat) :
    (doc.create kind).1.children x = doc.children x := by
  rw [create, children_push]
  split
  · next hx => rw [hx, children_of_le (Nat.le_refl _)]
  · rfl

theorem parent_append {parent : Nat} (hlt : parent < doc.next) (kind : Kind) (x : Nat) :
    (doc.append parent kind).1.parent x = if x = doc.next then some parent else doc.parent x := by
  have hne : parent ≠ doc.next := Nat.ne_of_lt hlt
  simp only [append, Document.parent, node_modify, next_push, id_push, node_push]
  by_cases hx : x = doc.next
  · simp [hx, hne]
  · simp only [if_neg hx]
    split <;> rfl

theorem children_append {parent : Nat} (hlt : parent < doc.next) (kind : Kind) (x : Nat) :
    (doc.append parent kind).1.children x =
      if x = parent then doc.children parent ++ [doc.next] else doc.children x := by
  have hne : parent ≠ doc.next := Nat.ne_of_lt hlt
  have hpush := children_push doc { kind, parent := some parent }
  simp only [append, Document.children, node_modify, next_push, id_push] at hpush ⊢
  by_cases hx : x = parent
  · have hlt' : parent < doc.next + 1 := by omega
    simp [hx, hlt', hpush, hne]
  · rw [if_neg hx, if_neg (fun h => hx h.1.symm), hpush]
    split
    · next hnew => rw [hnew, node_of_le (Nat.le_refl _)]; rfl
    · rfl

namespace WellFormed

theorem blank (directory : Option String) : (Document.blank directory).WellFormed :=
  (ofFragment_spec (f := ⟨.stylesheet directory, []⟩) rfl).1

theorem create (hwf : doc.WellFormed) (kind : Kind) : (doc.create kind).1.WellFormed := by
  constructor
  · rw [Document.create, next_push]
    omega
  · rw [parent_create]
    exact hwf.parent_root
  · intro parent node
    rw [parent_create, children_create]
    exact hwf.mem_children_iff
  · intro parent
    rw [children_create]
    exact hwf.nodup_children parent
  · obtain ⟨rank, hrank⟩ := hwf.ranked
    refine ⟨rank, ?_⟩
    intro node parent h
    rw [parent_create] at h
    exact hrank h

/-- Appending a node links it as creating it and placing it at the end does. -/
theorem append (hwf : doc.WellFormed) {parent : Nat} (hlt : parent < doc.next) (kind : Kind) :
    (doc.append parent kind).1.WellFormed := by
  have hcreated := hwf.create kind
  have hnext : (doc.create kind).1.next = doc.next + 1 := next_push ..
  have hok : (doc.create kind).1.refusal? parent (doc.children parent).length doc.next = none := by
    refine hcreated.refusal?_eq_none_iff.2 ⟨?_, ?_, ?_, ?_⟩
    · have hroot := hwf.root_lt_next
      omega
    · rw [parent_create, parent_of_le (Nat.le_refl _)]
    · -- a node without children is above no other node
      intro hspan
      have hmem := hcreated.mem_descendants.2 hspan
      rw [hcreated.descendants_eq, children_create, children_of_le (Nat.le_refl _)] at hmem
      have heq := List.mem_singleton.1 hmem
      omega
    · exact Nat.le_of_eq (by rw [children_create])
  refine (hcreated.place (by omega) (by omega) hok).of_links_eq ?_ ?_ ?_
  · simp [Document.append, hnext]
  · intro x
    rw [parent_place_eq (by omega), parent_append hlt, parent_create]
  · intro x
    rw [children_place_eq (by omega), children_append hlt, children_create, children_create,
      List.insertIdx_length_self]

theorem insertAt (hwf : doc.WellFormed) {parent index : Nat} {node : Option Nat}
    (hlt : ∀ x ∈ parent :: node.toList, x < doc.next) :
    (doc.orUnchanged (doc.insertAt parent index node)).WellFormed := by
  cases node with
  | none => exact hwf
  | some node =>
    rw [Document.insertAt]
    cases hok : doc.refusal? parent index node with
    | some error => exact hwf
    | none => exact hwf.place (hlt node (by simp)) (hlt parent (by simp)) hok

theorem insertAfter (hwf : doc.WellFormed) {parent anchor node : Nat} (hlt : ∀ x ∈ [parent, node], x < doc.next) :
    (doc.orUnchanged (doc.insertAfter parent anchor node)).WellFormed := by
  rw [Document.insertAfter]
  cases doc.indexOf? parent anchor with
  | none => exact hwf
  | some index =>
    have hlt' : ∀ x ∈ parent :: (some node).toList, x < doc.next := hlt
    exact hwf.insertAt hlt'

/-! ### Any edits -/

/-- No edit of nodes that are there puts the links out of order. -/
theorem perform (hwf : doc.WellFormed) {edit : Edit} (hnodes : ∀ x ∈ edit.nodes, x < doc.next) :
    (doc.perform edit).WellFormed := by
  cases edit with
  | create kind => exact hwf.create kind
  | append parent kind => exact hwf.append (hnodes parent (by simp [Edit.nodes])) kind
  | insertAt parent index node => exact hwf.insertAt hnodes
  | insertAfter parent anchor node =>
    apply hwf.insertAfter
    intro x hx
    apply hnodes
    simp only [Edit.nodes, List.mem_cons, List.not_mem_nil, or_false] at hx ⊢
    tauto
  | removeChild parent node => exact hwf.removeChild parent node
  | detach node => exact hwf.detach node
  | setKind node kind => exact hwf.setKind node kind
  | setDirectory directory => exact hwf.setDirectory directory
  | instantiate f => exact hwf.instantiate f
  | copy node => exact hwf.instantiate _

end WellFormed

/-- The links are in order in everything that can be built. -/
theorem Built.wellFormed {doc : Document} (h : Built doc) : doc.WellFormed := by
  induction h with
  | blank directory => exact WellFormed.blank directory
  | ofFragment h => exact (ofFragment_spec h).1
  | read h =>
    rw [Document.read] at h
    split at h
    · simp at h
    · exact (ofFragment_spec h).1
  | edit _ edit hnodes ih => exact ih.perform hnodes
  | graft _ _ _ ih => exact ih.instantiate _

/-- In whatever can be built the links form a forest. The check passes, and the check, the climb that finds out whether
a node is in the tree or above another one, the listing of the descendants of a node and the reading of a fragment all
come to an end, with what the functions compute. -/
theorem links_of_built (doc : Document) (h : Built doc) :
    doc.WellFormed ∧ doc.verify = .ok () ∧ doc.Checks ∅ [root] (.ok ()) ∧
      (∀ node, doc.Climbs root node (doc.isAttached node)) ∧
      (∀ parent node, doc.Climbs node parent ((doc.lineage parent).contains node)) ∧
      (∀ node, doc.Lists [node] (doc.descendants node)) ∧ ∀ node, doc.Reads node (doc.fragment node) := by
  have hwf := h.wellFormed
  refine ⟨hwf, hwf.verify_eq, hwf.checks_root, ?_, ?_, hwf.lists_descendants, hwf.reads_fragment⟩
  · exact fun node => hwf.climbs root node
  · exact fun parent node => hwf.climbs node parent

/-- A node is taken out with what is below it. It cannot go below itself, and goes below another detached node. That one
can no longer go below either of them, and goes below the root. -/
def rearranged : Document :=
  [.append 0 (.rule "a"), .append 1 (.rule "b"), .detach 1, .insertAt 2 0 (some 1), .create (.rule "c"),
    .insertAt 3 0 (some 1), .insertAt 2 0 (some 3), .insertAt 0 0 (some 3)].foldl perform (blank none)

theorem links_of_rearranged :
    rearranged.WellFormed ∧ rearranged.verify = .ok () ∧ rearranged.descendants root = [0, 3, 1, 2] ∧
      rearranged.Lists [0] [0, 3, 1, 2] ∧ rearranged.Climbs 1 2 true := by
  have hbuilt : Built rearranged := by
    rw [rearranged]
    simp only [List.foldl_cons, List.foldl_nil]
    refine Built.edit (Built.edit (Built.edit (Built.edit (Built.edit (Built.edit (Built.edit (Built.edit
      (Built.blank none) _ ?_) _ ?_) _ ?_) _ ?_) _ ?_) _ ?_) _ ?_) _ ?_
    all_goals decide +kernel
  obtain ⟨hwf, hverify, -, -, hclimbs, hlists, -⟩ := links_of_built rearranged hbuilt
  have hdescendants : rearranged.descendants root = [0, 3, 1, 2] := by decide +kernel
  have hlineage : (rearranged.lineage 2).contains 1 = true := by decide +kernel
  exact ⟨hwf, hverify, hdescendants, hdescendants ▸ hlists root, hlineage ▸ hclimbs 2 1⟩

end NestedStyles.Document
