import NestedStyles.Proofs.Pass.Splicing

/-!
# Taking nodes out

Collecting, flattening and pruning unlink nodes and link none on the way. So every list of children loses members and
keeps its order (`Trimmed`). What is below a node afterwards was below it before, which is why a property of all nodes
below another one that a pass has established survives the rest of the pass. Where nothing is done but to unlink certain
nodes, `Unlinked` says what becomes of every node.
-/

namespace NestedStyles.Document

/-- The document with some nodes taken out of the lists of children. -/
structure Trimmed (doc doc' : Document) : Prop where
  wf : doc'.WellFormed
  next_eq : doc'.next = doc.next
  sublist : ∀ x, (doc'.children x).Sublist (doc.children x)

variable {doc doc₁ doc₂ : Document}

theorem kind_detach (doc : Document) (node x : Nat) : (doc.detach node).1.kind x = doc.kind x := by
  unfold Document.detach
  split
  · rfl
  · exact kind_removeChild ..

namespace Trimmed

private theorem sizeAll_map_le {f g : Nat → Fragment} {l₁ l₂ : List Nat} (hsub : l₁.Sublist l₂)
    (hle : ∀ x ∈ l₂, (f x).size ≤ (g x).size) : Fragment.sizeAll (l₁.map f) ≤ Fragment.sizeAll (l₂.map g) := by
  induction hsub with
  | slnil => exact Nat.le_refl _
  | cons x _ ih =>
    have hrest := ih fun y hy => hle y (.tail x hy)
    rw [List.map_cons, Fragment.sizeAll_cons]
    omega
  | cons_cons x _ ih =>
    have hfirst := hle x List.mem_cons_self
    have hrest := ih fun y hy => hle y (.tail x hy)
    rw [List.map_cons, List.map_cons, Fragment.sizeAll_cons, Fragment.sizeAll_cons]
    omega

variable (h : Trimmed doc doc₁) (hwf : doc.WellFormed)

include h

theorem mem_children {parent node : Nat} (hmem : node ∈ doc₁.children parent) : node ∈ doc.children parent :=
  (h.sublist parent).subset hmem

include hwf

theorem parent_eq {node parent : Nat} (hp : doc₁.parent node = some parent) : doc.parent node = some parent :=
  hwf.mem_children_iff.1 (h.mem_children (h.wf.mem_children_iff.2 hp))

/-- What is below a node was below it before. -/
theorem spans {top node : Nat} (hspan : doc₁.Spans top node) : doc.Spans top node := by
  refine Spans.climb (motive := fun node => doc.Spans top node) (Spans.refl doc top) ?_ hspan
  intro node parent hp _ ih
  exact ih.down (h.parent_eq hwf hp)

theorem size_fragment_le (id : Nat) : (doc₁.fragment id).size ≤ (doc.fragment id).size := by
  induction id using hwf.children_induction with
  | step id ih =>
    rw [Fragment.size_eq, Fragment.size_eq, hwf.children_fragment, h.wf.children_fragment]
    have hbelow := sizeAll_map_le (h.sublist id) ih
    omega

end Trimmed

/-- The nodes of `gone` are without a parent and out of the lists of children. Nothing else differs. -/
structure Unlinked (doc doc' : Document) (gone : List Nat) : Prop where
  wf : doc'.WellFormed
  next_eq : doc'.next = doc.next
  kind_eq : ∀ x, doc'.kind x = doc.kind x
  parent_eq : ∀ x, doc'.parent x = if x ∈ gone then none else doc.parent x
  children_eq : ∀ x, doc'.children x = (doc.children x).filter (· ∉ gone)

theorem WellFormed.unlinked_nil (hwf : doc.WellFormed) : Unlinked doc doc [] where
  wf := hwf
  next_eq := rfl
  kind_eq _ := rfl
  parent_eq _ := by simp
  children_eq _ := by simp

theorem WellFormed.unlinked_removeChild (hwf : doc.WellFormed) {parent node : Nat}
    (hp : doc.parent node = some parent) : Unlinked doc (doc.removeChild parent node).1 [node] where
  wf := hwf.removeChild parent node
  next_eq := next_removeChild ..
  kind_eq := kind_removeChild doc parent node
  parent_eq x := by
    rw [parent_removeChild (hwf.mem_children_iff.2 hp)]
    by_cases hx : x = node
    · rw [if_pos ⟨hx.symm, hx ▸ lt_next_of_parent hp⟩, if_pos (by simp [hx])]
    · rw [if_neg fun h => hx h.1.symm, if_neg (by simp [hx])]
  children_eq x := by
    rw [children_removeChild]
    by_cases hx : parent = x
    · subst hx
      rw [if_pos rfl, (hwf.nodup_children parent).erase_eq_filter]
      apply List.filter_congr
      intro c _
      rw [Bool.eq_iff_iff]
      simp
    · have hnot : node ∉ doc.children x := by
        intro hmem
        exact hx (Option.some.inj (hp.symm.trans (hwf.mem_children_iff.1 hmem)))
      rw [if_neg hx, List.filter_eq_self.2]
      intro c hc
      have hne : c ≠ node := by
        rintro rfl
        exact hnot hc
      simp [hne]

theorem WellFormed.unlinked_detach (hwf : doc.WellFormed) (node : Nat) : Unlinked doc (doc.detach node).1 [node] := by
  unfold Document.detach
  split
  · next hp =>
    refine ⟨hwf, rfl, fun _ => rfl, fun x => ?_, fun x => ?_⟩
    · split
      · next hx => rw [List.mem_singleton.1 hx, hp]
      · rfl
    · rw [List.filter_eq_self.2]
      intro c hc
      have hne : c ≠ node := by
        rintro rfl
        simp [hwf.mem_children_iff.1 hc] at hp
      simp [hne]
  · next parent hp => exact hwf.unlinked_removeChild hp

namespace Unlinked

variable {gone gone' : List Nat} (h : Unlinked doc doc₁ gone)

include h

theorem append (h' : Unlinked doc₁ doc₂ gone') : Unlinked doc doc₂ (gone ++ gone') where
  wf := h'.wf
  next_eq := h'.next_eq.trans h.next_eq
  kind_eq x := (h'.kind_eq x).trans (h.kind_eq x)
  parent_eq x := by
    rw [h'.parent_eq, h.parent_eq]
    by_cases hx : x ∈ gone <;> by_cases hx' : x ∈ gone' <;> simp [hx, hx']
  children_eq x := by
    rw [h'.children_eq, h.children_eq, List.filter_filter]
    apply List.filter_congr
    intro c _
    simp [Bool.and_comm]

/-- Only which nodes are unlinked matters. -/
theorem congr (hmem : ∀ x, x ∈ gone ↔ x ∈ gone') : Unlinked doc doc₁ gone' where
  wf := h.wf
  next_eq := h.next_eq
  kind_eq := h.kind_eq
  parent_eq x := by
    rw [h.parent_eq]
    simp only [hmem]
  children_eq x := by
    rw [h.children_eq]
    simp only [hmem]

theorem trimmed : Trimmed doc doc₁ where
  wf := h.wf
  next_eq := h.next_eq
  sublist x := by
    rw [h.children_eq]
    exact List.filter_sublist

theorem mem_children_iff {x c : Nat} : c ∈ doc₁.children x ↔ c ∈ doc.children x ∧ c ∉ gone := by
  rw [h.children_eq, List.mem_filter, decide_eq_true_iff]

/-- A node none of whose children is unlinked keeps them all. -/
theorem children_eq_of_not_mem {x : Nat} (hx : ∀ c ∈ doc.children x, c ∉ gone) :
    doc₁.children x = doc.children x := by
  rw [h.children_eq, List.filter_eq_self]
  simpa using hx

/-- A node stays below another one if nothing is unlinked on the way. -/
theorem spans {top node : Nat} (hspan : doc.Spans top node)
    (hway : ∀ x, doc.Spans top x → doc.Spans x node → x ≠ top → x ∉ gone) : doc₁.Spans top node := by
  refine Spans.climb (motive := fun node => (∀ x, doc.Spans top x → doc.Spans x node → x ≠ top → x ∉ gone) →
    doc₁.Spans top node) ?_ ?_ hspan hway
  · exact fun _ => Spans.refl doc₁ top
  · intro node parent hp hparent ih hway
    have habove := ih fun x htop hx hne => hway x htop (hx.down hp) hne
    by_cases hne : node = top
    · rw [hne]
    · apply habove.down
      rw [h.parent_eq, if_neg (hway node (hparent.down hp) (Spans.refl doc node) hne), hp]

end Unlinked

end NestedStyles.Document
