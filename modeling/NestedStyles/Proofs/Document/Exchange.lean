import NestedStyles.Proofs.Document.Frame
import NestedStyles.Proofs.Document.Order

/-!
# Nodes exchanged for others

An expansion takes nodes out of a document and puts new ones in their places. `Exchanged` says what has become of every
node that was there: those that were exchanged have no parent any more, and in the lists of children new nodes stand in
for them. Exchanges can be done one after the other (`Exchanged.append`), and the document order afterwards is the one
before, without what was inside of an exchanged node and with what is below the new nodes
(`Exchanged.descendants_eq`).
-/

namespace NestedStyles.Document

/-- What stands in the place of a node, if those of `gone` have been exchanged. -/
def standIns (gone : List Nat) (copies : Nat → List Nat) (x : Nat) : List Nat := if x ∈ gone then copies x else [x]

/-- The new nodes `copies x` have come in the place of each node `x` of `gone`. Nothing else has become of the nodes of
the document before. -/
structure Exchanged (doc doc' : Document) (gone : List Nat) (copies : Nat → List Nat) : Prop where
  wf : doc'.WellFormed
  next_le : doc.next ≤ doc'.next
  fresh : ∀ x ∈ gone, ∀ c ∈ copies x, doc.next ≤ c ∧ c < doc'.next
  kind_eq : ∀ x < doc.next, doc'.kind x = doc.kind x
  parent_eq : ∀ x < doc.next, doc'.parent x = if x ∈ gone then none else doc.parent x
  children_eq : ∀ x < doc.next, doc'.children x = (doc.children x).flatMap (standIns gone copies)

variable {doc doc₁ doc₂ : Document} {gone gone₁ gone₂ : List Nat} {copies copies₁ copies₂ : Nat → List Nat} {x y : Nat}

theorem standIns_of_mem (h : x ∈ gone) : standIns gone copies x = copies x := if_pos h

theorem standIns_of_not_mem (h : x ∉ gone) : standIns gone copies x = [x] := if_neg h

/-- Where no node of a list has been exchanged, the list is as before. -/
theorem flatMap_standIns_of_not_mem {l : List Nat} (h : ∀ c ∈ l, c ∉ gone) :
    l.flatMap (standIns gone copies) = l := by
  rw [List.flatMap_congr fun c hc => standIns_of_not_mem (h c hc)]
  simp

/-- Where one node of a list has been exchanged, it is the only one. -/
theorem flatMap_standIns_singleton {node : Nat} {l₁ l₂ : List Nat} (h₁ : node ∉ l₁) (h₂ : node ∉ l₂) :
    (l₁ ++ node :: l₂).flatMap (standIns [node] copies) = l₁ ++ copies node ++ l₂ := by
  have hne {l : List Nat} (hl : node ∉ l) : ∀ c ∈ l, c ∉ [node] := by
    intro c hc hmem
    exact hl (List.mem_singleton.1 hmem ▸ hc)
  rw [List.flatMap_append, List.flatMap_cons, flatMap_standIns_of_not_mem (hne h₁),
    flatMap_standIns_of_not_mem (hne h₂), standIns_of_mem List.mem_cons_self, List.append_assoc]

namespace Exchanged

theorem refl (hwf : doc.WellFormed) (copies : Nat → List Nat) : Exchanged doc doc [] copies where
  wf := hwf
  next_le := Nat.le_refl _
  fresh _ hx := by simp at hx
  kind_eq _ _ := rfl
  parent_eq _ _ := by simp
  children_eq _ _ := (flatMap_standIns_of_not_mem (by simp)).symm

variable (h : Exchanged doc doc₁ gone copies) (hwf : doc.WellFormed)

include h

/-- A node none of whose children has been exchanged keeps them all. -/
theorem children_eq_of_not_mem (hlt : x < doc.next) (hx : ∀ c ∈ doc.children x, c ∉ gone) :
    doc₁.children x = doc.children x := by
  rw [h.children_eq x hlt, flatMap_standIns_of_not_mem hx]

include hwf

/-- A new node is above new nodes only. -/
theorem le_of_spans (hx : doc.next ≤ x) (hspan : doc₁.Spans x y) : doc.next ≤ y := by
  refine Spans.climb (motive := fun y => doc.next ≤ y) hx ?_ hspan
  intro y parent hp _ hle
  by_contra hlt
  rw [h.parent_eq y (by omega)] at hp
  split at hp
  · simp at hp
  · have := hwf.parent_lt_next hp
    omega

/-- A subtree in which nothing has been exchanged keeps its content. -/
theorem fragment_eq (hlt : x < doc.next) (hx : ∀ y ∈ gone, ¬ doc.Spans x y) :
    doc₁.fragment x = doc.fragment x := by
  apply hwf.fragment_congr h.wf
  intro y hy
  have hylt := hy.lt_next hlt
  refine ⟨h.kind_eq y hylt, h.children_eq_of_not_mem hylt fun c hc hmem => ?_⟩
  exact hx c hmem (hy.down (hwf.mem_children_iff.1 hc))

omit h in
/-- The exchange of one child of a node. -/
theorem children_eq_append {parent node : Nat} {pre post : List Nat} (h : Exchanged doc doc₁ [node] copies)
    (hlist : doc.children parent = pre ++ node :: post) : doc₁.children parent = pre ++ copies node ++ post := by
  obtain ⟨hpre, hpost⟩ := hwf.not_mem_of_children_eq hlist
  rw [h.children_eq parent (lt_next_of_mem_children (show node ∈ _ by simp [hlist])), hlist,
    flatMap_standIns_singleton hpre hpost]

omit h in
theorem frame {parent node : Nat} (h : Exchanged doc doc₁ [node] copies) (hp : doc.parent node = some parent) :
    Frame doc doc₁ [node] (some parent) where
  next_le := h.next_le
  kind_eq hx := h.kind_eq _ hx.1
  parent_eq {x} hx := by
    rw [h.parent_eq x hx.1, if_neg]
    intro hmem
    exact not_outside_of_mem hmem hx
  children_eq {x} hx hne := by
    apply h.children_eq_of_not_mem hx.1
    intro c hc hmem
    rw [List.mem_singleton.1 hmem] at hc
    exact hne (hp.symm.trans (hwf.mem_children_iff.1 hc))

omit h hwf in
/-- The nodes of a second exchange are to be among those that were there before the first one. -/
theorem append (h₁ : Exchanged doc doc₁ gone₁ copies₁) (h₂ : Exchanged doc₁ doc₂ gone₂ copies₂)
    (hold : ∀ x ∈ gone₂, x < doc.next) :
    Exchanged doc doc₂ (gone₁ ++ gone₂) (fun x => if x ∈ gone₁ then copies₁ x else copies₂ x) where
  wf := h₂.wf
  next_le := Nat.le_trans h₁.next_le h₂.next_le
  fresh x hx c hc := by
    split at hc
    · next hmem =>
      obtain ⟨hle, hlt⟩ := h₁.fresh x hmem c hc
      exact ⟨hle, Nat.lt_of_lt_of_le hlt h₂.next_le⟩
    · next hnot =>
      obtain ⟨hle, hlt⟩ := h₂.fresh x ((List.mem_append.1 hx).resolve_left hnot) c hc
      exact ⟨Nat.le_trans h₁.next_le hle, hlt⟩
  kind_eq x hx := by rw [h₂.kind_eq x (Nat.lt_of_lt_of_le hx h₁.next_le), h₁.kind_eq x hx]
  parent_eq x hx := by
    rw [h₂.parent_eq x (Nat.lt_of_lt_of_le hx h₁.next_le), h₁.parent_eq x hx]
    by_cases hx₁ : x ∈ gone₁ <;> by_cases hx₂ : x ∈ gone₂ <;> simp [hx₁, hx₂]
  children_eq x hx := by
    rw [h₂.children_eq x (Nat.lt_of_lt_of_le hx h₁.next_le), h₁.children_eq x hx, List.flatMap_assoc]
    apply List.flatMap_congr
    intro c _
    by_cases hc : c ∈ gone₁
    · -- what has come with the first exchange is not touched by the second one
      have hkept : ∀ d ∈ copies₁ c, d ∉ gone₂ := by
        intro d hd hmem
        have hle := (h₁.fresh c hc d hd).1
        have hlt := hold d hmem
        omega
      rw [standIns_of_mem hc, flatMap_standIns_of_not_mem hkept, standIns_of_mem (List.mem_append_left _ hc), if_pos hc]
    · rw [standIns_of_not_mem hc]
      simp [standIns, hc]

/-- The document order at and below a node that is still there. -/
theorem descendants_eq (hlt : x < doc.next) (hfree : doc.isFree (· ∈ gone) x = true) (hx : x ∉ gone) :
    doc₁.descendants x = ((doc.descendants x).filter (doc.isFree (· ∈ gone))).flatMap fun y =>
      if y ∈ gone then (copies y).flatMap doc₁.descendants else [y] := by
  induction x using hwf.children_induction with
  | step x ih =>
    rw [h.wf.descendants_eq, h.children_eq x hlt, hwf.filter_isFree_eq hfree, List.flatMap_cons, if_neg hx,
      List.singleton_append, List.flatMap_assoc, List.flatMap_assoc, List.cons.injEq]
    refine ⟨rfl, List.flatMap_congr fun c hc => ?_⟩
    have hchild := hwf.isFree_child hfree (by simpa using hx) hc
    by_cases hmem : c ∈ gone
    · rw [standIns_of_mem hmem, hwf.filter_isFree_of hchild (by simpa using hmem)]
      simp [hmem]
    · rw [standIns_of_not_mem hmem, ← ih c hc (hwf.child_lt_next hc) hchild hmem]
      simp

end Exchanged

end NestedStyles.Document
