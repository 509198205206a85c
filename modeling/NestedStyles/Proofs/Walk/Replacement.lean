import NestedStyles.Proofs.Pass.Splicing

/-!
# Replacing a node

A visit that does not keep its node puts other nodes, the body, into the child list it is in, and takes the node out.
The body consists of new nodes, or of nodes that were below the node and whose former parents were emptied.
`Replacement` describes both. Outside of the node's subtree only the child list of its parent differs
(`Replacement.frame`).
-/

namespace NestedStyles.Document

/-- New nodes were added, and some nodes have lost all their children. -/
structure Prepared (doc doc' : Document) (emptied : List Nat) : Prop where
  wf : doc'.WellFormed
  next_le : doc.next ≤ doc'.next
  kind_eq : ∀ {x}, x < doc.next → doc'.kind x = doc.kind x
  children_eq : ∀ {x}, x < doc.next → doc'.children x = if x ∈ emptied then [] else doc.children x
  children_new : ∀ {x c}, doc.next ≤ x → c ∈ doc'.children x → doc.next ≤ c

/-- `body` has been put behind `start` in the child list of `parent`, and `node` has been taken out of it. -/
structure Replacement (doc doc' : Document) (parent node start : Nat) (before after body emptied : List Nat) :
    Prop where
  wf : doc'.WellFormed
  next_le : doc.next ≤ doc'.next
  parent_node : doc.parent node = some parent
  split : doc.children parent = before ++ start :: after
  nodup : (before ++ start :: (body ++ after)).Nodup
  children_parent : doc'.children parent = (before ++ start :: (body ++ after)).erase node
  kind_eq : ∀ {x}, x < doc.next → doc'.kind x = doc.kind x
  children_eq : ∀ {x}, x < doc.next → x ≠ parent → doc'.children x = if x ∈ emptied then [] else doc.children x
  children_new : ∀ {x c}, doc.next ≤ x → c ∈ doc'.children x → doc.next ≤ c
  body_inside : ∀ {b}, b ∈ body → ¬ doc.Outside [node] b
  emptied_inside : ∀ {x}, x ∈ emptied → doc.Spans node x

variable {doc doc₁ doc₂ doc' : Document} {parent node start : Nat} {before after body emptied : List Nat}

theorem Prepared.refl (hwf : doc.WellFormed) : Prepared doc doc [] where
  wf := hwf
  next_le := Nat.le_refl _
  kind_eq _ := rfl
  children_eq _ := by simp
  children_new hx hc := by simp [children_of_le hx] at hc

theorem Prepared.of_copied {copies : List Nat} {contents : List Fragment}
    (h : Pass.Copied doc doc₁ copies contents) (hwf : doc.WellFormed) : Prepared doc doc₁ [] := by
  obtain ⟨size, hsize⟩ := h.instantiated
  refine ⟨h.wf, by rw [hsize.next_eq]; omega, hsize.kind_eq, ?_, ?_⟩
  · intro x hx
    rw [hsize.children_eq hx]
    simp
  · intro x c hx hc
    by_contra hlt
    have hp := h.wf.mem_children_iff.1 hc
    rw [hsize.parent_eq (by omega)] at hp
    have := hwf.parent_lt_next hp
    omega

/-- One more node loses its children. -/
theorem Prepared.empty {x : Nat} (h : Prepared doc doc₁ emptied) (hx : Relisted doc₁ doc₂ x []) :
    Prepared doc doc₂ (x :: emptied) where
  wf := hx.wf
  next_le := by rw [hx.next_eq]; exact h.next_le
  kind_eq hy := by rw [hx.kind_eq, h.kind_eq hy]
  children_eq := by
    intro y hy
    rw [hx.children_eq, h.children_eq hy]
    by_cases hyx : y = x
    · simp [hyx]
    · simp [hyx]
  children_new := by
    intro y c hy hc
    rw [hx.children_eq] at hc
    split at hc
    · simp at hc
    · exact h.children_new hy hc

/-- Preparing makes no new links between the nodes that were there. -/
theorem Prepared.parent_of_parent (h : Prepared doc doc₁ emptied) (hwf : doc.WellFormed) {x p : Nat}
    (hx : x < doc.next) (hp : doc₁.parent x = some p) : doc.parent x = some p ∧ p ∉ emptied := by
  have hmem := h.wf.mem_children_iff.2 hp
  by_cases hlt : p < doc.next
  · rw [h.children_eq hlt] at hmem
    split at hmem
    · simp at hmem
    · next hnot => exact ⟨hwf.mem_children_iff.1 hmem, hnot⟩
  · have := h.children_new (by omega) hmem
    omega

theorem Prepared.spans_of_spans (h : Prepared doc doc₁ emptied) (hwf : doc.WellFormed) {t x : Nat}
    (hx : x < doc.next) (hspan : doc₁.Spans t x) : doc.Spans t x := by
  refine Spans.climb (motive := fun x => x < doc.next → doc.Spans t x) ?_ ?_ hspan hx
  · exact fun _ => Spans.refl doc t
  · intro x p hp _ ih hx
    obtain ⟨hp', _⟩ := h.parent_of_parent hwf hx hp
    exact (ih (hwf.parent_lt_next hp')).down hp'

/-- What an emptied node has lost can go anywhere above it. -/
theorem Prepared.insertable (h : Prepared doc doc₁ emptied) (hwf : doc.WellFormed) {b : Nat} (hb : b ∈ emptied)
    (hspan : doc.Spans parent b) : doc₁.Insertable parent (doc.children b) where
  nodup := hwf.nodup_children b
  lt_next n hn := Nat.lt_of_lt_of_le (hwf.child_lt_next hn) h.next_le
  ne_root n hn := hwf.ne_root_of_parent (hwf.mem_children_iff.1 hn)
  detached := by
    intro n hn
    rcases hq : doc₁.parent n with _ | q
    · rfl
    · obtain ⟨hp, hnot⟩ := h.parent_of_parent hwf (hwf.child_lt_next hn) hq
      rw [hwf.mem_children_iff.1 hn, Option.some.injEq] at hp
      exact absurd (hp ▸ hb) hnot
  not_above := by
    intro n hn habove
    have hplt := hwf.lt_next_of_spans hspan (lt_next_of_mem_children hn)
    exact hwf.not_spans_parent (hwf.mem_children_iff.1 hn) ((h.spans_of_spans hwf hplt habove).trans hspan)

/-- A replacement is done by inserting the body once it is ready, and then taking the node out. -/
theorem Prepared.replacement (hwf : doc.WellFormed) (h : Prepared doc doc₁ emptied)
    (hparent : doc.parent node = some parent) (hsplit : doc₁.children parent = before ++ start :: after)
    (hdoc₂ : Relisted doc₁ doc₂ parent (before ++ start :: (body ++ after)))
    (hbody : ∀ {b}, b ∈ body → ¬ doc.Outside [node] b) (hemptied : ∀ {x}, x ∈ emptied → doc.Spans node x) :
    Replacement doc (doc₂.removeChild parent node).1 parent node start before after body emptied := by
  have hplt := hwf.parent_lt_next hparent
  have hnot : parent ∉ emptied := fun hmem => hwf.not_spans_parent hparent (hemptied hmem)
  have hlist : doc₂.children parent = before ++ start :: (body ++ after) := by
    rw [hdoc₂.children_eq, if_pos rfl]
  have hremoved := hdoc₂.wf.relisted_removeChild parent node
  rw [hlist] at hremoved
  have hother : ∀ {x}, x ≠ parent → (doc₂.removeChild parent node).1.children x = doc₁.children x := by
    intro x hx
    rw [hremoved.children_eq, if_neg hx, hdoc₂.children_eq, if_neg hx]
  refine ⟨hremoved.wf, ?_, hparent, ?_, ?_, ?_, ?_, ?_, ?_, hbody, hemptied⟩
  · rw [hremoved.next_eq, hdoc₂.next_eq]
    exact h.next_le
  · rw [← hsplit, h.children_eq hplt, if_neg hnot]
  · rw [← hlist]
    exact hdoc₂.wf.nodup_children parent
  · rw [hremoved.children_eq, if_pos rfl]
  · intro x hx
    rw [hremoved.kind_eq, hdoc₂.kind_eq, h.kind_eq hx]
  · intro x hx hne
    rw [hother hne, h.children_eq hx]
  · intro x c hx hc
    have hne : x ≠ parent := by
      rintro rfl
      omega
    rw [hother hne] at hc
    exact h.children_new hx hc

/-- Without a body nothing is inserted. -/
theorem Prepared.replacement_nil (hwf : doc.WellFormed) (h : Prepared doc doc₁ emptied)
    (hparent : doc.parent node = some parent) (hemptied : ∀ {x}, x ∈ emptied → doc.Spans node x) :
    ∃ before after,
      Replacement doc (doc₁.removeChild parent node).1 parent node node before after [] emptied := by
  have hnot : parent ∉ emptied := fun hmem => hwf.not_spans_parent hparent (hemptied hmem)
  have hmem : node ∈ doc₁.children parent := by
    rw [h.children_eq (hwf.parent_lt_next hparent), if_neg hnot]
    exact hwf.mem_children_iff.2 hparent
  obtain ⟨before, after, hsplit⟩ := List.append_of_mem hmem
  exact ⟨before, after, h.replacement hwf hparent hsplit (h.wf.relisted_self hsplit) (by simp) hemptied⟩

/-- Detaching a node replaces it by nothing. -/
theorem WellFormed.replacement_detach (hwf : doc.WellFormed) (hparent : doc.parent node = some parent) :
    ∃ before after, Replacement doc (doc.detach node).1 parent node node before after [] [] := by
  rw [Document.detach, hparent]
  exact (Prepared.refl hwf).replacement_nil hwf hparent (by simp)

namespace Replacement

variable (h : Replacement doc doc' parent node start before after body emptied)
include h

theorem mem_children_parent {x : Nat} (hx : doc.Outside [node] x) :
    x ∈ doc'.children parent ↔ x ∈ doc.children parent := by
  have hne : x ≠ node := by
    rintro rfl
    exact not_outside_of_mem (List.mem_singleton_self x) hx
  have hbody : x ∉ body := fun hmem => h.body_inside hmem hx
  rw [h.children_parent, h.nodup.mem_erase_iff, h.split]
  simp [hne, hbody]

theorem frame (hwf : doc.WellFormed) : Frame doc doc' [node] (some parent) where
  next_le := h.next_le
  kind_eq hx := h.kind_eq hx.1
  parent_eq := by
    intro x hx
    apply hwf.parent_congr h.wf
    intro p
    by_cases hp : p = parent
    · rw [hp]
      exact h.mem_children_parent hx
    · by_cases hlt : p < doc.next
      · rw [h.children_eq hlt hp]
        split
        · next hmem =>
          -- a child of an emptied node is below the replaced one
          simp only [List.not_mem_nil, false_iff]
          intro hxp
          have hspan := (h.emptied_inside hmem).down (hwf.mem_children_iff.1 hxp)
          exact not_outside_of_spans (List.mem_singleton_self node) hspan hx
        · rfl
      · have hnone : doc.children p = [] := children_of_le (by omega)
        rw [hnone]
        simp only [List.not_mem_nil, iff_false]
        intro hxp
        have := h.children_new (by omega) hxp
        have := hx.1
        omega
  children_eq := by
    intro x hx hne
    rw [h.children_eq hx.1 (fun hp => hne (congrArg some hp.symm)), if_neg]
    intro hmem
    exact not_outside_of_spans (List.mem_singleton_self node) (h.emptied_inside hmem) hx

/-- The content of nodes that are not above the place of the replacement and were not emptied stays the same. -/
theorem fragment_eq (hwf : doc.WellFormed) {id : Nat} (hid : id < doc.next)
    (hspan : ∀ x, doc.Spans id x → x ≠ parent ∧ x ∉ emptied) : doc'.fragment id = doc.fragment id := by
  apply hwf.fragment_congr h.wf
  intro x hx
  have hlt := hx.lt_next hid
  obtain ⟨hne, hnot⟩ := hspan x hx
  exact ⟨h.kind_eq hlt, by rw [h.children_eq hlt hne, if_neg hnot]⟩

/-- The node that was replaced has no parent any more. -/
theorem parent_node_none (hwf : doc.WellFormed) : doc'.parent node = none := by
  rcases hp : doc'.parent node with _ | p
  · rfl
  · have hmem := h.wf.mem_children_iff.2 hp
    have hlt := lt_next_of_parent h.parent_node
    by_cases hpp : p = parent
    · rw [hpp, h.children_parent, h.nodup.mem_erase_iff] at hmem
      exact absurd rfl hmem.1
    · by_cases hplt : p < doc.next
      · rw [h.children_eq hplt hpp] at hmem
        split at hmem
        · simp at hmem
        · rw [hwf.mem_children_iff, h.parent_node, Option.some.injEq] at hmem
          exact absurd hmem.symm hpp
      · have := h.children_new (by omega) hmem
        omega

end Replacement

/-- Where the body stands when the nodes in front of the replaced one are left alone. -/
theorem Replacement.children_split {pre post : List Nat}
    (h : Replacement doc doc' parent node start before after body emptied)
    (hlist : doc.children parent = pre ++ node :: post) (hwf : doc.WellFormed) (hstart : start ∉ pre) :
    ∃ m₁ m₂, post = m₁ ++ m₂ ∧ doc'.children parent = pre ++ (m₁ ++ body ++ m₂) ∧ (start = node → m₁ = []) := by
  obtain ⟨hnode, hnot⟩ := hwf.not_mem_of_children_eq hlist
  have hsplit : before ++ start :: after = pre ++ node :: post := by rw [← h.split, hlist]
  rw [h.children_parent]
  rcases List.append_eq_append_iff.1 hsplit with ⟨mid, hpre, hrest⟩ | ⟨mid, hbefore, hrest⟩
  · -- the start cannot be in front of the node, so it is the node
    cases mid with
    | nil =>
      rw [List.append_nil] at hpre
      simp only [List.nil_append, List.cons.injEq] at hrest
      obtain ⟨rfl, rfl⟩ := hrest
      refine ⟨[], after, rfl, ?_, fun _ => rfl⟩
      rw [← hpre, List.erase_append_right _ (hpre ▸ hnode), List.erase_cons_head]
      rfl
    | cons y mid =>
      simp only [List.cons_append, List.cons.injEq] at hrest
      rw [hpre, hrest.1] at hstart
      simp at hstart
  · cases mid with
    | nil =>
      simp only [List.append_nil] at hbefore
      simp only [List.nil_append, List.cons.injEq] at hrest
      obtain ⟨rfl, rfl⟩ := hrest
      refine ⟨[], post, rfl, ?_, fun _ => rfl⟩
      rw [hbefore, List.erase_append_right _ hnode, List.erase_cons_head]
      rfl
    | cons y mid =>
      simp only [List.cons_append, List.cons.injEq] at hrest
      obtain ⟨rfl, hpost⟩ := hrest
      refine ⟨mid ++ [start], after, by simp [hpost], ?_, ?_⟩
      · rw [hbefore, List.append_assoc, List.erase_append_right _ hnode, List.cons_append, List.erase_cons_head]
        simp
      · intro hne
        -- the node would stand in the list twice
        simp [hpost, hne] at hnot

end NestedStyles.Document
