import Mathlib.Data.List.InsertIdx
import Mathlib.Data.List.Nodup
import NestedStyles.Proofs.Document.Ancestry

/-!
# Edits keep documents well-formed

Every edit of a well-formed document gives a well-formed document. An insertion is not refused exactly when the node is
detached, not the root, not above its new parent, and the position exists (`refusal?_eq_none_iff`). Since in a
well-formed document a child list says who its members' parent is, an edit is described by the child lists it changes.
-/

namespace NestedStyles.Document

variable {doc : Document}

namespace WellFormed

/-- A change that keeps all links keeps a document well-formed. -/
theorem of_links_eq {doc' : Document} (hwf : doc.WellFormed) (hnext : doc'.next = doc.next)
    (hparent : ∀ x, doc'.parent x = doc.parent x) (hchildren : ∀ x, doc'.children x = doc.children x) :
    doc'.WellFormed where
  next_pos := by rw [hnext]; exact hwf.next_pos
  parent_root := by rw [hparent]; exact hwf.parent_root
  mem_children_iff := by
    intro parent node
    rw [hparent, hchildren]
    exact hwf.mem_children_iff
  nodup_children parent := by rw [hchildren]; exact hwf.nodup_children parent
  ranked := by
    obtain ⟨rank, hrank⟩ := hwf.ranked
    refine ⟨rank, ?_⟩
    intro node parent h
    rw [hparent] at h
    exact hrank h

theorem setKind (hwf : doc.WellFormed) (id : Nat) (kind : Kind) : (doc.setKind id kind).WellFormed :=
  hwf.of_links_eq (next_setKind ..) (parent_setKind doc id kind) (children_setKind doc id kind)

theorem setDirectory (hwf : doc.WellFormed) (directory : Option String) :
    (doc.setDirectory directory).WellFormed := by
  unfold Document.setDirectory
  split
  · exact hwf.setKind _ _
  · exact hwf

theorem removeChild (hwf : doc.WellFormed) (parent node : Nat) : (doc.removeChild parent node).1.WellFormed := by
  by_cases hmem : node ∈ doc.children parent
  · have hparent : ∀ x, (doc.removeChild parent node).1.parent x = if node = x then none else doc.parent x := by
      intro x
      rw [parent_removeChild hmem]
      by_cases hx : node = x
      · rw [if_pos hx, if_pos ⟨hx, hx ▸ hwf.child_lt_next hmem⟩]
      · rw [if_neg hx, if_neg (fun h => hx h.1)]
    constructor
    · rw [next_removeChild]
      exact hwf.next_pos
    · rw [hparent, hwf.parent_root]
      split <;> rfl
    · intro p x
      rw [hparent, children_removeChild]
      by_cases hx : node = x
      · subst hx
        -- the removed node was listed under `parent` only, and there only once
        rw [if_pos rfl]
        simp only [reduceCtorEq, iff_false]
        split
        · next hp =>
          subst hp
          exact fun h => ((hwf.nodup_children parent).mem_erase_iff.1 h).1 rfl
        · next hp =>
          intro h
          have := (hwf.mem_children_iff.1 h).symm.trans (hwf.mem_children_iff.1 hmem)
          exact hp (Option.some.inj this).symm
      · rw [if_neg hx, ← hwf.mem_children_iff]
        split
        · rw [(hwf.nodup_children p).mem_erase_iff]
          exact ⟨fun h => h.2, fun h => ⟨Ne.symm hx, h⟩⟩
        · rfl
    · intro p
      rw [children_removeChild]
      split
      · exact (hwf.nodup_children p).erase _
      · exact hwf.nodup_children p
    · obtain ⟨rank, hrank⟩ := hwf.ranked
      refine ⟨rank, ?_⟩
      intro x p h
      rw [hparent] at h
      split at h
      · simp at h
      · exact hrank h
  · rw [removeChild_of_not_mem hmem]
    exact hwf

theorem detach (hwf : doc.WellFormed) (node : Nat) : (doc.detach node).1.WellFormed := by
  unfold Document.detach
  split
  · exact hwf
  · exact hwf.removeChild _ _

/-- What must hold for `node` to become a child of `parent` at `index`. -/
theorem refusal?_eq_none_iff (hwf : doc.WellFormed) {parent index node : Nat} :
    doc.refusal? parent index node = none ↔
      node ≠ root ∧ doc.parent node = none ∧ ¬ doc.Spans node parent ∧ index ≤ (doc.children parent).length := by
  unfold refusal?
  by_cases hroot : node = root
  · simp [hroot]
  · rw [if_neg hroot]
    cases hp : doc.parent node with
    | some current => simp
    | none =>
      by_cases hspan : doc.Spans node parent
      · simp [hwf.mem_lineage, hspan]
      · simp only [List.contains_iff_mem, hwf.mem_lineage, hspan, if_false, size_slots]
        by_cases hlt : (doc.children parent).length < index
        · simp [hlt]
        · simp [hlt, hroot]
          omega

theorem parent_place_eq {parent index node : Nat} (hlt : node < doc.next) (x : Nat) :
    (doc.place parent index node).parent x = if x = node then some parent else doc.parent x := by
  rw [parent_place]
  by_cases hx : x = node
  · rw [if_pos hx, if_pos ⟨hx.symm, hx ▸ hlt⟩]
  · rw [if_neg hx, if_neg (fun h => hx h.1.symm)]

theorem children_place_eq {parent index node : Nat} (hlt : parent < doc.next) (x : Nat) :
    (doc.place parent index node).children x =
      if x = parent then (doc.children parent).insertIdx index node else doc.children x := by
  rw [children_place]
  by_cases hx : x = parent
  · rw [if_pos hx, if_pos ⟨hx.symm, hx ▸ hlt⟩, hx]
  · rw [if_neg hx, if_neg (fun h => hx h.1.symm)]

/-- A rank for the document in which `node`, so far detached, has become a child of `parent`: everything below `node`
goes up by more than the rank of `parent`. -/
private theorem exists_rank_place (hwf : doc.WellFormed) {parent node : Nat} (hfree : doc.parent node = none)
    (hspan : ¬ doc.Spans node parent) :
    ∃ rank : Nat → Nat, rank parent < rank node ∧ ∀ {x p}, doc.parent x = some p → rank p < rank x := by
  classical
  obtain ⟨rank, hrank⟩ := hwf.ranked
  refine ⟨fun x => if doc.Spans node x then rank x + rank parent + 1 else rank x, ?_, ?_⟩
  · simp only [if_neg hspan, if_pos (Spans.refl doc node)]
    omega
  · intro x p hp
    have hlt := hrank hp
    by_cases hx : doc.Spans node x
    · have hne : x ≠ node := by
        rintro rfl
        simp [hfree] at hp
      simp only [if_pos hx, if_pos (hx.up hne hp)]
      omega
    · have hp' : ¬ doc.Spans node p := fun h => hx (h.down hp)
      simp only [if_neg hx, if_neg hp']
      omega

theorem place (hwf : doc.WellFormed) {parent index node : Nat} (hlt : node < doc.next) (hplt : parent < doc.next)
    (hok : doc.refusal? parent index node = none) : (doc.place parent index node).WellFormed := by
  obtain ⟨hroot, hfree, hspan, hindex⟩ := hwf.refusal?_eq_none_iff.1 hok
  have hnot : ∀ p, node ∉ doc.children p := by
    intro p h
    simp [hwf.mem_children_iff.1 h] at hfree
  constructor
  · rw [next_place]
    exact hwf.next_pos
  · rw [parent_place_eq hlt, if_neg (Ne.symm hroot)]
    exact hwf.parent_root
  · intro p x
    rw [parent_place_eq hlt, children_place_eq hplt]
    by_cases hp : p = parent
    · subst hp
      rw [if_pos rfl, List.mem_insertIdx hindex, hwf.mem_children_iff]
      by_cases hx : x = node
      · simp [hx]
      · simp [hx]
    · rw [if_neg hp]
      by_cases hx : x = node
      · subst hx
        rw [if_pos rfl]
        simp [hnot p, Ne.symm hp]
      · rw [if_neg hx]
        exact hwf.mem_children_iff
  · intro p
    rw [children_place_eq hplt]
    split
    · rw [(List.perm_insertIdx node _ hindex).nodup_iff, List.nodup_cons]
      exact ⟨hnot parent, hwf.nodup_children parent⟩
    · exact hwf.nodup_children p
  · obtain ⟨rank, hnode, hrank⟩ := exists_rank_place hwf hfree hspan
    refine ⟨rank, ?_⟩
    intro x p h
    rw [parent_place_eq hlt] at h
    split at h
    · next hx =>
      obtain rfl := Option.some.inj h
      exact hx ▸ hnode
    · exact hrank h

/-- Parents are determined by the child lists. -/
theorem parent_congr {doc' : Document} (hwf : doc.WellFormed) (hwf' : doc'.WellFormed) {x : Nat}
    (h : ∀ p, x ∈ doc'.children p ↔ x ∈ doc.children p) : doc'.parent x = doc.parent x := by
  apply Option.ext
  intro p
  rw [← hwf.mem_children_iff, ← hwf'.mem_children_iff]
  exact h p

end WellFormed

end NestedStyles.Document
