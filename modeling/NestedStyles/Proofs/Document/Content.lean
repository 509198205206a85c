import NestedStyles.Document.Subtree
import NestedStyles.Proofs.Document.Ancestry

/-!
# The content of a node

In a well-formed document the fragment at a node is its kind with the fragments at its children
(`WellFormed.fragment_eq`), and it depends only on the nodes that the node spans (`WellFormed.fragment_congr`). It has
no more nodes than the document (`WellFormed.size_fragment_le`).
-/

namespace NestedStyles

namespace Fragment

@[simp]
theorem sizeAll_nil : sizeAll [] = 0 := rfl

@[simp]
theorem sizeAll_cons (f : Fragment) (fs : List Fragment) : sizeAll (f :: fs) = f.size + sizeAll fs := rfl

@[simp]
theorem sizeAll_append (fs gs : List Fragment) : sizeAll (fs ++ gs) = sizeAll fs + sizeAll gs := by
  induction fs with
  | nil => simp
  | cons f fs ih => simp only [List.cons_append, sizeAll_cons, ih]; omega

theorem size_eq (f : Fragment) : f.size = sizeAll f.children + 1 := by
  cases f; rfl

theorem size_pos (f : Fragment) : 0 < f.size := by
  rw [size_eq]; omega

mutual

def decEq : (f g : Fragment) → Decidable (f = g)
  | ⟨kind, children⟩, ⟨kind', children'⟩ =>
    match instDecidableEqKind kind kind', decEqAll children children' with
    | .isTrue hkind, .isTrue hchildren => .isTrue (hkind ▸ hchildren ▸ rfl)
    | .isFalse hkind, _ => .isFalse fun h => hkind (Fragment.mk.inj h).1
    | _, .isFalse hchildren => .isFalse fun h => hchildren (Fragment.mk.inj h).2

def decEqAll : (fs gs : List Fragment) → Decidable (fs = gs)
  | [], [] => .isTrue rfl
  | [], _ :: _ => .isFalse nofun
  | _ :: _, [] => .isFalse nofun
  | f :: fs, g :: gs =>
    match decEq f g, decEqAll fs gs with
    | .isTrue hf, .isTrue hfs => .isTrue (hf ▸ hfs ▸ rfl)
    | .isFalse hf, _ => .isFalse fun h => hf (List.cons.inj h).1
    | _, .isFalse hfs => .isFalse fun h => hfs (List.cons.inj h).2

end

instance : DecidableEq Fragment := decEq

end Fragment

namespace Document

variable {doc : Document}

/-- Looking deeper than there can be nodes changes nothing. -/
private theorem fragmentWithin_succ (hwf : doc.WellFormed) {depth id : Nat}
    (h : doc.next ≤ depth + (doc.lineage id).length) :
    doc.fragmentWithin (depth + 1) id = doc.fragmentWithin depth id := by
  have hchild : ∀ c ∈ doc.children id, (doc.lineage c).length = (doc.lineage id).length + 1 := by
    intro c hc
    rw [hwf.lineage_eq c, hwf.mem_children_iff.1 hc]
    simp
  induction depth generalizing id with
  | zero =>
    have hnone : doc.children id = [] := by
      rw [List.eq_nil_iff_forall_not_mem]
      intro c hc
      have := hchild c hc
      have := hwf.length_lineage_le c
      omega
    simp [fragmentWithin, hnone]
  | succ depth ih =>
    rw [fragmentWithin, fragmentWithin]
    congr 1
    apply List.map_congr_left
    intro c hc
    have := hchild c hc
    apply ih (by omega)
    intro d hd
    rw [hwf.lineage_eq d, hwf.mem_children_iff.1 hd]
    simp

namespace WellFormed

theorem fragment_eq (hwf : doc.WellFormed) (id : Nat) :
    doc.fragment id = ⟨doc.kind id, (doc.children id).map doc.fragment⟩ := by
  rw [fragment, ← fragmentWithin_succ hwf (show doc.next ≤ doc.next + _ by omega), fragmentWithin]
  rfl

@[simp]
theorem kind_fragment (hwf : doc.WellFormed) (id : Nat) : (doc.fragment id).kind = doc.kind id := by
  rw [hwf.fragment_eq]

@[simp]
theorem children_fragment (hwf : doc.WellFormed) (id : Nat) :
    (doc.fragment id).children = (doc.children id).map doc.fragment := by
  rw [hwf.fragment_eq]

/-- The fragment at a node depends only on the nodes that it spans. -/
theorem fragment_congr {doc' : Document} (hwf : doc.WellFormed) (hwf' : doc'.WellFormed) {id : Nat}
    (h : ∀ x, doc.Spans id x → doc'.kind x = doc.kind x ∧ doc'.children x = doc.children x) :
    doc'.fragment id = doc.fragment id := by
  induction id using hwf.children_induction with
  | step id ih =>
    obtain ⟨hkind, hchildren⟩ := h id (Spans.refl doc id)
    rw [hwf.fragment_eq, hwf'.fragment_eq, hkind, hchildren]
    congr 1
    apply List.map_congr_left
    intro c hc
    apply ih c hc
    intro x hx
    exact h x ((Spans.of_parent (hwf.mem_children_iff.1 hc)).trans hx)

/-- The nodes below some children of a node, listed without repetition. -/
private theorem exists_nodes_below (hwf : doc.WellFormed) {id : Nat}
    (ih : ∀ c ∈ doc.children id,
      ∃ l : List Nat, l.Nodup ∧ l.length = (doc.fragment c).size ∧ ∀ x ∈ l, doc.Spans c x)
    {cs : List Nat} (hnd : cs.Nodup) (hsub : ∀ c ∈ cs, c ∈ doc.children id) :
    ∃ l : List Nat, l.Nodup ∧ l.length = Fragment.sizeAll (cs.map doc.fragment) ∧
      ∀ x ∈ l, ∃ c ∈ cs, doc.Spans c x := by
  induction cs with
  | nil => exact ⟨[], by simp, by simp, by simp⟩
  | cons c cs ihs =>
    obtain ⟨hc, hnd⟩ := List.nodup_cons.1 hnd
    obtain ⟨here, hnd₁, hlen₁, hspan₁⟩ := ih c (hsub c (by simp))
    obtain ⟨there, hnd₂, hlen₂, hspan₂⟩ := ihs hnd (fun d hd => hsub d (by simp [hd]))
    refine ⟨here ++ there, ?_, ?_, ?_⟩
    · rw [List.nodup_append]
      refine ⟨hnd₁, hnd₂, ?_⟩
      rintro x hx _ hx' rfl
      obtain ⟨d, hd, hspan⟩ := hspan₂ x hx'
      have hcp := hwf.mem_children_iff.1 (hsub c (by simp))
      have hdp := hwf.mem_children_iff.1 (hsub d (by simp [hd]))
      rw [hwf.eq_of_spans_siblings hcp hdp (hspan₁ x hx) hspan] at hc
      exact hc hd
    · simp [hlen₁, hlen₂]
    · intro x hx
      rw [List.mem_append] at hx
      rcases hx with hx | hx
      · exact ⟨c, by simp, hspan₁ x hx⟩
      · obtain ⟨d, hd, hspan⟩ := hspan₂ x hx
        exact ⟨d, by simp [hd], hspan⟩

private theorem exists_nodes (hwf : doc.WellFormed) (id : Nat) :
    ∃ l : List Nat, l.Nodup ∧ l.length = (doc.fragment id).size ∧ ∀ x ∈ l, doc.Spans id x := by
  induction id using hwf.children_induction with
  | step id ih =>
    obtain ⟨below, hnd, hlen, hspan⟩ := exists_nodes_below hwf ih (hwf.nodup_children id) (fun _ hc => hc)
    refine ⟨id :: below, ?_, ?_, ?_⟩
    · rw [List.nodup_cons]
      refine ⟨?_, hnd⟩
      intro hmem
      obtain ⟨c, hc, hcid⟩ := hspan id hmem
      exact hwf.not_spans_parent (hwf.mem_children_iff.1 hc) hcid
    · rw [Fragment.size_eq, hwf.children_fragment, ← hlen]
      rfl
    · intro x hx
      rw [List.mem_cons] at hx
      rcases hx with rfl | hx
      · exact Spans.refl doc x
      · obtain ⟨c, hc, hcx⟩ := hspan x hx
        exact (Spans.of_parent (hwf.mem_children_iff.1 hc)).trans hcx

/-- A fragment of a document has no more nodes than the document. -/
theorem size_fragment_le (hwf : doc.WellFormed) {id : Nat} (hlt : id < doc.next) :
    (doc.fragment id).size ≤ doc.next := by
  obtain ⟨l, hnd, hlen, hspan⟩ := exists_nodes hwf id
  rw [← hlen]
  exact length_le_of_nodup_lt hnd fun x hx => (hspan x hx).lt_next hlt

theorem sizeAll_children_lt (hwf : doc.WellFormed) {id : Nat} (hlt : id < doc.next) :
    Fragment.sizeAll ((doc.children id).map doc.fragment) < doc.next := by
  have hle := hwf.size_fragment_le hlt
  rw [hwf.fragment_eq, Fragment.size_eq] at hle
  exact hle

end WellFormed

end Document

end NestedStyles
