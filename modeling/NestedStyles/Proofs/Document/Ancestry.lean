import Mathlib.Logic.Relation
import Mathlib.Tactic.ByContra
import NestedStyles.Document.Consistency
import NestedStyles.Document.Views

/-!
# Ancestry

A node spans another one when climbing from parent to parent leads from the other one to it. In a well-formed document
this is a partial order in which the nodes above a node form a chain (`Spans.total`), so the subtrees of two siblings
have no node in common (`WellFormed.eq_of_spans_siblings`). The computed `lineage` of a node lists exactly the nodes
that span it, because a chain of different nodes is no longer than the document.
-/

namespace NestedStyles.Document

/-- `node` is `top` itself or lies below it. -/
def Spans (doc : Document) (top node : Nat) : Prop :=
  Relation.ReflTransGen (fun child parent => doc.parent child = some parent) node top

variable {doc : Document}

namespace Spans

@[refl]
theorem refl (doc : Document) (node : Nat) : doc.Spans node node := Relation.ReflTransGen.refl

theorem trans {a b c : Nat} (hab : doc.Spans a b) (hbc : doc.Spans b c) : doc.Spans a c :=
  Relation.ReflTransGen.trans hbc hab

theorem of_parent {node parent : Nat} (h : doc.parent node = some parent) : doc.Spans parent node :=
  Relation.ReflTransGen.single h

/-- What spans the parent of a node spans the node. -/
theorem down {top node parent : Nat} (h : doc.Spans top parent) (hp : doc.parent node = some parent) :
    doc.Spans top node := h.trans (of_parent hp)

theorem iff_eq_or_parent {top node : Nat} :
    doc.Spans top node ↔ node = top ∨ ∃ parent, doc.parent node = some parent ∧ doc.Spans top parent :=
  Relation.ReflTransGen.cases_head_iff

/-- What spans a node other than itself spans its parent. -/
theorem up {top node parent : Nat} (h : doc.Spans top node) (hne : node ≠ top)
    (hp : doc.parent node = some parent) : doc.Spans top parent := by
  rcases iff_eq_or_parent.1 h with rfl | ⟨q, hq, hspan⟩
  · exact absurd rfl hne
  · rw [hp, Option.some.injEq] at hq
    exact hq ▸ hspan

theorem eq_of_parent_none {top node : Nat} (h : doc.Spans top node) (hp : doc.parent node = none) : node = top := by
  rcases iff_eq_or_parent.1 h with rfl | ⟨q, hq, _⟩
  · rfl
  · simp [hp] at hq

/-- The nodes above a node form a chain. -/
theorem total {a b node : Nat} (ha : doc.Spans a node) (hb : doc.Spans b node) : doc.Spans a b ∨ doc.Spans b a := by
  have hunique : Relator.RightUnique fun child parent => doc.parent child = some parent := by
    intro child p q hp hq
    exact Option.some.inj (hp.symm.trans hq)
  exact (Relation.ReflTransGen.total_of_right_unique hunique ha hb).symm

/-- Induction along the climb from a node to the one that spans it. -/
theorem climb {top : Nat} {motive : Nat → Prop} (base : motive top)
    (step : ∀ {node parent}, doc.parent node = some parent → doc.Spans top parent → motive parent → motive node)
    {node : Nat} (h : doc.Spans top node) : motive node :=
  Relation.ReflTransGen.head_induction_on (motive := fun node _ => motive node) h base
    fun hp hspan ih => step hp hspan ih

end Spans

theorem lt_next_of_parent {node parent : Nat} (h : doc.parent node = some parent) : node < doc.next := by
  by_contra hle
  rw [parent_of_le (by omega)] at h
  simp at h

theorem lt_next_of_mem_children {parent node : Nat} (h : node ∈ doc.children parent) : parent < doc.next := by
  by_contra hle
  rw [children_of_le (by omega)] at h
  simp at h

theorem Spans.lt_next {top node : Nat} (h : doc.Spans top node) (hlt : top < doc.next) : node < doc.next := by
  rcases Spans.iff_eq_or_parent.1 h with rfl | ⟨parent, hp, _⟩
  · exact hlt
  · exact lt_next_of_parent hp

namespace WellFormed

variable (hwf : doc.WellFormed)
include hwf

theorem root_lt_next : root < doc.next := hwf.next_pos

theorem parent_lt_next {node parent : Nat} (h : doc.parent node = some parent) : parent < doc.next :=
  lt_next_of_mem_children (hwf.mem_children_iff.2 h)

theorem child_lt_next {node parent : Nat} (h : node ∈ doc.children parent) : node < doc.next :=
  lt_next_of_parent (hwf.mem_children_iff.1 h)

/-- A child stands in the list of its parent only once. -/
theorem not_mem_of_children_eq {node parent : Nat} {l₁ l₂ : List Nat} (h : doc.children parent = l₁ ++ node :: l₂) :
    node ∉ l₁ ∧ node ∉ l₂ := by
  have hnodup := hwf.nodup_children parent
  rw [h, List.nodup_append] at hnodup
  exact ⟨fun hmem => hnodup.2.2 node hmem node List.mem_cons_self rfl, (List.nodup_cons.1 hnodup.2.1).1⟩

/-- A node above another one is in use if that one is. -/
theorem lt_next_of_spans {top node : Nat} (h : doc.Spans top node) (hlt : node < doc.next) : top < doc.next := by
  refine Spans.climb (motive := fun node => node < doc.next → top < doc.next) id ?_ h hlt
  intro node parent hp _ ih _
  exact ih (hwf.parent_lt_next hp)

/-- No node is above its own parent. -/
theorem not_spans_parent {node parent : Nat} (h : doc.parent node = some parent) : ¬ doc.Spans node parent := by
  obtain ⟨rank, hrank⟩ := hwf.ranked
  have hle : ∀ {x}, doc.Spans node x → rank node ≤ rank x := by
    intro x hx
    refine Spans.climb (motive := fun x => rank node ≤ rank x) (Nat.le_refl _) ?_ hx
    intro x p hp _ ih
    have := hrank hp
    omega
  intro hspan
  have hlt := hrank h
  have := hle hspan
  omega

theorem parent_ne {node parent : Nat} (h : doc.parent node = some parent) : node ≠ parent := by
  rintro rfl
  exact hwf.not_spans_parent h (Spans.refl doc node)

theorem not_spans_root {node : Nat} (hne : node ≠ root) : ¬ doc.Spans node root := by
  intro h
  exact hne (h.eq_of_parent_none hwf.parent_root).symm

theorem ne_root_of_parent {node parent : Nat} (h : doc.parent node = some parent) : node ≠ root := by
  rintro rfl
  simp [hwf.parent_root] at h

/-- The subtrees of two siblings have no node in common. -/
theorem eq_of_spans_siblings {a b parent node : Nat} (ha : doc.parent a = some parent)
    (hb : doc.parent b = some parent) (hna : doc.Spans a node) (hnb : doc.Spans b node) : a = b := by
  by_contra hne
  rcases hna.total hnb with h | h
  · exact hwf.not_spans_parent ha (h.up (Ne.symm hne) hb)
  · exact hwf.not_spans_parent hb (h.up hne ha)

/-- Nothing below a child is below a node that is another child or has no parent, and is not above the child. -/
theorem not_spans_of_sibling {a b parent node : Nat} (ha : doc.parent a = some parent) (hne : a ≠ b)
    (hb : ∀ p, doc.parent b = some p → p = parent) (habove : ¬ doc.Spans b parent) (h : doc.Spans a node) :
    ¬ doc.Spans b node := by
  intro hbn
  rcases h.total hbn with hab | hba
  · rcases hp : doc.parent b with _ | p
    · exact hne (hab.eq_of_parent_none hp).symm
    · rw [hb p hp] at hp
      exact hwf.not_spans_parent ha (hab.up (Ne.symm hne) hp)
  · exact habove (hba.up hne ha)

end WellFormed

/-- A list of different numbers below `n` is no longer than `n`. -/
theorem length_le_of_nodup_lt {l : List Nat} {n : Nat} (hnd : l.Nodup) (hlt : ∀ x ∈ l, x < n) : l.length ≤ n := by
  have hsub : l ⊆ List.range n := fun x hx => List.mem_range.2 (hlt x hx)
  simpa using hnd.length_le_of_subset hsub

/-! ### The computed lineage -/

private theorem spans_of_mem_lineageWithin {steps node top : Nat} (h : top ∈ doc.lineageWithin steps node) :
    doc.Spans top node := by
  induction steps generalizing node with
  | zero => simp [lineageWithin] at h
  | succ steps ih =>
    rw [lineageWithin, List.mem_cons] at h
    rcases h with rfl | h
    · exact Spans.refl doc top
    · split at h
      · simp at h
      · next parent hp => exact (ih h).down hp

private theorem lineageWithin_nodup (hwf : doc.WellFormed) (steps node : Nat) :
    (doc.lineageWithin steps node).Nodup := by
  induction steps generalizing node with
  | zero => simp [lineageWithin]
  | succ steps ih =>
    rw [lineageWithin, List.nodup_cons]
    split
    · simp
    · next parent hp =>
      exact ⟨fun hmem => hwf.not_spans_parent hp (spans_of_mem_lineageWithin hmem), ih parent⟩

/-- A climb that ends before its steps are used up is not changed by one more step. -/
private theorem lineageWithin_succ_of_length_le {steps node : Nat}
    (h : (doc.lineageWithin (steps + 1) node).length ≤ steps) :
    doc.lineageWithin (steps + 1) node = doc.lineageWithin steps node := by
  induction steps generalizing node with
  | zero => simp [lineageWithin] at h
  | succ steps ih =>
    rw [lineageWithin] at h ⊢
    rw [lineageWithin]
    cases hp : doc.parent node with
    | none => rfl
    | some parent =>
      simp only [hp, List.length_cons] at h
      simp only [List.cons.injEq, true_and]
      exact ih (by omega)

private theorem length_lineageWithin_le (hwf : doc.WellFormed) (steps node : Nat) :
    (doc.lineageWithin steps node).length ≤ doc.next := by
  cases hp : doc.parent node with
  | none =>
    have hpos := hwf.next_pos
    cases steps with
    | zero => simp [lineageWithin]
    | succ steps =>
      simp only [lineageWithin, hp, List.length_cons, List.length_nil]
      omega
  | some parent =>
    refine length_le_of_nodup_lt (lineageWithin_nodup hwf steps node) ?_
    intro x hx
    exact hwf.lt_next_of_spans (spans_of_mem_lineageWithin hx) (lt_next_of_parent hp)

namespace WellFormed

variable (hwf : doc.WellFormed)
include hwf

theorem lineage_eq (node : Nat) :
    doc.lineage node = node :: match doc.parent node with
      | none => []
      | some parent => doc.lineage parent := by
  have hstable := lineageWithin_succ_of_length_le (length_lineageWithin_le hwf (doc.next + 1) node)
  rw [lineage, ← hstable, lineageWithin]
  rfl

theorem mem_lineage {top node : Nat} : top ∈ doc.lineage node ↔ doc.Spans top node := by
  constructor
  · exact spans_of_mem_lineageWithin
  · intro h
    refine Spans.climb (motive := fun node => top ∈ doc.lineage node) ?_ ?_ h
    · rw [hwf.lineage_eq]
      exact List.mem_cons_self
    · intro node parent hp _ ih
      rw [hwf.lineage_eq, hp]
      exact List.mem_cons_of_mem _ ih

theorem length_lineage_le (node : Nat) : (doc.lineage node).length ≤ doc.next :=
  length_lineageWithin_le hwf doc.next node

theorem isAttached_iff {node : Nat} : doc.isAttached node = true ↔ doc.Spans root node := by
  rw [isAttached, List.contains_iff_mem, hwf.mem_lineage]

/-- The deeper a node is, the fewer levels there can be below it. -/
theorem levels_left_lt {node child : Nat} (h : child ∈ doc.children node) :
    doc.next - (doc.lineage child).length < doc.next - (doc.lineage node).length := by
  have hdepth : (doc.lineage child).length = (doc.lineage node).length + 1 := by
    rw [hwf.lineage_eq child, hwf.mem_children_iff.1 h]
    simp
  have hle := hwf.length_lineage_le child
  omega

/-- Induction from the children of a node to the node. -/
theorem children_induction {motive : Nat → Prop}
    (step : ∀ node, (∀ child ∈ doc.children node, motive child) → motive node) (node : Nat) : motive node := by
  generalize hgap : doc.next - (doc.lineage node).length = gap
  induction gap using Nat.strongRecOn generalizing node with
  | ind gap ih =>
    apply step
    intro child hchild
    exact ih _ (hgap ▸ hwf.levels_left_lt hchild) child rfl

end WellFormed

end NestedStyles.Document
