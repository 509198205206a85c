import NestedStyles.Proofs.Document.Content

/-!
# Frames

Many operations change a document only at and below certain nodes, and in the child list of one more node, the site.
`Frame` says so of two documents: everything outside is as before. Frames compose when the second operation works on
nodes that the first one was allowed to change (`Frame.trans`), and a subtree that lies outside keeps its content
(`Frame.fragment_eq`).
-/

namespace NestedStyles.Document

/-- `x` is in use, and none of `tops` spans it. -/
def Outside (doc : Document) (tops : List Nat) (x : Nat) : Prop := x < doc.next ∧ ∀ t ∈ tops, ¬ doc.Spans t x

/-- Nothing of the subtree at `id` is below one of `tops` or is the site. -/
def Clear (doc : Document) (tops : List Nat) (site : Option Nat) (id : Nat) : Prop :=
  ∀ x, doc.Spans id x → doc.Outside tops x ∧ site ≠ some x

/-- Outside of `tops` nothing differs but the child list of the site. -/
structure Frame (doc doc' : Document) (tops : List Nat) (site : Option Nat) : Prop where
  next_le : doc.next ≤ doc'.next
  kind_eq : ∀ {x}, doc.Outside tops x → doc'.kind x = doc.kind x
  parent_eq : ∀ {x}, doc.Outside tops x → doc'.parent x = doc.parent x
  children_eq : ∀ {x}, doc.Outside tops x → site ≠ some x → doc'.children x = doc.children x

variable {doc doc' doc₁ doc₂ : Document} {tops tops' : List Nat} {site site' : Option Nat}

theorem Outside.up (hwf : doc.WellFormed) {x p : Nat} (h : doc.Outside tops x) (hp : doc.parent x = some p) :
    doc.Outside tops p :=
  ⟨hwf.parent_lt_next hp, fun t ht hspan => h.2 t ht (hspan.down hp)⟩

theorem not_outside_of_spans {t x : Nat} (ht : t ∈ tops) (h : doc.Spans t x) : ¬ doc.Outside tops x :=
  fun hout => hout.2 t ht h

theorem not_outside_of_mem {t : Nat} (ht : t ∈ tops) : ¬ doc.Outside tops t :=
  not_outside_of_spans ht (Spans.refl doc t)

theorem outside_singleton {t x : Nat} : doc.Outside [t] x ↔ x < doc.next ∧ ¬ doc.Spans t x := by
  simp [Outside]

theorem WellFormed.outside_parent (hwf : doc.WellFormed) {node parent : Nat} (hp : doc.parent node = some parent) :
    doc.Outside [node] parent :=
  outside_singleton.2 ⟨hwf.parent_lt_next hp, hwf.not_spans_parent hp⟩

/-- A node is not below its own children, and neither is what is not below the node. -/
theorem WellFormed.outside_children (hwf : doc.WellFormed) {node x : Nat} (hlt : x < doc.next)
    (h : x = node ∨ ¬ doc.Spans node x) : doc.Outside (doc.children node) x := by
  refine ⟨hlt, ?_⟩
  intro t ht hspan
  have hp := hwf.mem_children_iff.1 ht
  rcases h with rfl | h
  · exact hwf.not_spans_parent hp hspan
  · exact h ((Spans.of_parent hp).trans hspan)

theorem not_outside_of_le {x : Nat} (h : doc.next ≤ x) : ¬ doc.Outside tops x :=
  fun hout => Nat.not_lt.2 h hout.1

namespace Frame

theorem refl (doc : Document) (tops : List Nat) (site : Option Nat) : Frame doc doc tops site :=
  ⟨Nat.le_refl _, fun _ => rfl, fun _ => rfl, fun _ _ => rfl⟩

/-- Above a node that is outside, nothing is new. -/
theorem spans_of_spans (hf : Frame doc doc' tops site) (hwf : doc.WellFormed) {t x : Nat} (hx : doc.Outside tops x)
    (h : doc'.Spans t x) : doc.Spans t x := by
  refine Spans.climb (motive := fun x => doc.Outside tops x → doc.Spans t x) ?_ ?_ h hx
  · exact fun _ => Spans.refl doc t
  · intro x p hp _ ih hx
    rw [hf.parent_eq hx] at hp
    exact (ih (hx.up hwf hp)).down hp

/-- What is outside stays outside, also of other nodes, if none of these was outside. -/
theorem outside (hf : Frame doc doc' tops site) (hwf : doc.WellFormed) (htops : ∀ t ∈ tops', ¬ doc.Outside tops t)
    {x : Nat} (hx : doc.Outside tops x) : doc'.Outside tops' x := by
  refine ⟨Nat.lt_of_lt_of_le hx.1 hf.next_le, ?_⟩
  intro t ht hspan
  have hspan' := hf.spans_of_spans hwf hx hspan
  refine htops t ht ⟨hwf.lt_next_of_spans hspan' hx.1, ?_⟩
  exact fun s hs hst => hx.2 s hs (hst.trans hspan')

theorem trans (hwf : doc.WellFormed) (h₁ : Frame doc doc₁ tops site) (h₂ : Frame doc₁ doc₂ tops' site')
    (htops : ∀ t ∈ tops', ¬ doc.Outside tops t)
    (hsite : ∀ y, site' = some y → site = some y ∨ ¬ doc.Outside tops y) : Frame doc doc₂ tops site where
  next_le := Nat.le_trans h₁.next_le h₂.next_le
  kind_eq hx := by rw [h₂.kind_eq (h₁.outside hwf htops hx), h₁.kind_eq hx]
  parent_eq hx := by rw [h₂.parent_eq (h₁.outside hwf htops hx), h₁.parent_eq hx]
  children_eq := by
    intro x hx hne
    have hne' : site' ≠ some x := by
      intro h
      rcases hsite x h with h | h
      · exact hne h
      · exact h hx
    rw [h₂.children_eq (h₁.outside hwf htops hx) hne', h₁.children_eq hx hne]

/-- A frame for fewer nodes is one for more. -/
theorem mono (hf : Frame doc doc' tops site) (htops : ∀ x, doc.Outside tops' x → doc.Outside tops x)
    (hsite : ∀ y, site = some y → site' = some y ∨ ¬ doc.Outside tops' y) : Frame doc doc' tops' site' where
  next_le := hf.next_le
  kind_eq hx := hf.kind_eq (htops _ hx)
  parent_eq hx := hf.parent_eq (htops _ hx)
  children_eq := by
    intro x hx hne
    apply hf.children_eq (htops x hx)
    intro h
    rcases hsite x h with h | h
    · exact hne h
    · exact h hx

/-- A subtree that lies outside has got no new nodes. -/
theorem spans_of_clear (hf : Frame doc doc' tops site) (hwf : doc.WellFormed) (hwf' : doc'.WellFormed) {id x : Nat}
    (hclear : doc.Clear tops site id) (h : doc'.Spans id x) : doc.Spans id x := by
  refine Spans.climb (motive := fun x => doc.Spans id x) (Spans.refl doc id) ?_ h
  intro x p hp _ ih
  obtain ⟨hout, hne⟩ := hclear p ih
  rw [← hwf'.mem_children_iff, hf.children_eq hout hne, hwf.mem_children_iff] at hp
  exact ih.down hp

theorem clear (hf : Frame doc doc' tops site) (hwf : doc.WellFormed) (hwf' : doc'.WellFormed) {id : Nat}
    (hclear : doc.Clear tops site id) (htops : ∀ t ∈ tops', ¬ doc.Outside tops t)
    (hsite : ∀ y, site' = some y → site = some y ∨ ¬ doc.Outside tops y) : doc'.Clear tops' site' id := by
  intro x hx
  obtain ⟨hout, hne⟩ := hclear x (hf.spans_of_clear hwf hwf' hclear hx)
  refine ⟨hf.outside hwf htops hout, ?_⟩
  intro h
  rcases hsite x h with h | h
  · exact hne h
  · exact h hout

/-- A subtree that lies outside keeps its content. -/
theorem fragment_eq (hf : Frame doc doc' tops site) (hwf : doc.WellFormed) (hwf' : doc'.WellFormed) {id : Nat}
    (hclear : doc.Clear tops site id) : doc'.fragment id = doc.fragment id := by
  apply hwf.fragment_congr hwf'
  intro x hx
  obtain ⟨hout, hne⟩ := hclear x hx
  exact ⟨hf.kind_eq hout, hf.children_eq hout hne⟩

end Frame

/-- A child of a node is clear of other children of it and of the node. -/
theorem WellFormed.clear_of_sibling (hwf : doc.WellFormed) {parent id : Nat} (hid : id ∈ doc.children parent)
    (htops : ∀ t ∈ tops, t ∈ doc.children parent ∧ t ≠ id) : doc.Clear tops (some parent) id := by
  have hp := hwf.mem_children_iff.1 hid
  intro x hx
  refine ⟨⟨hx.lt_next (hwf.child_lt_next hid), ?_⟩, ?_⟩
  · intro t ht hspan
    obtain ⟨hmem, hne⟩ := htops t ht
    exact hne (hwf.eq_of_spans_siblings (hwf.mem_children_iff.1 hmem) hp hspan hx)
  · rintro h
    obtain rfl := Option.some.inj h
    exact hwf.not_spans_parent hp hx

end NestedStyles.Document
