import NestedStyles.Proofs.Document.Building
import NestedStyles.Proofs.Pass.Splicing

/-!
# Insertions

Four things can speak against an insertion, and several of them at once (`Objection`). The one that is reported comes
first in a fixed order, so there is never a choice (`refusal?_eq_some_iff`). An insertion that nothing speaks against
links the node to its new parent and changes nothing else (`inserted_place`).

All is looked at before anything is changed. A pass that fails in an insertion therefore leaves its workspace as it was
(`Pass.insertAt_run`, `Pass.insertAfter_run`).
-/

namespace NestedStyles

/-- The order in which the objections to an insertion are reported. -/
def EditError.precedence : EditError → Nat
  | rootAttach => 0
  | alreadyAttached _ _ => 1
  | cycle _ _ => 2
  | outOfBounds _ _ _ => 3
  | notAChild _ _ | inconsistent _ => 4

namespace Document

/-- What speaks against making `node` the child of `parent` at position `index`. -/
inductive Objection (doc : Document) (parent index node : Nat) : EditError → Prop
  | root (h : node = root) : Objection doc parent index node .rootAttach
  | attached {current : Nat} (h : doc.parent node = some current) :
      Objection doc parent index node (.alreadyAttached node current)
  /-- The node is its new parent, or above it. -/
  | above (h : doc.Spans node parent) : Objection doc parent index node (.cycle parent node)
  | beyond (h : (doc.children parent).length < index) :
      Objection doc parent index node (.outOfBounds parent index (doc.children parent).length)

/-- Of all that speaks against the insertion, `error` comes first. -/
def FirstObjection (doc : Document) (parent index node : Nat) (error : EditError) : Prop :=
  doc.Objection parent index node error ∧
    ∀ other, doc.Objection parent index node other → error.precedence ≤ other.precedence

/-- The documents differ only in that `node` has become the child of `parent` at position `index`. -/
structure Inserted (doc doc' : Document) (parent index node : Nat) : Prop where
  next_eq : doc'.next = doc.next
  kind_eq : ∀ x, doc'.kind x = doc.kind x
  parent_node : doc'.parent node = some parent
  parent_eq : ∀ x, x ≠ node → doc'.parent x = doc.parent x
  children_parent : doc'.children parent = (doc.children parent).insertIdx index node
  children_eq : ∀ x, x ≠ parent → doc'.children x = doc.children x

variable {doc : Document} {parent index node : Nat}

/-! ### The reason that is given -/

/-- No two objections stand at the same place in the order. -/
theorem Objection.eq_of_precedence_eq {error other : EditError} (h : doc.Objection parent index node error)
    (h' : doc.Objection parent index node other) (heq : error.precedence = other.precedence) : error = other := by
  cases h with
  | root _ =>
    cases h' with
    | root _ => rfl
    | _ => simp [EditError.precedence] at heq
  | attached hcurrent =>
    cases h' with
    | attached hcurrent' =>
      have hsame := hcurrent.symm.trans hcurrent'
      rw [Option.some.inj hsame]
    | _ => simp [EditError.precedence] at heq
  | above _ =>
    cases h' with
    | above _ => rfl
    | _ => simp [EditError.precedence] at heq
  | beyond _ =>
    cases h' with
    | beyond _ => rfl
    | _ => simp [EditError.precedence] at heq

theorem FirstObjection.unique {error other : EditError} (h : doc.FirstObjection parent index node error)
    (h' : doc.FirstObjection parent index node other) : error = other := by
  have hle := h.2 other h'.1
  have hge := h'.2 error h.1
  exact h.1.eq_of_precedence_eq h'.1 (by omega)

namespace WellFormed

variable (hwf : doc.WellFormed)
include hwf

/-- Each check is made only when the ones before it have found nothing. -/
theorem firstObjection_of_refusal? {error : EditError} (h : doc.refusal? parent index node = some error) :
    doc.FirstObjection parent index node error := by
  unfold refusal? at h
  by_cases hroot : node = Document.root
  · rw [if_pos hroot] at h
    obtain rfl := Option.some.inj h
    exact ⟨.root hroot, fun other _ => Nat.zero_le _⟩
  rw [if_neg hroot] at h
  cases hcurrent : doc.parent node with
  | some current =>
    simp only [hcurrent] at h
    obtain rfl := Option.some.inj h
    refine ⟨.attached hcurrent, ?_⟩
    intro other hother
    cases hother with
    | root hnode => exact absurd hnode hroot
    | _ => simp [EditError.precedence]
  | none =>
    have hlineage : (doc.lineage parent).contains node = true ↔ doc.Spans node parent := by
      rw [List.contains_iff_mem, hwf.mem_lineage]
    simp only [hcurrent, size_slots] at h
    by_cases habove : doc.Spans node parent
    · rw [if_pos (hlineage.2 habove)] at h
      obtain rfl := Option.some.inj h
      refine ⟨.above habove, ?_⟩
      intro other hother
      cases hother with
      | root hnode => exact absurd hnode hroot
      | attached hparent => simp [hcurrent] at hparent
      | _ => simp [EditError.precedence]
    · rw [if_neg (mt hlineage.1 habove)] at h
      split at h
      · next hbeyond =>
        obtain rfl := Option.some.inj h
        refine ⟨.beyond hbeyond, ?_⟩
        intro other hother
        cases hother with
        | root hnode => exact absurd hnode hroot
        | attached hparent => simp [hcurrent] at hparent
        | above hspan => exact absurd hspan habove
        | beyond _ => exact Nat.le_refl _
      · simp at h

/-- Where nothing is reported, nothing speaks against the insertion. -/
theorem not_objection_of_refusal?_none (h : doc.refusal? parent index node = none) (error : EditError) :
    ¬ doc.Objection parent index node error := by
  obtain ⟨hroot, hfree, habove, hindex⟩ := hwf.refusal?_eq_none_iff.1 h
  intro hobjection
  cases hobjection with
  | root hnode => exact hroot hnode
  | attached hparent => simp [hfree] at hparent
  | above hspan => exact habove hspan
  | beyond hbeyond => omega

theorem refusal?_eq_some_iff {error : EditError} :
    doc.refusal? parent index node = some error ↔ doc.FirstObjection parent index node error := by
  constructor
  · exact hwf.firstObjection_of_refusal?
  · intro hfirst
    cases hrefusal : doc.refusal? parent index node with
    | none => exact absurd hfirst.1 (hwf.not_objection_of_refusal?_none hrefusal error)
    | some reported =>
      have hreported := hwf.firstObjection_of_refusal? hrefusal
      rw [hreported.unique hfirst]

end WellFormed

/-! ### What an insertion does -/

theorem inserted_place (hparent : parent < doc.next) (hnode : node < doc.next) :
    doc.Inserted (doc.place parent index node) parent index node := by
  constructor
  · exact next_place ..
  · exact kind_place doc parent index node
  · rw [WellFormed.parent_place_eq hnode, if_pos rfl]
  · intro x hx
    rw [WellFormed.parent_place_eq hnode, if_neg hx]
  · rw [WellFormed.children_place_eq hparent, if_pos rfl]
  · intro x hx
    rw [WellFormed.children_place_eq hparent, if_neg hx]

theorem insertAt_eq_ok_iff {doc' : Document} : doc.insertAt parent index (some node) = .ok doc' ↔
    doc.refusal? parent index node = none ∧ doc.place parent index node = doc' := by
  rw [insertAt]
  cases doc.refusal? parent index node with
  | none => simp
  | some error => simp

theorem insertAt_eq_error_iff {error : EditError} : doc.insertAt parent index (some node) = .error error ↔
    doc.refusal? parent index node = some error := by
  rw [insertAt]
  cases doc.refusal? parent index node with
  | none => simp
  | some reported => simp

/-- Only the search for the anchor says that it is not a child. -/
theorem insertAt_ne_notAChild (hwf : doc.WellFormed) (parent index node p x : Nat) :
    doc.insertAt parent index (some node) ≠ .error (.notAChild p x) := by
  intro h
  have hfirst := hwf.firstObjection_of_refusal? (insertAt_eq_error_iff.1 h)
  nomatch hfirst.1

theorem insertAfter_of_not_mem {anchor : Nat} (h : anchor ∉ doc.children parent) :
    doc.insertAfter parent anchor node = .error (.notAChild parent anchor) := by
  have hindex : doc.indexOf? parent anchor = none := by
    rw [indexOf?_eq]
    exact List.idxOf?_eq_none_iff.2 h
  rw [insertAfter, hindex]

theorem insertAfter_of_children_eq (hwf : doc.WellFormed) {anchor : Nat} {before after : List Nat}
    (h : doc.children parent = before ++ anchor :: after) :
    doc.insertAfter parent anchor node = doc.insertAt parent (before.length + 1) (some node) := by
  have hbefore : anchor ∉ before := (hwf.not_mem_of_children_eq h).1
  have hindex : doc.indexOf? parent anchor = some before.length := by
    rw [indexOf?_eq, h]
    exact idxOf?_append_cons hbefore
  rw [insertAfter, hindex]

theorem insertAfter_eq_notAChild_iff (hwf : doc.WellFormed) {anchor p x : Nat} :
    doc.insertAfter parent anchor node = .error (.notAChild p x) ↔
      p = parent ∧ x = anchor ∧ anchor ∉ doc.children parent := by
  by_cases hmem : anchor ∈ doc.children parent
  · obtain ⟨before, after, hlist⟩ := List.append_of_mem hmem
    have hne := insertAt_ne_notAChild hwf parent (before.length + 1) node p x
    rw [insertAfter_of_children_eq hwf hlist]
    simp [hne, hmem]
  · rw [insertAfter_of_not_mem hmem]
    simp [hmem, eq_comm]

end Document

/-! ### Insertions as passes -/

/-- What a pass comes to that makes an edit: if the edit is refused it fails, with the workspace as it was. -/
def Workspace.attempt (w : Workspace) : Except EditError Document → Outcome Unit
  | .ok doc => .ok () { w with doc }
  | .error error => .error (.edit error) w

namespace Pass

theorem insertAt_run (parent index node : Nat) (w : Workspace) :
    insertAt parent index node w = w.attempt (w.doc.insertAt parent index (some node)) := by
  rw [Pass.insertAt, run_bind, run_view, Document.insertAt]
  cases w.doc.refusal? parent index node with
  | none => rfl
  | some error => rfl

theorem insertAfter_run (parent anchor node : Nat) (w : Workspace) :
    insertAfter parent anchor node w = w.attempt (w.doc.insertAfter parent anchor node) := by
  rw [Pass.insertAfter, run_bind, run_view, Document.insertAfter]
  cases w.doc.indexOf? parent anchor with
  | none => rfl
  | some index => exact insertAt_run parent (index + 1) node w

end Pass

namespace Document

/-- An insertion is carried out just when the node is a detached one that is not the root and not at or above its new
parent, and the position exists. Then nothing else changes. Otherwise the first objection is reported, and nothing
changes at all. An insertion after an anchor that is no child is refused as such, and is otherwise one at the position
after the anchor. -/
theorem insertion_decided {doc : Document} (hwf : doc.WellFormed) {parent node : Nat} (hparent : parent < doc.next)
    (hnode : node < doc.next) :
    (∀ index,
      ((∃ doc', doc.insertAt parent index (some node) = .ok doc') ↔
        node ≠ root ∧ doc.parent node = none ∧ ¬ doc.Spans node parent ∧ index ≤ (doc.children parent).length) ∧
      (∀ doc', doc.insertAt parent index (some node) = .ok doc' → doc.Inserted doc' parent index node) ∧
      ∀ error, doc.insertAt parent index (some node) = .error error ↔ doc.FirstObjection parent index node error) ∧
    (∀ anchor,
      (∀ p x, doc.insertAfter parent anchor node = .error (.notAChild p x) ↔
        p = parent ∧ x = anchor ∧ anchor ∉ doc.children parent) ∧
      ∀ before after, doc.children parent = before ++ anchor :: after →
        doc.insertAfter parent anchor node = doc.insertAt parent (before.length + 1) (some node)) ∧
    ∀ w : Workspace, w.doc = doc →
      (∀ index, Pass.insertAt parent index node w = w.attempt (doc.insertAt parent index (some node))) ∧
      ∀ anchor, Pass.insertAfter parent anchor node w = w.attempt (doc.insertAfter parent anchor node) := by
  refine ⟨?_, ?_, ?_⟩
  · intro index
    refine ⟨?_, ?_, ?_⟩
    · rw [← hwf.refusal?_eq_none_iff]
      constructor
      · intro ⟨doc', hok⟩
        exact (insertAt_eq_ok_iff.1 hok).1
      · intro hnone
        exact ⟨_, insertAt_eq_ok_iff.2 ⟨hnone, rfl⟩⟩
    · intro doc' hok
      obtain ⟨-, rfl⟩ := insertAt_eq_ok_iff.1 hok
      exact inserted_place hparent hnode
    · intro error
      rw [insertAt_eq_error_iff, hwf.refusal?_eq_some_iff]
  · intro anchor
    constructor
    · intro p x
      exact insertAfter_eq_notAChild_iff hwf
    · intro before after hlist
      exact insertAfter_of_children_eq hwf hlist
  · intro w hw
    subst hw
    exact ⟨fun index => Pass.insertAt_run parent index node w, fun anchor => Pass.insertAfter_run parent anchor node w⟩

/-- A rule with a rule in it, both taken out of the tree, and one more rule that is not in the tree either. -/
def unhung : Document :=
  [.append 0 (.rule "a"), .append 1 (.rule "b"), .detach 1, .create (.rule "c")].foldl perform (blank none)

/-- The outer rule can go neither below the inner one nor to a position that is not there, and the first of these is
reported. The third rule is put right after the inner one. -/
theorem insertion_unhung :
    unhung.insertAt 2 9 (some 1) = .error (.cycle 2 1) ∧
      unhung.Objection 2 9 1 (.outOfBounds 2 9 0) ∧
      (∃ doc', unhung.insertAfter 1 2 3 = .ok doc' ∧ unhung.Inserted doc' 1 1 3 ∧ doc'.children 1 = [2, 3]) ∧
      unhung.insertAfter 1 3 3 = .error (.notAChild 1 3) ∧
      Pass.insertAt 2 9 1 { doc := unhung } = .error (.edit (.cycle 2 1)) { doc := unhung } := by
  have hbuilt : Built unhung := by
    rw [unhung]
    simp only [List.foldl_cons, List.foldl_nil]
    refine Built.edit (Built.edit (Built.edit (Built.edit (Built.blank none) _ ?_) _ ?_) _ ?_) _ ?_
    all_goals decide +kernel
  have hwf := hbuilt.wellFormed
  have hinner : unhung.children 1 = [2] := by decide +kernel
  have hempty : unhung.children 2 = [] := by decide +kernel
  have habove : unhung.Spans 1 2 := .of_parent (by decide +kernel)
  have hfree : unhung.parent 1 = none := by decide +kernel
  obtain ⟨hinto, -, hpass⟩ := @insertion_decided unhung hwf 2 1 (by decide +kernel) (by decide +kernel)
  obtain ⟨hat, hafter, -⟩ := @insertion_decided unhung hwf 1 3 (by decide +kernel) (by decide +kernel)
  have hcycle : unhung.insertAt 2 9 (some 1) = .error (.cycle 2 1) := by
    refine ((hinto 9).2.2 _).2 ⟨.above habove, ?_⟩
    intro other hother
    cases hother with
    | root h => exact absurd h (by decide)
    | attached h => simp [hfree] at h
    | _ => simp [EditError.precedence]
  refine ⟨hcycle, ?_, ?_, ?_, ?_⟩
  · have hbeyond : (unhung.children 2).length < 9 := by simp [hempty]
    have hobjection : unhung.Objection 2 9 1 (.outOfBounds 2 9 (unhung.children 2).length) := .beyond hbeyond
    simpa [hempty] using hobjection
  · have heq := (hafter 2).2 [] [] hinner
    have hnot : ¬ unhung.Spans 3 1 := by
      rw [← hwf.mem_lineage]
      decide +kernel
    obtain ⟨doc', hok⟩ := (hat 1).1.2 ⟨by decide, by decide +kernel, hnot, by simp [hinner]⟩
    have hinserted := (hat 1).2.1 doc' hok
    refine ⟨doc', heq.trans hok, hinserted, ?_⟩
    rw [hinserted.children_parent, hinner]
    rfl
  · exact ((hafter 3).1 1 3).2 ⟨rfl, rfl, by simp [hinner]⟩
  · rw [(hpass { doc := unhung } rfl).1 9, hcycle]
    rfl

end Document

end NestedStyles
