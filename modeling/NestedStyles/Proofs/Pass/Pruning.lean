import NestedStyles.Pruning
import NestedStyles.Proofs.Document.Traversal
import NestedStyles.Proofs.Pass.Trimming

/-!
# What pruning takes away

A node is pruned after its children, and it goes if it is a rule all of whose children are gone. So what is taken away
at a node are the nodes at and below it that have nothing but rules below them (`Prunes`). What is done at one child
does not touch the others (`Prunes.siblings`), and the node itself follows its children (`Prunes.idle_iff`).

Of the whole tree these are the `barren` rules, and none without content is left (`prune_takes_barren`).
-/

namespace NestedStyles

open Document

namespace Document

/-- There are only rules at a node and below it. -/
def OnlyRules (doc : Document) (x : Nat) : Prop := ∀ y, doc.Spans x y → (doc.kind y).isRule = true

variable {doc doc' : Document} {gone : List Nat} {x y : Nat}

theorem OnlyRules.isRule (h : doc.OnlyRules x) : (doc.kind x).isRule = true := h x (Spans.refl doc x)

theorem OnlyRules.mono (h : doc.OnlyRules x) (hspan : doc.Spans x y) : doc.OnlyRules y :=
  fun z hz => h z (hspan.trans hz)

theorem WellFormed.onlyRules_of_children (hwf : doc.WellFormed) (hrule : (doc.kind x).isRule = true)
    (hchildren : ∀ c ∈ doc.children x, doc.OnlyRules c) : doc.OnlyRules x := by
  intro y hy
  rcases hwf.spans_iff.1 hy with rfl | ⟨c, hc, hspan⟩
  · exact hrule
  · exact hchildren c hc y hspan

/-- Where nothing has been unlinked below a node, the same nodes are below it. -/
theorem Unlinked.spans_iff (h : Unlinked doc doc' gone) (hwf : doc.WellFormed)
    (hclear : ∀ y, doc.Spans x y → y ∉ gone) : doc'.Spans x y ↔ doc.Spans x y :=
  ⟨h.trimmed.spans hwf, fun hspan => h.spans hspan fun z hz _ _ => hclear z hz⟩

theorem Unlinked.onlyRules_iff (h : Unlinked doc doc' gone) (hwf : doc.WellFormed)
    (hclear : ∀ y, doc.Spans x y → y ∉ gone) : doc'.OnlyRules x ↔ doc.OnlyRules x := by
  simp only [OnlyRules, h.spans_iff hwf hclear, h.kind_eq]

end Document

namespace Pass

variable {w w' w₁ w₂ : Workspace} {node : Nat} {tops gone gone₁ gone₂ : List Nat}

/-- The nodes at and below `tops` with only rules below them have been taken from their parents, and nothing else has
been done. -/
structure Prunes (w w' : Workspace) (tops gone : List Nat) : Prop extends Unlinked w.doc w'.doc gone where
  run_eq : w'.run = w.run
  eq_of_nil : gone = [] → w' = w
  nodup : gone.Nodup
  mem_iff : ∀ x, x ∈ gone ↔ (∃ top ∈ tops, w.doc.Spans top x) ∧ w.doc.parent x ≠ none ∧ w.doc.OnlyRules x

theorem prunes_nil (hwf : w.doc.WellFormed) : Prunes w w [] [] :=
  ⟨hwf.unlinked_nil, rfl, fun _ => rfl, List.nodup_nil, by simp⟩

namespace Prunes

/-- Pruning at one node and then at others that have nothing below them in common with it. -/
theorem siblings (h₁ : Prunes w w₁ [node] gone₁) (h₂ : Prunes w₁ w₂ tops gone₂) (hwf : w.doc.WellFormed)
    (happart : ∀ top ∈ tops, ∀ x, w.doc.Spans top x → ¬ w.doc.Spans node x) :
    Prunes w w₂ (node :: tops) (gone₁ ++ gone₂) := by
  have hclear : ∀ top ∈ tops, ∀ x, w.doc.Spans top x → x ∉ gone₁ := by
    intro top htop x hx hgone
    obtain ⟨⟨_, hmem, hspan⟩, -⟩ := (h₁.mem_iff x).1 hgone
    obtain rfl := List.mem_singleton.1 hmem
    exact happart top htop x hx hspan
  -- what is below the others is found as it was
  have hmem₂ : ∀ x, x ∈ gone₂ ↔
      (∃ top ∈ tops, w.doc.Spans top x) ∧ w.doc.parent x ≠ none ∧ w.doc.OnlyRules x := by
    intro x
    rw [h₂.mem_iff]
    have hspans : (∃ top ∈ tops, w₁.doc.Spans top x) ↔ ∃ top ∈ tops, w.doc.Spans top x :=
      exists_congr fun top => and_congr_right fun htop => h₁.toUnlinked.spans_iff hwf (hclear top htop)
    rw [hspans]
    refine and_congr_right ?_
    rintro ⟨top, htop, hx⟩
    rw [h₁.parent_eq, if_neg (hclear top htop x hx),
      h₁.toUnlinked.onlyRules_iff hwf fun y hy => hclear top htop y (hx.trans hy)]
  refine ⟨h₁.toUnlinked.append h₂.toUnlinked, h₂.run_eq.trans h₁.run_eq, ?_, ?_, ?_⟩
  · intro hnil
    obtain ⟨hnil₁, hnil₂⟩ := List.append_eq_nil_iff.1 hnil
    rw [h₂.eq_of_nil hnil₂, h₁.eq_of_nil hnil₁]
  · refine List.nodup_append.2 ⟨h₁.nodup, h₂.nodup, ?_⟩
    rintro x hx _ hx' rfl
    obtain ⟨⟨top, htop, hspan⟩, -⟩ := (hmem₂ x).1 hx'
    exact hclear top htop x hspan hx
  · intro x
    rw [List.mem_append, h₁.mem_iff, hmem₂, ← or_and_right]
    simp

section

variable (h : Prunes w w' tops gone) (hwf : w.doc.WellFormed)

include h

/-- Whatever was below a node that is gone is gone. -/
theorem mem_of_spans {x y : Nat} (hx : x ∈ gone) (hspan : w.doc.Spans x y) : y ∈ gone := by
  obtain ⟨⟨top, htop, habove⟩, hlinked, hrules⟩ := (h.mem_iff x).1 hx
  refine (h.mem_iff y).2 ⟨⟨top, htop, habove.trans hspan⟩, fun hp => hlinked ?_, hrules.mono hspan⟩
  rwa [← hspan.eq_of_parent_none hp]

include hwf

/-- A rule that is left has something left below it. -/
theorem children_ne_nil {top x : Nat} (htop : top ∈ tops) (hspan : w'.doc.Spans top x)
    (hlinked : w'.doc.parent x ≠ none) (hrule : (w'.doc.kind x).isRule = true) : w'.doc.children x ≠ [] := by
  intro hempty
  have habove := h.trimmed.spans hwf hspan
  rw [h.parent_eq] at hlinked
  have hx : x ∉ gone := fun hx => hlinked (if_pos hx)
  rw [if_neg hx] at hlinked
  refine hx ((h.mem_iff x).2 ⟨⟨top, htop, habove⟩, hlinked, hwf.onlyRules_of_children (h.kind_eq x ▸ hrule) ?_⟩)
  intro c hc
  have hgone : c ∈ gone := by
    by_contra hstays
    have hmem : c ∈ w'.doc.children x := h.mem_children_iff.2 ⟨hc, hstays⟩
    rw [hempty] at hmem
    exact List.not_mem_nil hmem
  exact ((h.mem_iff c).1 hgone).2.2

/-- There is nothing left to be pruned. -/
theorem not_onlyRules {top x : Nat} (htop : top ∈ tops) (hspan : w'.doc.Spans top x)
    (hlinked : w'.doc.parent x ≠ none) : ¬ w'.doc.OnlyRules x := by
  induction x using h.wf.children_induction with
  | step x ih =>
    intro hrules
    obtain ⟨c, hc⟩ := List.exists_mem_of_ne_nil _ (h.children_ne_nil hwf htop hspan hlinked hrules.isRule)
    have hp := h.wf.mem_children_iff.1 hc
    exact ih c hc (hspan.down hp) (by simp [hp]) (hrules.mono (Spans.of_parent hp))

/-- The nodes of a tree that are left, in document order. -/
theorem descendants_eq {x : Nat} (hx : x ∉ gone) :
    w'.doc.descendants x = (w.doc.descendants x).filter (· ∉ gone) := by
  induction x using hwf.children_induction with
  | step x ih =>
    have hbelow : ∀ {cs : List Nat}, (∀ c ∈ cs, c ∈ w.doc.children x) →
        (cs.filter (· ∉ gone)).flatMap w'.doc.descendants =
          (cs.flatMap w.doc.descendants).filter (· ∉ gone) := by
      intro cs hcs
      induction cs with
      | nil => rfl
      | cons c cs ihcs =>
        have hrest := ihcs fun d hd => hcs d (.tail c hd)
        rw [List.flatMap_cons, List.filter_append, ← hrest]
        by_cases hc : c ∈ gone
        · have hnone : (w.doc.descendants c).filter (· ∉ gone) = [] := by
            rw [List.filter_eq_nil_iff]
            intro y hy
            simpa using h.mem_of_spans hc (hwf.mem_descendants.1 hy)
          rw [hnone, List.filter_cons_of_neg (by simpa using hc), List.nil_append]
        · rw [List.filter_cons_of_pos (by simpa using hc), List.flatMap_cons, ih c (hcs c List.mem_cons_self) hc]
    rw [h.wf.descendants_eq, hwf.descendants_eq, h.children_eq, hbelow fun _ hc => hc,
      List.filter_cons_of_pos (by simpa using hx)]

end

section

variable (h : Prunes w w' (w.doc.children node) gone) (hwf : w.doc.WellFormed)

include h hwf

theorem not_mem_of_children : node ∉ gone := by
  intro hnode
  obtain ⟨⟨c, hc, hspan⟩, -⟩ := (h.mem_iff node).1 hnode
  exact hwf.not_spans_parent (hwf.mem_children_iff.1 hc) hspan

/-- Once its children are pruned, a node is a rule without content just if there have been only rules. -/
theorem idle_iff :
    (w'.doc.kind node).isRule = true ∧ w'.doc.children node = [] ↔ w.doc.OnlyRules node := by
  rw [h.kind_eq, h.children_eq, List.filter_eq_nil_iff]
  constructor
  · rintro ⟨hrule, hgone⟩
    refine hwf.onlyRules_of_children hrule fun c hc => ?_
    have hmem : c ∈ gone := by simpa using hgone c hc
    exact ((h.mem_iff c).1 hmem).2.2
  · intro hrules
    refine ⟨hrules.isRule, fun c hc => ?_⟩
    have hp := hwf.mem_children_iff.1 hc
    simpa using (h.mem_iff c).2 ⟨⟨c, hc, Spans.refl w.doc c⟩, by simp [hp], hrules.mono (Spans.of_parent hp)⟩

theorem mem_iff_or_self {x : Nat} :
    (∃ top ∈ [node], w.doc.Spans top x) ∧ w.doc.parent x ≠ none ∧ w.doc.OnlyRules x ↔
      x ∈ gone ∨ x = node ∧ w.doc.parent node ≠ none ∧ w.doc.OnlyRules node := by
  rw [h.mem_iff]
  simp only [List.mem_singleton, exists_eq_left]
  rw [hwf.spans_iff]
  constructor
  · rintro ⟨rfl | hbelow, hx⟩
    · exact Or.inr ⟨rfl, hx⟩
    · exact Or.inl ⟨hbelow, hx⟩
  · rintro (⟨hbelow, hx⟩ | ⟨rfl, hx⟩)
    · exact ⟨Or.inr hbelow, hx⟩
    · exact ⟨Or.inl rfl, hx⟩

end

end Prunes

/-- A node is taken away if it is a rule without children. -/
theorem pruneNode_cases (hwf : w.doc.WellFormed) (node : Nat) :
    (∃ w', pruneNode node w = .ok 1 w' ∧ w'.run = w.run ∧ Unlinked w.doc w'.doc [node] ∧ w.doc.parent node ≠ none ∧
        (w.doc.kind node).isRule = true ∧ w.doc.children node = []) ∨
      pruneNode node w = .ok 0 w ∧
        (w.doc.parent node ≠ none → ¬ ((w.doc.kind node).isRule = true ∧ w.doc.children node = [])) := by
  simp only [pruneNode, run_bind, run_view]
  rcases hp : w.doc.parent node with _ | parent
  · exact Or.inr ⟨rfl, by simp⟩
  · rw [← List.isEmpty_iff, ← Bool.and_eq_true]
    by_cases hidle : (w.doc.kind node).isRule && (w.doc.children node).isEmpty
    · simp only [hidle, ↓reduceIte, run_bind, run_removeChild, run_report, run_pure]
      exact Or.inl ⟨_, rfl, rfl, hwf.unlinked_removeChild hp, by simp, trivial⟩
    · simp only [hidle, Bool.false_eq_true, ↓reduceIte, run_pure]
      exact Or.inr ⟨trivial, fun _ => id⟩

/-- Pruning at some children of a node, where `prune` does so at a single one. -/
theorem pruneEach_prunes {prune : Nat → Pass Nat} {bound : Nat}
    (hprune : ∀ {w : Workspace} {node : Nat}, w.doc.WellFormed → (w.doc.fragment node).size ≤ bound →
      ∃ gone w', prune node w = .ok gone.length w' ∧ Prunes w w' [node] gone)
    {nodes : List Nat} (hwf : w.doc.WellFormed) (hnodup : nodes.Nodup)
    (hparent : ∀ c ∈ nodes, w.doc.parent c = some node) (hsize : ∀ c ∈ nodes, (w.doc.fragment c).size ≤ bound) :
    ∃ gone w', pruneEach prune nodes w = .ok gone.length w' ∧ Prunes w w' nodes gone := by
  induction nodes generalizing w with
  | nil => exact ⟨[], w, rfl, prunes_nil hwf⟩
  | cons c rest ih =>
    obtain ⟨hnotin, hnodup'⟩ := List.nodup_cons.1 hnodup
    obtain ⟨gone₁, w₁, hrun₁, hprunes₁⟩ := hprune hwf (hsize c List.mem_cons_self)
    have happart : ∀ c' ∈ rest, ∀ x, w.doc.Spans c' x → ¬ w.doc.Spans c x := by
      intro c' hc' x hx hspan
      have heq := hwf.eq_of_spans_siblings (hparent c List.mem_cons_self) (hparent c' (.tail c hc')) hspan hx
      exact hnotin (heq ▸ hc')
    have hparent₁ : ∀ c' ∈ rest, w₁.doc.parent c' = some node := by
      intro c' hc'
      rw [hprunes₁.parent_eq, if_neg, hparent c' (.tail c hc')]
      intro hgone
      obtain ⟨⟨_, hmem, hspan⟩, -⟩ := (hprunes₁.mem_iff c').1 hgone
      obtain rfl := List.mem_singleton.1 hmem
      exact happart c' hc' c' (Spans.refl w.doc c') hspan
    have hsize₁ : ∀ c' ∈ rest, (w₁.doc.fragment c').size ≤ bound := fun c' hc' =>
      Nat.le_trans (hprunes₁.trimmed.size_fragment_le hwf c') (hsize c' (.tail c hc'))
    obtain ⟨gone₂, w₂, hrun₂, hprunes₂⟩ := ih hprunes₁.wf hnodup' hparent₁ hsize₁
    refine ⟨gone₁ ++ gone₂, w₂, ?_, hprunes₁.siblings hprunes₂ hwf happart⟩
    simp only [pruneEach, run_bind, hrun₁, hrun₂, run_pure, List.length_append]

theorem pruneWithin_prunes (levels : Nat) (hwf : w.doc.WellFormed) (hsize : (w.doc.fragment node).size ≤ levels) :
    ∃ gone w', pruneWithin levels node w = .ok gone.length w' ∧ Prunes w w' [node] gone := by
  induction levels generalizing w node with
  | zero =>
    have hpos := (w.doc.fragment node).size_pos
    omega
  | succ levels ih =>
    have hsizes : ∀ c ∈ w.doc.children node, (w.doc.fragment c).size ≤ levels := by
      intro c hc
      have hlt := hwf.size_fragment_lt hc
      omega
    obtain ⟨gone, w₁, hrun₁, h₁⟩ := pruneEach_prunes ih hwf (hwf.nodup_children node)
      (fun c hc => hwf.mem_children_iff.1 hc) hsizes
    have hnot := h₁.not_mem_of_children hwf
    have hparent : w₁.doc.parent node = w.doc.parent node := by rw [h₁.parent_eq, if_neg hnot]
    have hcases := pruneNode_cases h₁.wf node
    rw [h₁.idle_iff hwf, hparent] at hcases
    rcases hcases with ⟨w₂, hrun₂, hkeep, hunlinked, hself⟩ | ⟨hrun₂, hself⟩
    · refine ⟨gone ++ [node], w₂, ?_, h₁.toUnlinked.append hunlinked, hkeep.trans h₁.run_eq, by simp, ?_, fun x => ?_⟩
      · simp only [pruneWithin, run_bind, run_view, hrun₁, hrun₂, run_pure, List.length_append, List.length_singleton]
      · refine List.nodup_append.2 ⟨h₁.nodup, List.nodup_singleton node, ?_⟩
        rintro x hx _ hx' rfl
        exact hnot (List.mem_singleton.1 hx' ▸ hx)
      · rw [h₁.mem_iff_or_self hwf, List.mem_append, List.mem_singleton, and_iff_left hself]
    · refine ⟨gone, w₁, ?_, h₁.toUnlinked, h₁.run_eq, h₁.eq_of_nil, h₁.nodup, fun x => ?_⟩
      · simp only [pruneWithin, run_bind, run_view, hrun₁, hrun₂, run_pure, Nat.add_zero]
      · rw [h₁.mem_iff_or_self hwf, or_iff_left]
        rintro ⟨-, hlinked, hrules⟩
        exact hself hlinked hrules

/-- Pruning always ends, and it takes away what it should. -/
theorem prune_prunes (hwf : w.doc.WellFormed) (node : Nat) :
    ∃ gone w', prune node w = .ok gone.length w' ∧ Prunes w w' [node] gone :=
  pruneWithin_prunes w.doc.next hwf (hwf.size_fragment_le_next node)

end Pass

/-! ### The whole tree -/

namespace Document

/-- The rules of the tree with nothing but rules below them, in document order. -/
def barren (doc : Document) : List Nat :=
  (doc.descendants root).filter fun x => (doc.descendants x).all fun y => (doc.kind y).isRule

theorem WellFormed.mem_barren {doc : Document} (hwf : doc.WellFormed) {x : Nat} :
    x ∈ doc.barren ↔ doc.Spans root x ∧ doc.OnlyRules x := by
  simp only [barren, List.mem_filter, List.all_eq_true, hwf.mem_descendants, OnlyRules]

theorem WellFormed.nodup_barren {doc : Document} (hwf : doc.WellFormed) : doc.barren.Nodup :=
  (hwf.nodup_descendants root).filter _

theorem length_barren_add (doc : Document) :
    doc.barren.length + ((doc.descendants root).filter (· ∉ doc.barren)).length = (doc.descendants root).length := by
  have hrest : (doc.descendants root).filter (· ∉ doc.barren) =
      (doc.descendants root).filter fun x => !(doc.descendants x).all fun y => (doc.kind y).isRule := by
    apply List.filter_congr
    intro x hx
    rw [Bool.eq_iff_iff]
    simp [barren, hx]
  rw [hrest, barren, ← List.length_eq_length_filter_add]

end Document

namespace Pass

variable {w w' : Workspace} {gone : List Nat}

/-- No rule below the root is left without content. -/
theorem Prunes.filled (h : Prunes w w' [root] gone) (hwf : w.doc.WellFormed)
    (hroot : (w.doc.kind root).isRule = false) {x : Nat} (hspan : w'.doc.Spans root x)
    (hrule : (w'.doc.kind x).isRule = true) : w'.doc.children x ≠ [] := by
  refine h.children_ne_nil hwf List.mem_cons_self hspan (fun hp => ?_) hrule
  rw [hspan.eq_of_parent_none hp, h.kind_eq, hroot] at hrule
  simp at hrule

theorem Prunes.mem_barren (h : Prunes w w' [root] gone) (hwf : w.doc.WellFormed)
    (hroot : (w.doc.kind root).isRule = false) (x : Nat) : x ∈ gone ↔ x ∈ w.doc.barren := by
  rw [h.mem_iff, hwf.mem_barren]
  simp only [List.mem_singleton, exists_eq_left]
  refine and_congr_right fun hspan => and_iff_right_of_imp fun hrules hp => ?_
  have hrule := hrules.isRule
  rw [hspan.eq_of_parent_none hp, hroot] at hrule
  simp at hrule

/-- Pruning a document whose root is no rule unlinks the barren rules. All other nodes of the tree stay, and every node
keeps its kind, its parent and the order of the rest of its children. The number that is returned is that of the nodes
the tree has lost. No rule without content is left in the tree, and pruning again does nothing. -/
theorem prune_takes_barren (w : Workspace) (hwf : w.doc.WellFormed) (hroot : (w.doc.kind root).isRule = false) :
    ∃ n w', prune root w = .ok n w' ∧ w'.doc.next = w.doc.next ∧
      (∀ x, w'.doc.kind x = w.doc.kind x ∧
        w'.doc.parent x = (if x ∈ w.doc.barren then none else w.doc.parent x) ∧
        w'.doc.children x = (w.doc.children x).filter (· ∉ w.doc.barren)) ∧
      w'.doc.descendants root = (w.doc.descendants root).filter (· ∉ w.doc.barren) ∧
      n + w'.doc.size = w.doc.size ∧
      (∀ x, w'.doc.Spans root x → (w'.doc.kind x).isRule = true → w'.doc.children x ≠ []) ∧
      prune root w' = .ok 0 w' := by
  obtain ⟨gone, w', hrun, h⟩ := prune_prunes hwf root
  obtain ⟨gone', w'', hagain, h'⟩ := prune_prunes h.wf root
  have hmem := h.mem_barren hwf hroot
  have hunlinked := h.toUnlinked.congr hmem
  have hstays : root ∉ gone := by
    intro hgone
    exact ((h.mem_iff root).1 hgone).2.1 hwf.parent_root
  have hdescendants : w'.doc.descendants root = (w.doc.descendants root).filter (· ∉ w.doc.barren) := by
    rw [h.descendants_eq hwf hstays]
    simp only [hmem]
  have hnone : gone' = [] := by
    rw [List.eq_nil_iff_forall_not_mem]
    intro x hx
    obtain ⟨⟨top, htop, hspan⟩, hlinked, hrules⟩ := (h'.mem_iff x).1 hx
    exact h.not_onlyRules hwf htop hspan hlinked hrules
  refine ⟨gone.length, w', hrun, hunlinked.next_eq, fun x => ⟨hunlinked.kind_eq x, hunlinked.parent_eq x,
    hunlinked.children_eq x⟩, hdescendants, ?_, fun x hx => h.filled hwf hroot hx, ?_⟩
  · have hlength : gone.length = w.doc.barren.length :=
      ((List.perm_ext_iff_of_nodup h.nodup hwf.nodup_barren).2 hmem).length_eq
    rw [hlength, size, size, hdescendants, w.doc.length_barren_add]
  · rw [hagain, h'.eq_of_nil hnone, hnone]
    rfl

/-- Rules inside of rules, and a conditional without branches in one of them. -/
def overgrown : Workspace where
  doc :=
    ⟨#[{ kind := .stylesheet none, slots := #[1, 4, 7, 8] },
       { kind := .rule ".a", parent := some 0, slots := #[2, 3] },
       { kind := .rule "p", parent := some 1 }, { kind := .rule "q", parent := some 1 },
       { kind := .rule ".b", parent := some 0, slots := #[5, 6] },
       { kind := .rule "p", parent := some 4 }, { kind := .conditional, parent := some 4 },
       { kind := .comment "", parent := some 0 }, { kind := .rule ".c", parent := some 0 }]⟩

theorem prune_overgrown :
    ∃ w', prune root overgrown = .ok 5 w' ∧ w'.doc.children root = [4, 7] ∧ w'.doc.children 4 = [6] ∧
      w'.doc.descendants root = [0, 4, 6, 7] ∧ prune root w' = .ok 0 w' := by
  have hwf : overgrown.doc.WellFormed :=
    (ofFragment_spec (f := ⟨.stylesheet none, [⟨.rule ".a", [⟨.rule "p", []⟩, ⟨.rule "q", []⟩]⟩,
      ⟨.rule ".b", [⟨.rule "p", []⟩, ⟨.conditional, []⟩]⟩, ⟨.comment "", []⟩, ⟨.rule ".c", []⟩]⟩) rfl).1
  obtain ⟨n, w', hrun, -, hnodes, hdescendants, hcount, -, hagain⟩ := prune_takes_barren overgrown hwf rfl
  have hbarren : overgrown.doc.barren = [1, 2, 3, 5, 8] := by decide +kernel
  have hleft : w'.doc.descendants root = [0, 4, 6, 7] := by
    rw [hdescendants, hbarren]
    decide +kernel
  have hsize : overgrown.doc.size = 9 := by decide +kernel
  obtain rfl : n = 5 := by
    rw [hsize, size, hleft, List.length_cons, List.length_cons, List.length_cons, List.length_singleton] at hcount
    omega
  refine ⟨w', hrun, ?_, ?_, hleft, hagain⟩
  · rw [(hnodes root).2.2, hbarren]
    decide +kernel
  · rw [(hnodes 4).2.2, hbarren]
    decide +kernel

end Pass

end NestedStyles
