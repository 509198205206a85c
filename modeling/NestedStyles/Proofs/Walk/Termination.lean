import NestedStyles.Proofs.Walk.Loop

/-!
# The walk ends

What a walk has left suffices for the work ahead of it when an expansion has been made in the meantime, so that it
starts anew, or when it may visit as many nodes as there are behind the cursor. Each turn of the loop keeps this so
(`lasts_turn`): a visit either expands a mixin, of which there are only so many, or leaves fewer nodes to walk. By
induction on the visits until the next expansion, and on the expansions, the walk never gives up. So what it comes to is
what the loop without bounds comes to (`lasts_walkChildren`).
-/

namespace NestedStyles.Pass

open Document Semantics

/-- So many expansions, and so many visits until the next one, last for `work` more visits. -/
def Suffices (expansions visits : Nat) (run : Run) (work : Nat) : Prop :=
  run.expansionsLeft < expansions ∨ run.expansionsLeft = expansions ∧ work ≤ visits

/-- The loop comes to an end of its own wherever there is `enough` for the nodes behind its cursor. -/
def Lasts (enough : Run → Nat → Prop) (loop : Nat → Nat → Pass Unit) : Prop :=
  ∀ ⦃w : Workspace⦄ ⦃node : Nat⦄ ⦃pre todo : List Nat⦄, Cursor w node pre todo →
    enough w.run (Fragment.sizeAll (todo.map w.doc.fragment)) → Walks node pre.length w (loop node pre.length w)

variable {w w₁ w' : Workspace} {node child expansions visits : Nat}

theorem walk_run (walkBelow : Nat → Pass Unit) (node : Nat) (w : Workspace) :
    walk walkBelow node w = match visit node w with
      | .error e w' => .error e w'
      | .ok _ w₁ => match walkBelow node w₁ with
        | .error e w' => .error e w'
        | .ok _ w₂ =>
          .ok (hasLeft w₂ node (w.doc.parent node)) (leave node (w.doc.parent node) w₁.run.scope w₂) := by
  rw [walk]
  simp only [run_bind, run_view]
  cases visit node w with
  | error e w' => rfl
  | ok _ w₁ =>
    simp only
    cases walkBelow node w₁ with
    | error e w' => rfl
    | ok _ w₂ => cases w.doc.parent node <;> rfl

/-- There are not more nodes behind the cursor than in the document. -/
private theorem sizeAll_todo_le {pre todo : List Nat} (h : Cursor w node pre todo) :
    Fragment.sizeAll (todo.map w.doc.fragment) ≤ w.doc.next := by
  cases todo with
  | nil => exact Nat.zero_le _
  | cons child post =>
    have hlt := h.wf.sizeAll_children_lt (h.wf.parent_lt_next h.parent_eq)
    rw [h.children_eq, List.map_append, Fragment.sizeAll_append] at hlt
    omega

/-- What a reaction leaves to do below the node takes fewer visits, or an expansion has been made. -/
private theorem suffices_below {r : Reaction} {body : List Nat} {work : Nat}
    (hr : w.env.react w.run.lookup w.run.stats.mixinsExpanded (w.doc.fragment child) = .ok r)
    (hvisited : Visited child node w w₁ r body) (h : Suffices expansions visits w.run work)
    (hwork : (w.doc.fragment child).size ≤ work) :
    Suffices expansions visits w₁.run (Fragment.sizeAll ((w₁.doc.children child).map w₁.doc.fragment) + 1) := by
  have hexp := hvisited.expansions
  have hlimit := hvisited.setting.limit
  rw [hvisited.below]
  unfold Suffices Run.expansionsLeft at *
  rw [hlimit]
  rcases Env.react_cases hr with ⟨hr, hlt⟩ | ⟨hr, hsize⟩
  · have : w.run.stats.mixinsExpanded < w.run.expansionLimit := hlt
    omega
  · omega

/-- After a turn there is less to do, or an expansion has been made. -/
private theorem suffices_turned {r : Reaction} {pre post passed todo : List Nat}
    (hr : w.env.react w.run.lookup w.run.stats.mixinsExpanded (w.doc.fragment child) = .ok r)
    (hturned : Turned node child pre post w w' r passed todo)
    (h : Suffices expansions visits w.run (Fragment.sizeAll ((child :: post).map w.doc.fragment)))
    (hexp : r.expansions ≤ w'.run.stats.mixinsExpanded) :
    Suffices expansions visits w'.run (Fragment.sizeAll (todo.map w'.doc.fragment) + 1) := by
  obtain ⟨m₁, m₂, rfl, -, hcontents⟩ := hturned.contents
  have hlimit := hturned.advanced.setting.limit
  rw [hcontents]
  simp only [List.map_cons, List.map_append, Fragment.sizeAll_cons, Fragment.sizeAll_append] at h ⊢
  unfold Suffices Run.expansionsLeft at *
  rw [hlimit]
  rcases Env.react_cases hr with ⟨hr, hlt⟩ | ⟨hr, hsize⟩
  · have : w.run.stats.mixinsExpanded < w.run.expansionLimit := hlt
    omega
  · omega

/-- One visit is spent on the child. What is left has to last for the nodes below it, and then again for those that are
left of the loop. -/
theorem lasts_turn {onward : Nat → Nat → Pass Unit}
    (h : Lasts (fun run work => Suffices expansions visits run (work + 1)) onward) :
    Lasts (Suffices expansions visits) (turn onward) := by
  intro w node pre todo hcursor henough
  have hhead := hcursor.childAt?_eq
  rw [turn]
  simp only [run_bind, run_view]
  cases todo with
  | nil =>
    have hnone : w.doc.childAt? node pre.length = none := hhead
    simp only [hnone, run_pure]
    exact Walks.done hnone
  | cons child post =>
    have hchild : w.doc.childAt? node pre.length = some child := hhead
    have hparent := hcursor.parent_eq
    simp only [hchild, run_bind, walk_run]
    have hreacts := visit_reacts hcursor.wf hparent
    cases hvisit : visit child w with
    | error e w' => exact Walks.refused hchild hvisit
    | ok _ w₁ =>
      rw [hvisit] at hreacts
      obtain ⟨r, body, hr, hvisited⟩ := hreacts
      have hstart := Cursor.start hvisited.wf child
      have hbelow : Walks child 0 w₁ (onward child 0 w₁) :=
        h hstart (suffices_below hr hvisited henough (by simp))
      have hswept := hbelow.swept hstart rfl
      simp only
      generalize onward child 0 w₁ = outcome at hbelow hswept ⊢
      cases outcome with
      | error e w' => exact Walks.stopped hchild hvisit hbelow
      | ok _ w₂ =>
        obtain ⟨passed, todo, hturned⟩ := hcursor.turned hvisited hr hswept.1 hswept.2
        have hexp : r.expansions ≤ w₂.run.stats.mixinsExpanded := hvisited.expansions ▸ hswept.1.le_expansions
        have hindex : (if hasLeft w₂ child (some node) then pre.length else pre.length + 1) = passed.length :=
          hturned.length_passed
        refine Walks.next hchild hvisit hbelow ?_
        simp only [hparent, hindex]
        exact h hturned.cursor (suffices_turned hr hturned henough hexp)

theorem lasts_renewing {anew : Nat → Nat → Nat → Pass Unit} {onward : Nat → Nat → Pass Unit}
    (hanew : ∀ fresh, Lasts (fun run work => run.expansionsLeft < expansions ∧ work ≤ fresh) (anew fresh))
    (honward : Lasts (fun run work => run.expansionsLeft = expansions ∧ work + 1 ≤ visits) onward) :
    Lasts (fun run work => Suffices expansions visits run (work + 1)) (renewing expansions anew onward) := by
  intro w node pre todo hcursor henough
  rw [renewing]
  simp only [run_bind, run_view]
  split
  · next hlt => exact hanew w.doc.next hcursor ⟨hlt, sizeAll_todo_le hcursor⟩
  · next hnot => exact honward hcursor (henough.resolve_left hnot)

theorem lasts_walkUntil {anew : Nat → Nat → Nat → Pass Unit}
    (hanew : ∀ fresh, Lasts (fun run work => run.expansionsLeft < expansions ∧ work ≤ fresh) (anew fresh))
    (visits : Nat) : Lasts (Suffices expansions visits) (walkUntil expansions anew visits) := by
  induction visits with
  | zero =>
    refine lasts_turn (lasts_renewing hanew ?_)
    rintro w node pre todo - ⟨-, hwork⟩
    omega
  | succ visits ih =>
    refine lasts_turn (lasts_renewing hanew ?_)
    rintro w node pre todo hcursor ⟨hleft, hwork⟩
    exact ih hcursor (Or.inr ⟨hleft, Nat.le_of_succ_le_succ hwork⟩)

/-- With as many expansions and visits as cover the nodes behind the cursor, the loop does what it does without
bounds. -/
theorem lasts_walkChildren (expansions visits : Nat) :
    Lasts (Suffices expansions visits) (walkChildren expansions visits) := by
  induction expansions generalizing visits with
  | zero =>
    refine lasts_walkUntil (fun fresh => ?_) visits
    rintro w node pre todo - ⟨hleft, -⟩
    omega
  | succ expansions ih =>
    refine lasts_walkUntil (fun fresh => ?_) visits
    rintro w node pre todo hcursor ⟨hleft, hwork⟩
    have henough : Suffices expansions fresh w.run (Fragment.sizeAll (todo.map w.doc.fragment)) := by
      unfold Suffices
      omega
    exact ih fresh hcursor henough

/-- Every evaluation comes to an end of its own. -/
theorem evaluates_evaluate (hwf : w.doc.WellFormed) (hlt : node < w.doc.next) : Evaluates node w (evaluate node w) := by
  have hbelow : ∀ {w₁}, visit node w = .ok () w₁ →
      Walks node 0 w₁ (walkChildren w.run.expansionsLeft w.doc.next node 0 w₁) := by
    intro w₁ hvisit
    rcases hparent : w.doc.parent node with _ | parent
    · obtain ⟨w', kind, hvisit', hdoc, hexp, hsetting, _⟩ := visit_of_parent_none hwf hlt hparent
      obtain ⟨-, rfl⟩ : () = () ∧ w₁ = w' := by simpa [hvisit] using hvisit'
      refine lasts_walkChildren _ _ (Cursor.start hdoc.wf node) (Or.inr ⟨?_, ?_⟩)
      · simp only [Run.expansionsLeft, hexp, hsetting.limit]
      · rw [hdoc.fragments_below hwf]
        exact Nat.le_of_lt (hwf.sizeAll_children_lt hlt)
    · have hreacts := visit_reacts hwf hparent
      rw [hvisit] at hreacts
      obtain ⟨r, body, hr, hvisited⟩ := hreacts
      have henough := suffices_below hr hvisited (Or.inr ⟨rfl, Nat.le_refl _⟩) (hwf.size_fragment_le hlt)
      exact lasts_walkChildren _ _ (Cursor.start hvisited.wf node)
        (henough.imp_right fun ⟨hleft, hwork⟩ => ⟨hleft, Nat.le_of_succ_le hwork⟩)
  unfold evaluate
  simp only [run_bind, run_view, walk_run]
  cases hvisit : visit node w with
  | error e w' => exact Evaluates.refused hvisit
  | ok _ w₁ =>
    have h := hbelow hvisit
    simp only
    generalize walkChildren _ _ node 0 w₁ = outcome at h ⊢
    cases outcome with
    | error e w' => exact Evaluates.stopped hvisit h
    | ok _ w₂ => exact Evaluates.done hvisit h

end NestedStyles.Pass
