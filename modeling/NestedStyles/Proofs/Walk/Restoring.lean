import NestedStyles.Proofs.Walk.Steps
import NestedStyles.Proofs.Walk.Termination

/-!
# What an evaluation leaves of a run

An evaluation forgets what it binds below a node when it leaves that node, so the scope afterwards is that of the visit
of the node itself. An insertion point is set only under the parent of a node that is visited, and it is cleared when
the walk leaves the node. So there are no new ones in the end, and none at the node or at the parent that it had
(`evaluate_restores`). Beside these two, a step of a visit can only take conditionals from those to be decided, and
count them as resolved (`Booked`).
-/

namespace NestedStyles

open Document

namespace Pass

/-- The books of the run are kept from one state to the other: no conditional is added to those to be decided, and as
many are counted as resolved as have been taken from them. The conditionals themselves stay what they are. -/
structure Booked (w w' : Workspace) : Prop where
  setting : w.run.SameSetting w'.run
  pending : ∀ x ∈ w'.run.pending, x ∈ w.run.pending
  balance : w'.run.stats.conditionalsResolved + w'.run.pending.size =
    w.run.stats.conditionalsResolved + w.run.pending.size
  imports : w'.run.stats.imports = w.run.stats.imports
  collected : w'.run.stats.mixinsCollected = w.run.stats.mixinsCollected
  flattened : w'.run.stats.flattened = w.run.stats.flattened
  pruned : w'.run.stats.pruned = w.run.stats.pruned
  conditional : ∀ x, w.doc.kind x = .conditional → w'.doc.kind x = .conditional

variable {w w₁ w₂ w' : Workspace} {home : Option Nat} {node : Nat}

namespace Booked

theorem refl (w : Workspace) : Booked w w where
  setting := Run.SameSetting.refl w.run
  pending _ hx := hx
  balance := rfl
  imports := rfl
  collected := rfl
  flattened := rfl
  pruned := rfl
  conditional _ hx := hx

theorem trans (h₁ : Booked w w₁) (h₂ : Booked w₁ w₂) : Booked w w₂ where
  setting := h₁.setting.trans h₂.setting
  pending x hx := h₁.pending x (h₂.pending x hx)
  balance := h₂.balance.trans h₁.balance
  imports := h₂.imports.trans h₁.imports
  collected := h₂.collected.trans h₁.collected
  flattened := h₂.flattened.trans h₁.flattened
  pruned := h₂.pruned.trans h₁.pruned
  conditional x hx := h₂.conditional x (h₁.conditional x hx)

end Booked

/-- A conditional that is resolved goes from the one count to the other. -/
theorem booked_resolveConditional (w : Workspace) (node : Nat) :
    Booked w { w with run := w.run.resolveConditional node } := by
  by_cases hpending : w.run.pending.contains node = true
  · have hresolved : w.run.resolveConditional node =
        { w.run with
          pending := w.run.pending.erase node
          stats.conditionalsResolved := w.run.stats.conditionalsResolved + 1 } := if_pos hpending
    have hsize : 0 < w.run.pending.size := by
      rw [Nat.pos_iff_ne_zero]
      intro hzero
      have hempty : w.run.pending.isEmpty = true := by
        rw [Std.TreeSet.isEmpty_eq_size_eq_zero, hzero]
        rfl
      simp [Std.TreeSet.contains_of_isEmpty hempty] at hpending
    rw [hresolved]
    refine { Booked.refl w with
      setting := ⟨rfl, rfl, rfl, rfl, rfl⟩
      pending := fun x hx => (Std.TreeSet.mem_erase.1 hx).2
      balance := ?_ }
    show w.run.stats.conditionalsResolved + 1 + (w.run.pending.erase node).size = _
    rw [Std.TreeSet.size_erase, if_pos hpending]
    omega
  · have hsame : w.run.resolveConditional node = w.run := if_neg hpending
    rw [hsame]
    exact Booked.refl w

theorem Step.booked (h : Step home w w') : Booked w w' := by
  cases h with
  | linked hkind => exact { Booked.refl w with conditional := hkind }
  | reported => exact { Booked.refl w with }
  | pointed => exact { Booked.refl w with setting := ⟨rfl, rfl, rfl, rfl, rfl⟩ }
  | counted => exact { Booked.refl w with setting := ⟨rfl, rfl, rfl, rfl, rfl⟩ }
  | resolved node => exact booked_resolveConditional w node

theorem Steps.booked (h : Steps home w w') : Booked w w' := by
  induction h with
  | refl => exact Booked.refl w
  | tail _ hstep ih => exact ih.trans hstep.booked

theorem booked_of_visit (h : visit node w = .ok () w') : Booked w w' := by
  have hbegun : Booked w (begun w node) := { Booked.refl w with setting := ⟨rfl, rfl, rfl, rfl, rfl⟩ }
  exact hbegun.trans (visit_steps h).booked

theorem scope_of_visit (h : visit node w = .ok () w') : w'.run.scope = scopeAfter w node := by
  refine (visit_steps h).eq (f := fun w => w.run.scope) fun hstep => ?_
  cases hstep with
  | resolved node =>
    show (Run.resolveConditional _ node).scope = _
    unfold Run.resolveConditional
    split <;> rfl
  | _ => rfl

/-- A visit sets no insertion point but that of the parent. -/
theorem points_of_visit (h : visit node w = .ok () w') {k : Nat} (hk : w.doc.parent node ≠ some k) :
    w'.run.insertionPoints[k]? = w.run.insertionPoints[k]? := by
  refine (visit_steps h).eq (f := fun w => w.run.insertionPoints[k]?) fun hstep => ?_
  cases hstep with
  | pointed hparent =>
    show (Std.TreeMap.insert _ _ _)[k]? = _
    rw [Std.TreeMap.getElem?_insert, if_neg]
    rw [Std.compare_eq_iff_eq]
    rintro rfl
    exact hk hparent
  | resolved node =>
    show (Run.resolveConditional _ node).insertionPoints[k]? = _
    unfold Run.resolveConditional
    split <;> rfl
  | _ => rfl

/-! ### The walk -/

theorem booked_leave (node : Nat) (home : Option Nat) (scope : Scope) (w : Workspace) :
    Booked w (leave node home scope w) := by
  cases home <;> exact { Booked.refl w with setting := ⟨rfl, rfl, rfl, rfl, rfl⟩ }

/-- What is left of the insertion points when the walk leaves a node. -/
theorem points_of_leave {scope : Scope} {k last : Nat}
    (h : (leave node home scope w).run.insertionPoints[k]? = some last) :
    w.run.insertionPoints[k]? = some last ∧ k ≠ node ∧ home ≠ some k := by
  cases home with
  | none =>
    change (w.run.insertionPoints.erase node)[k]? = some last at h
    rw [Std.TreeMap.getElem?_erase] at h
    split at h
    · simp at h
    · next hne =>
      rw [Std.compare_eq_iff_eq] at hne
      exact ⟨h, Ne.symm hne, by simp⟩
  | some parent =>
    rw [insertionPoints_leave] at h
    split at h
    · simp at h
    · next hne =>
      rw [not_or] at hne
      exact ⟨h, hne.1, fun hp => hne.2 (Option.some.inj hp).symm⟩

theorem Walks.booked {index : Nat} {outcome : Outcome Unit} (h : Walks node index w outcome)
    (hok : outcome = .ok () w') : Booked w w' := by
  induction h generalizing w' with
  | done hchild =>
    obtain ⟨⟩ := hok
    exact Booked.refl _
  | refused hchild hvisit => cases hok
  | stopped hchild hvisit hbelow => cases hok
  | next hchild hvisit hbelow hrest ih ihrest =>
    exact (booked_of_visit hvisit).trans ((ih rfl).trans ((booked_leave _ _ _ _).trans (ihrest hok)))

/-- After the loop over the children of a node there are no new insertion points. The one that a visit sets is cleared
when the walk leaves the visited node, and what is below that node sets none outside. -/
theorem Walks.points {index : Nat} {outcome : Outcome Unit} (h : Walks node index w outcome)
    (hok : outcome = .ok () w') {k last : Nat} (hk : w'.run.insertionPoints[k]? = some last) :
    w.run.insertionPoints[k]? = some last := by
  induction h generalizing w' with
  | done hchild =>
    obtain ⟨⟩ := hok
    exact hk
  | refused hchild hvisit => cases hok
  | stopped hchild hvisit hbelow => cases hok
  | next hchild hvisit hbelow hrest ih ihrest =>
    obtain ⟨hbefore, -, hhome⟩ := points_of_leave (ihrest hok hk)
    rw [← points_of_visit hvisit hhome]
    exact ih rfl hbefore

theorem booked_of_evaluate {left : Bool} (hwf : w.doc.WellFormed) (hlt : node < w.doc.next)
    (hrun : evaluate node w = .ok left w') : Booked w w' := by
  have hends := evaluates_evaluate hwf hlt
  rw [hrun] at hends
  cases hends with
  | done hvisit hbelow => exact (booked_of_visit hvisit).trans ((hbelow.booked rfl).trans (booked_leave _ _ _ _))

/-- An evaluation of a node restores the run. The scope is the one before, with the name bound if the node is an
assignment that takes effect. The insertion points that are left were there before, and none of them is at the node or
at its parent. The mixins and the active stylesheet are the same, and so are the counters of the other passes.
Conditionals to be decided are only taken away. -/
theorem evaluate_restores (w w' : Workspace) (node : Nat) (left : Bool) (hwf : w.doc.WellFormed)
    (hlt : node < w.doc.next) (hrun : evaluate node w = .ok left w') :
    w'.run.scope = scopeAfter w node ∧
      (∀ k last : Nat, w'.run.insertionPoints[k]? = some last →
        w.run.insertionPoints[k]? = some last ∧ k ≠ node ∧ w.doc.parent node ≠ some k) ∧
      (w.run.insertionPoints.isEmpty = true → w'.run.insertionPoints.isEmpty = true) ∧
      w'.run.mixins = w.run.mixins ∧ w'.run.active = w.run.active ∧
      (∀ x ∈ w'.run.pending, x ∈ w.run.pending) ∧
      w'.run.stats.imports = w.run.stats.imports ∧ w'.run.stats.mixinsCollected = w.run.stats.mixinsCollected ∧
      w'.run.stats.flattened = w.run.stats.flattened ∧ w'.run.stats.pruned = w.run.stats.pruned := by
  have hbooked := booked_of_evaluate hwf hlt hrun
  have hends := evaluates_evaluate hwf hlt
  rw [hrun] at hends
  cases hends with
  | @done w₁ w₂ hvisit hbelow =>
    have hscope : (leave node (w.doc.parent node) w₁.run.scope w₂).run.scope = w₁.run.scope := by
      cases w.doc.parent node <;> rfl
    have hpoints : ∀ k last : Nat,
        (leave node (w.doc.parent node) w₁.run.scope w₂).run.insertionPoints[k]? = some last →
          w.run.insertionPoints[k]? = some last ∧ k ≠ node ∧ w.doc.parent node ≠ some k := by
      intro k last hk
      obtain ⟨hbefore, hnode, hhome⟩ := points_of_leave hk
      rw [← points_of_visit hvisit hhome]
      exact ⟨hbelow.points rfl hbefore, hnode, hhome⟩
    refine ⟨hscope.trans (scope_of_visit hvisit), hpoints, ?_, hbooked.setting.mixins, hbooked.setting.active,
      hbooked.pending, hbooked.imports, hbooked.collected, hbooked.flattened, hbooked.pruned⟩
    intro hempty
    rw [Std.TreeMap.isEmpty_iff_forall_not_mem] at hempty ⊢
    intro k hk
    obtain ⟨last, hlast⟩ := Option.isSome_iff_exists.1 (Std.TreeMap.isSome_getElem?_iff_mem.2 hk)
    exact hempty k (Std.TreeMap.isSome_getElem?_iff_mem.1 (by rw [(hpoints k last hlast).1]; rfl))

/-- A rule with a variable and a conditional in it, and an assignment to the same variable. The run is in the middle of
its work: another variable is bound, and there are insertion points and conditionals to be decided. -/
def halfway : Workspace where
  doc :=
    ⟨#[{ kind := .stylesheet none, slots := #[1, 6] }, { kind := .rule ".a", parent := some 0, slots := #[2, 3] },
       { kind := .assignment "x" "1" false, parent := some 1 },
       { kind := .conditional, parent := some 1, slots := #[4] },
       { kind := .branch none, parent := some 3, slots := #[5] },
       { kind := .declaration "p" "$x", parent := some 4 },
       { kind := .assignment "x" "$y$y" true, parent := some 0 }]⟩
  run :=
    { scope := (∅ : Scope).insert "y" { value := "2" }
      pending := ((∅ : Std.TreeSet Nat).insert 3).insert 9
      insertionPoints := (((∅ : Std.TreeMap Nat Nat).insert 0 1).insert 1 2).insert 7 8
      stats.imports := 4 }

theorem evaluate_halfway :
    (∃ left w', evaluate 1 halfway = .ok left w' ∧ w'.run.scope = halfway.run.scope ∧
      w'.run.insertionPoints[0]? = none ∧ w'.run.insertionPoints[1]? = none ∧ w'.run.stats.imports = 4 ∧
      ∀ x ∈ w'.run.pending, x = 3 ∨ x = 9) ∧
    ∃ left w', evaluate 6 halfway = .ok left w' ∧
      w'.run.scope = halfway.run.scope.insert "x" { value := "22", origin := some 6 } := by
  have hwf : halfway.doc.WellFormed :=
    (ofFragment_spec (f := ⟨.stylesheet none, [⟨.rule ".a", [⟨.assignment "x" "1" false, []⟩,
      ⟨.conditional, [⟨.branch none, [⟨.declaration "p" "$x", []⟩]⟩]⟩]⟩, ⟨.assignment "x" "$y$y" true, []⟩]⟩) rfl).1
  constructor
  · have hresult : Outcome.result (evaluate 1 halfway) = .ok false := by decide +kernel
    obtain ⟨w', hrun⟩ := Outcome.exists_of_result_eq_ok hresult
    obtain ⟨hscope, hpoints, -, -, -, hpending, himports, -⟩ :=
      evaluate_restores halfway w' 1 false hwf (by decide) hrun
    refine ⟨false, w', hrun, hscope, ?_, ?_, himports, ?_⟩
    · rw [Option.eq_none_iff_forall_ne_some]
      intro last hlast
      exact (hpoints 0 last hlast).2.2 rfl
    · rw [Option.eq_none_iff_forall_ne_some]
      intro last hlast
      exact (hpoints 1 last hlast).2.1 rfl
    · intro x hx
      have hmem := hpending x hx
      simp only [halfway, Std.TreeSet.mem_insert, Std.compare_eq_iff_eq] at hmem
      rcases hmem with rfl | rfl | hmem
      · exact Or.inr rfl
      · exact Or.inl rfl
      · simp at hmem
  · have hresult : Outcome.result (evaluate 6 halfway) = .ok true := by decide +kernel
    obtain ⟨w', hrun⟩ := Outcome.exists_of_result_eq_ok hresult
    have hassigned : scopeAfter halfway 6 = halfway.run.scope.insert "x" { value := "22", origin := some 6 } := by
      have hunbound : halfway.run.scope.contains "x" = false := by decide +kernel
      have hvalue : halfway.run.substitute "$y$y" = "22" := by decide +kernel
      show assigned halfway.run 6 "x" "$y$y" true = _
      rw [assigned, hunbound, hvalue]
      rfl
    exact ⟨true, w', hrun, (evaluate_restores halfway w' 6 true hwf (by decide) hrun).1.trans hassigned⟩

end Pass

end NestedStyles
