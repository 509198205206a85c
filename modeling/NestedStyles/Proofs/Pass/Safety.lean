import NestedStyles.Proofs.Pass.Collecting
import NestedStyles.Proofs.Pass.Flattening
import NestedStyles.Proofs.Pass.Pruning

/-!
# Safe passes

Between two passes the document is well-formed, and no more mixins have been expanded than allowed (`Sound`). A pass is
safe when it leaves such a state behind, also when it fails, and never fails for a reason of its own. Safe passes
compose (`Safe.bind`). Collecting, flattening and pruning are safe.
-/

namespace NestedStyles

open Document

/-- The document is well-formed, and at most `limit` mixins have been expanded, as many as are allowed. -/
structure Workspace.Sound (w : Workspace) (limit : Nat) : Prop where
  wf : w.doc.WellFormed
  limit_eq : w.run.expansionLimit = limit
  expansions_le : w.run.stats.mixinsExpanded ≤ limit

theorem Workspace.Sound.of_run_eq {w w' : Workspace} {limit : Nat} (h : w.Sound limit) (hwf : w'.doc.WellFormed)
    (hrun : w'.run = w.run) : w'.Sound limit :=
  ⟨hwf, hrun ▸ h.limit_eq, hrun ▸ h.expansions_le⟩

namespace Pass

variable {α β : Type} {limit : Nat}

/-- The state that is left behind is sound, and an error is not internal. -/
def SoundOutcome (limit : Nat) : Outcome α → Prop
  | .ok _ w => w.Sound limit
  | .error e w => w.Sound limit ∧ e.isInternal = false

/-- In a sound state the pass comes to a sound outcome. -/
def Safe (limit : Nat) (x : Pass α) : Prop := ∀ ⦃w⦄, w.Sound limit → SoundOutcome limit (x w)

/-! ### Steps -/

theorem Safe.bind {x : Pass α} {f : α → Pass β} (hx : Safe limit x) (hf : ∀ a, Safe limit (f a)) :
    Safe limit (x >>= f) := by
  intro w hw
  have hfirst := hx hw
  rw [run_bind]
  generalize x w = outcome at hfirst ⊢
  cases outcome with
  | ok a w₁ => exact hf a hfirst
  | error e w₁ => exact hfirst

theorem safe_pure (a : α) : Safe limit (pure a) := fun _ hw => hw

theorem safe_view (f : Workspace → α) : Safe limit (view f) := fun _ hw => hw

theorem safe_report (event : Event) : Safe limit (report event) :=
  fun _ hw => ⟨hw.wf, hw.limit_eq, hw.expansions_le⟩

theorem safe_editRun {f : Run → Run}
    (h : ∀ run, (f run).expansionLimit = run.expansionLimit ∧ (f run).stats.mixinsExpanded = run.stats.mixinsExpanded) :
    Safe limit (editRun f) :=
  fun w hw => ⟨hw.wf, (h w.run).1.trans hw.limit_eq, (h w.run).2 ▸ hw.expansions_le⟩

/-! ### Collecting, flattening and pruning -/

theorem safe_collect : Safe limit (collect root) := by
  intro w hw
  obtain ⟨w', hrun, hgathers⟩ := collect_run hw.wf
  obtain ⟨-, hlimit⟩ := Run.settings_meetAll w.doc (w.doc.exposed root) w.run
  rw [hrun]
  refine ⟨hgathers.unlinked.wf, ?_, ?_⟩
  · rw [hgathers.run_eq, hlimit, hw.limit_eq]
  · rw [hgathers.run_eq, Run.stats_meetAll]
    exact hw.expansions_le

theorem safe_flatten (node : Nat) : Safe limit (flatten node) := by
  intro w hw
  obtain ⟨n, w', hrun, -, hkeep, -, hflattened⟩ := flatten_flattens hw.wf node
  rw [hrun]
  exact hw.of_run_eq hflattened.wf hkeep

theorem safe_prune (node : Nat) : Safe limit (prune node) := by
  intro w hw
  obtain ⟨gone, w', hrun, hprunes⟩ := prune_prunes hw.wf node
  rw [hrun]
  exact hw.of_run_eq hprunes.wf hprunes.run_eq

end Pass

end NestedStyles
