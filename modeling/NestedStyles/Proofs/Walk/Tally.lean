import NestedStyles.Proofs.Walk.Steps

/-!
# Counting visits

A run counts its visits and logs each of them. A visit adds one to the count and its node to the log (`tally_visit`).
Nothing else that evaluation does touches either of them.
-/

namespace NestedStyles

/-- The number of visits that were counted, and the nodes of those that were logged, the latest first. -/
def Workspace.tally (w : Workspace) : Nat × List Nat := (w.run.stats.visits, w.log.filterMap Event.visited?)

namespace Pass

variable {w w' : Workspace} {node : Nat}

theorem Step.tally_eq {home : Option Nat} (h : Step home w w') : w'.tally = w.tally := by
  cases h with
  | reported hevents =>
    rename_i events
    have hnone : events.filterMap Event.visited? = [] := List.filterMap_eq_nil_iff.2 hevents
    simp [Workspace.tally, hnone]
  | resolved node =>
    refine Prod.ext ?_ rfl
    show (w.run.resolveConditional node).stats.visits = _
    unfold Run.resolveConditional
    split <;> rfl
  | _ => rfl

/-- A visit counts and logs itself, and nothing else. -/
theorem tally_visit (h : visit node w = .ok () w') : w'.tally = (w.tally.1 + 1, node :: w.tally.2) :=
  (visit_steps h).eq Step.tally_eq

theorem tally_leave (node : Nat) (home : Option Nat) (scope : Scope) (w : Workspace) :
    (leave node home scope w).tally = w.tally := by
  cases home <;> rfl

end Pass

end NestedStyles
