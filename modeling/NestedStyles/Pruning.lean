import NestedStyles.Pass

/-!
# Pruning

Rules without content are taken away, from the inside out, so that a rule which held only empty rules goes as well.
-/

namespace NestedStyles.Pass

/-- Takes a node away if it is a rule without children, and says how many nodes that are. -/
def pruneNode (node : Nat) : Pass Nat := do
  let idle ← view fun w => (w.doc.kind node).isRule && (w.doc.children node).isEmpty
  match ← view (·.doc.parent node) with
  | some parent =>
    if idle then
      removeChild parent node
      report (.pruned node parent)
      pure 1
    else pure 0
  | none => pure 0

/-- Prunes with `prune` at each of some nodes, and adds up the numbers. -/
def pruneEach (prune : Nat → Pass Nat) : List Nat → Pass Nat
  | [] => pure 0
  | node :: nodes => do
    let here ← prune node
    let rest ← pruneEach prune nodes
    pure (here + rest)

/-- Prunes at a node and, for the given number of levels, below it. -/
def pruneWithin : (levels : Nat) → Nat → Pass Nat
  | 0, _ => pure 0
  | levels + 1, node => do
    let children ← view (·.doc.children node)
    let below ← pruneEach (pruneWithin levels) children
    let here ← pruneNode node
    pure (below + here)

/-- Takes the empty rules at a node and below it away, and says how many there were. -/
def prune (node : Nat) : Pass Nat := do
  let levels ← view (·.doc.next)
  pruneWithin levels node

end NestedStyles.Pass
