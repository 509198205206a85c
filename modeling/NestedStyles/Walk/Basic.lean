import NestedStyles.Walk.Visit

/-!
# The evaluation walk

The walk visits a node and then walks its children from left to right. A visit may take its node away and may insert
nodes after it, which are then walked in turn. Variables bound below a node are forgotten when the walk leaves
it.

The walk ends because a mixin can be expanded only so often, and between two expansions no node is visited twice. It
recurs on the expansions that are left, and until the next one on the nodes that are left.
-/

namespace NestedStyles.Pass

/-- Visits a node, walks what is below it, and says whether it has left the parent it had before. -/
def walk (walkBelow : Nat → Pass Unit) (node : Nat) : Pass Bool := do
  let home ← view (·.doc.parent node)
  visit node
  let scope ← view (·.run.scope)
  walkBelow node
  editRun fun run => { run with scope := scope }
  match home with
  | some parent => editRun (·.clearInsertionPoint parent)
  | none => pure ()
  editRun (·.clearInsertionPoint node)
  match home with
  | some parent => view fun w => w.doc.parent node ≠ some parent
  | none => pure false

/-- Walks the child of a node at position `index`, and then goes on with the children that are left. -/
def turn (onward : (node index : Nat) → Pass Unit) (node index : Nat) : Pass Unit := do
  match ← view (·.doc.childAt? node index) with
  | none => pure ()
  | some child =>
    let gone ← walk (onward · 0) child
    onward node (if gone then index else index + 1)

/-- Starts anew, with as many nodes as there are now, once fewer expansions are left than there were. -/
def renewing (expansions : Nat) (anew : (visits node index : Nat) → Pass Unit) (onward : (node index : Nat) → Pass Unit)
    (node index : Nat) : Pass Unit := do
  if (← view (·.run.expansionsLeft)) < expansions then anew (← view (·.doc.next)) node index
  else onward node index

/-- Walks the children of a node from position `index` on. Until the next expansion, so many nodes may be visited. -/
def walkUntil (expansions : Nat) (anew : (visits node index : Nat) → Pass Unit) :
    (visits node index : Nat) → Pass Unit
  | 0 => turn (renewing expansions anew fun _ _ => fail .unfinished)
  | visits + 1 => turn (renewing expansions anew (walkUntil expansions anew visits))

/-- Walks the children of a node from position `index` on, with so many expansions and, until the next one, so many
visits. -/
def walkChildren : (expansions visits node index : Nat) → Pass Unit
  | 0 => walkUntil 0 fun _ _ _ => fail .unfinished
  | expansions + 1 => walkUntil (expansions + 1) (walkChildren expansions)

/-- Evaluates a node and all that is below it, and says whether it has left the parent it had before. -/
def evaluate (node : Nat) : Pass Bool := do
  let expansions ← view (·.run.expansionsLeft)
  let visits ← view (·.doc.next)
  walk (walkChildren expansions visits · 0) node

end NestedStyles.Pass
