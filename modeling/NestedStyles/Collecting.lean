import NestedStyles.Pass

/-!
# Collecting definitions

Mixin definitions are taken out of the document and remembered by name, the last one of a name being the one that
counts. Definitions inside a definition stay where they are. Conditionals are noted as still to be decided.
-/

namespace NestedStyles.Pass

/-- Remembers a node as the definition of a mixin, and takes it out of the document. -/
def registerMixin (name : String) (node : Nat) : Pass Unit := do
  detach node
  match ← view (·.run.mixins[name]?) with
  | some previous => report (.redefined name node previous)
  | none => pure ()
  editRun fun run =>
    { run with
      mixins := run.mixins.insert name node
      stats.mixinsCollected := run.stats.mixinsCollected + 1 }

/-- Collects the definitions at a node and, for the given number of levels, below it. -/
def collectWithin : (levels : Nat) → Nat → Pass Unit
  | levels, node => do
    match ← view (·.doc.kind node) with
    | .mixin name _ =>
      report (.collected name node)
      registerMixin name node
    | kind =>
      if kind = .conditional then editRun fun run => (run.registerConditional node).1
      match levels with
      | 0 => pure ()
      | levels + 1 =>
        let children ← view (·.doc.children node)
        children.forM (collectWithin levels)

/-- Collects the definitions at a node and below it. -/
def collect (node : Nat) : Pass Unit := do
  let levels ← view (·.doc.next)
  collectWithin levels node

end NestedStyles.Pass
