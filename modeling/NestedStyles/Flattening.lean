import NestedStyles.Pass
import NestedStyles.Selector

/-!
# Flattening

Rules inside rules move up to the top level, right behind the rule they were in, with their selector combined with the
one around them. A rule that was deeper follows the rule it was in.
-/

namespace NestedStyles.Pass

/-- Takes the rules among some children of a rule with the selector `outer` out of it. With `take` doing the same below
a rule, the rules are listed in document order and have their selectors combined. -/
def takeAmong (take : Nat → Pass (List Nat)) (rule : Nat) (outer : String) : List Nat → Pass (List Nat)
  | [] => pure []
  | child :: children => do
    match ← view (·.doc.kind child) with
    | .rule inner =>
      let selector := Selector.combine outer inner
      report (.moving child rule selector)
      editDocument (·.setKind child (.rule selector))
      removeChild rule child
      let deeper ← take child
      let others ← takeAmong take rule outer children
      pure (child :: deeper ++ others)
    | _ => takeAmong take rule outer children

/-- Takes the rules below a rule out of it, for the given number of levels. -/
def takeNested : (levels : Nat) → (rule : Nat) → Pass (List Nat)
  | 0, _ => pure []
  | levels + 1, rule => do
    match ← view (·.doc.kind rule) with
    | .rule outer =>
      let children ← view (·.doc.children rule)
      takeAmong (takeNested levels) rule outer children
    | _ => pure []

/-- Moves the rules below each child of `root` up behind it, from position `index` on, and says how many were moved.
What has been put in is passed over. Every step passes a node, so there are no more steps than nodes. -/
def flattenFrom (levels root : Nat) : (steps : Nat) → (index : Nat) → Pass Nat
  | 0, _ => fail .unfinished
  | steps + 1, index => do
    match ← view (·.doc.childAt? root index) with
    | none => pure 0
    | some top =>
      let nested ← takeNested levels top
      insertChain root top nested
      let rest ← flattenFrom levels root steps (index + nested.length + 1)
      pure (nested.length + rest)

/-- Moves the rules that are nested below the children of `root` up among them, and says how many were moved. -/
def flatten (root : Nat) : Pass Nat := do
  let nodes ← view (·.doc.next)
  flattenFrom nodes root nodes 0

end NestedStyles.Pass
