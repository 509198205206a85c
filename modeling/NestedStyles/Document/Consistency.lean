import Std.Data.TreeSet.Basic
import NestedStyles.Document.Edit

/-!
# Consistent documents

A document is well-formed when its links form a forest. The check looks at what can be reached from the root.
-/

namespace NestedStyles.Document

/-- Child lists and parents agree, nothing is listed twice, the root has no parent, and parents are ranked below their
children. -/
structure WellFormed (doc : Document) : Prop where
  next_pos : 0 < doc.next
  parent_root : doc.parent root = none
  mem_children_iff : ∀ {parent node}, node ∈ doc.children parent ↔ doc.parent node = some parent
  nodup_children : ∀ parent, (doc.children parent).Nodup
  ranked : ∃ rank : Nat → Nat, ∀ {node parent}, doc.parent node = some parent → rank parent < rank node

/-- Visits the nodes on a stack and those below them, each once, looking for a fault. -/
def checkFrom (doc : Document) : (steps : Nat) → (seen : Std.TreeSet Nat) → (stack : List Nat) →
    Except EditError Unit
  | 0, _, _ => .ok ()
  | _ + 1, _, [] => .ok ()
  | steps + 1, seen, id :: stack =>
    if seen.contains id then .error (.inconsistent (.reachedTwice id))
    else
      match (doc.children id).find? fun child => doc.parent child ≠ some id with
      | some child => .error (.inconsistent (.misplaced child id (doc.parent child)))
      | none => doc.checkFrom steps (seen.insert id) ((doc.children id).reverse ++ stack)

/-- Whether the links below the root are in order. Every node is seen once and at most one of them a second time. -/
def verify (doc : Document) : Except EditError Unit :=
  if (doc.parent root).isSome then .error (.inconsistent .rootHasParent)
  else doc.checkFrom (doc.next + 1) ∅ [root]

end NestedStyles.Document
