import NestedStyles.Document.Edit
import NestedStyles.Fragment.Basic

/-!
# Subtrees of a document

The nodes below a node, the fragment they form, and new nodes made from a fragment.
-/

namespace NestedStyles.Document

/-- The nodes on a stack and those below them, in pre-order, for at most `steps` nodes. -/
def sweep (doc : Document) : (steps : Nat) → (stack : List Nat) → List Nat
  | 0, _ => []
  | _ + 1, [] => []
  | steps + 1, id :: stack => id :: doc.sweep steps (doc.children id ++ stack)

/-- A node and all nodes below it, in pre-order. -/
def descendants (doc : Document) (id : Nat) : List Nat := doc.sweep doc.next [id]

/-- The number of nodes from the root down. -/
def size (doc : Document) : Nat := (doc.descendants root).length

def isEmpty (doc : Document) : Bool := (doc.children root).isEmpty

/-- The fragment at a node, down to the given depth below it. -/
def fragmentWithin (doc : Document) : (depth : Nat) → Nat → Fragment
  | 0, id => ⟨doc.kind id, []⟩
  | depth + 1, id => ⟨doc.kind id, (doc.children id).map (doc.fragmentWithin depth)⟩

/-- The node and all that is below it, by value. No node is deeper than there are nodes. -/
def fragment (doc : Document) (id : Nat) : Fragment := doc.fragmentWithin doc.next id

mutual

/-- New nodes for a fragment, its own before those of its children, and the number of the first one. -/
def instantiateUnder (doc : Document) (parent : Option Nat) : Fragment → Document × Nat
  | ⟨kind, children⟩ =>
    let (doc, id) := doc.push { kind, parent }
    let (doc, ids) := doc.instantiateAll id children
    (doc.setChildren id ids, id)

def instantiateAll (doc : Document) (parent : Nat) : List Fragment → Document × List Nat
  | [] => (doc, [])
  | f :: fs =>
    let (doc, id) := doc.instantiateUnder (some parent) f
    let (doc, ids) := doc.instantiateAll parent fs
    (doc, id :: ids)

end

/-- A detached copy of a fragment. -/
def instantiate (doc : Document) (f : Fragment) : Document × Nat := doc.instantiateUnder none f

/-- A detached copy of a node and all that is below it. -/
def copy (doc : Document) (id : Nat) : Document × Nat := doc.instantiate (doc.fragment id)

/-- A detached copy of a node of another document and all that is below it. -/
def graft (doc other : Document) (id : Nat) : Document × Nat := doc.instantiate (other.fragment id)

end NestedStyles.Document
