import NestedStyles.Document.Basic

/-!
# Attaching and detaching nodes

An insertion either puts a detached node into the child list of another one, or it is refused and nothing changes. It
is refused for the root, for a node that has a parent, for a node above the place where it would go, and for a position
past the end.
-/

namespace NestedStyles

/-- What can be wrong with the links of a document. -/
inductive Fault where
  | rootHasParent
  | reachedTwice (node : Nat)
  /-- A node is listed under one node, but its parent is another one or none. -/
  | misplaced (node listedUnder : Nat) (parent : Option Nat)
  deriving DecidableEq, Repr

/-- Why a document cannot be edited as asked. -/
inductive EditError where
  | alreadyAttached (node parent : Nat)
  | notAChild (parent node : Nat)
  | outOfBounds (parent : Nat) (index count : Nat)
  | cycle (parent node : Nat)
  | rootAttach
  | inconsistent (fault : Fault)
  deriving DecidableEq, Repr

/-- How messages name a node. -/
def nodeName (node : Nat) : String := "#" ++ toString node

def Fault.message : Fault → String
  | rootHasParent => "root has a parent"
  | reachedTwice node => nodeName node ++ " is reachable more than once"
  | misplaced node listedUnder parent =>
    nodeName node ++ " is listed under " ++ nodeName listedUnder ++ " but points at " ++
      (match parent with
        | some parent => nodeName parent
        | none => "nothing")

def EditError.message : EditError → String
  | alreadyAttached node parent => "node " ++ nodeName node ++ " is already attached to " ++ nodeName parent
  | notAChild parent node => "node " ++ nodeName node ++ " is not a child of " ++ nodeName parent
  | outOfBounds parent index count =>
    "index " ++ toString index ++ " out of bounds for " ++ nodeName parent ++ " with " ++ toString count ++ " children"
  | cycle parent node => "inserting " ++ nodeName node ++ " under " ++ nodeName parent ++ " would create a cycle"
  | rootAttach => "the root node cannot be attached to a parent"
  | inconsistent fault => "tree is inconsistent: " ++ fault.message

namespace Document

/-- A node, its parent, the parent of that one and so on, for at most `steps` nodes. -/
def lineageWithin (doc : Document) : (steps : Nat) → Nat → List Nat
  | 0, _ => []
  | steps + 1, id =>
    id :: match doc.parent id with
      | none => []
      | some parent => doc.lineageWithin steps parent

/-- A node and all nodes above it, innermost first. -/
def lineage (doc : Document) (id : Nat) : List Nat := doc.lineageWithin doc.next id

/-- Whether a node is the root or below it. -/
def isAttached (doc : Document) (id : Nat) : Bool := (doc.lineage id).contains root

/-- The position of `node` among the children of `parent`. -/
def indexOf? (doc : Document) (parent node : Nat) : Option Nat := (doc.node parent).slots.idxOf? node

/-- The reason why `node` cannot become the child of `parent` at position `index`. -/
def refusal? (doc : Document) (parent : Nat) (index : Nat) (node : Nat) : Option EditError :=
  if node = root then some .rootAttach
  else match doc.parent node with
    | some current => some (.alreadyAttached node current)
    | none =>
      if (doc.lineage parent).contains node then some (.cycle parent node)
      else if (doc.node parent).slots.size < index then
        some (.outOfBounds parent index (doc.node parent).slots.size)
      else none

/-- Links `node` to `parent` at position `index`, without asking whether it may go there. -/
def place (doc : Document) (parent : Nat) (index : Nat) (node : Nat) : Document :=
  (doc.modify parent fun n => { n with slots := n.slots.insertIdxIfInBounds index node }).setParent node (some parent)

/-- Makes a detached node the child of `parent` at position `index`. An absent node changes nothing. -/
def insertAt (doc : Document) (parent : Nat) (index : Nat) : Option Nat → Except EditError Document
  | none => .ok doc
  | some node =>
    match doc.refusal? parent index node with
    | some error => .error error
    | none => .ok (doc.place parent index node)

/-- Makes a detached node the next sibling of `anchor`. -/
def insertAfter (doc : Document) (parent anchor node : Nat) : Except EditError Document :=
  match doc.indexOf? parent anchor with
  | none => .error (.notAChild parent anchor)
  | some index => doc.insertAt parent (index + 1) (some node)

/-- Takes `node` out of the children of `parent`, and says whether it was one of them. -/
def removeChild (doc : Document) (parent node : Nat) : Document × Bool :=
  if (doc.node parent).slots.contains node then
    ((doc.modify parent fun n => { n with slots := n.slots.erase node }).setParent node none, true)
  else (doc, false)

/-- Takes a node away from its parent, and says whether it had one. -/
def detach (doc : Document) (node : Nat) : Document × Bool :=
  match doc.parent node with
  | none => (doc, false)
  | some parent => doc.removeChild parent node

end Document

end NestedStyles
