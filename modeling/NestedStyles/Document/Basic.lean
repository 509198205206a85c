import NestedStyles.Node

/-!
# Documents

A document holds the nodes of a stylesheet under numbers, given out in the order in which the nodes are made and never
used again. Node `0` is the root. A node knows its parent and its children; one without a parent, the root apart, is
detached. The views `kind`, `parent` and `children` describe a document completely, together with the number `next` of
the node to be made next. A number that is not in use reads as an empty detached node.
-/

namespace NestedStyles

structure Node where
  kind : Kind
  parent : Option Nat := none
  /-- The children, in order. -/
  slots : Array Nat := #[]
  deriving DecidableEq, Repr

instance : Inhabited Node := ⟨{ kind := .raw "" }⟩

structure Document where
  nodes : Array Node
  deriving DecidableEq, Repr

namespace Document

def root : Nat := 0

/-- A stylesheet without content, in the given directory. -/
def blank (directory : Option String) : Document := ⟨#[{ kind := .stylesheet directory }]⟩

/-- The number of the node to be made next, which is also the number of nodes made so far. -/
def next (doc : Document) : Nat := doc.nodes.size

def node (doc : Document) (id : Nat) : Node := doc.nodes.getD id default

def kind (doc : Document) (id : Nat) : Kind := (doc.node id).kind

def parent (doc : Document) (id : Nat) : Option Nat := (doc.node id).parent

def children (doc : Document) (id : Nat) : List Nat := (doc.node id).slots.toList

/-- The child at a position. -/
def childAt? (doc : Document) (id : Nat) (index : Nat) : Option Nat := (doc.node id).slots[index]?

def modify (doc : Document) (id : Nat) (f : Node → Node) : Document := ⟨doc.nodes.modify id f⟩

def setKind (doc : Document) (id : Nat) (kind : Kind) : Document := doc.modify id ({ · with kind })

def setParent (doc : Document) (id : Nat) (parent : Option Nat) : Document := doc.modify id ({ · with parent })

def setChildren (doc : Document) (id : Nat) (children : List Nat) : Document :=
  doc.modify id ({ · with slots := children.toArray })

/-- A document with one more node, and its number. -/
def push (doc : Document) (node : Node) : Document × Nat :=
  let id := doc.next
  (⟨doc.nodes.push node⟩, id)

/-- A new detached node. -/
def create (doc : Document) (kind : Kind) : Document × Nat := doc.push { kind }

/-- A new node as the last child of `parent`. -/
def append (doc : Document) (parent : Nat) (kind : Kind) : Document × Nat :=
  let (doc, id) := doc.push { kind, parent := some parent }
  (doc.modify parent fun n => { n with slots := n.slots.push id }, id)

/-- The directory that the root records. -/
def directory? (doc : Document) : Option String :=
  match doc.kind root with
  | .stylesheet directory => directory
  | _ => none

/-- Records a directory in the root. A root that is no stylesheet has none. -/
def setDirectory (doc : Document) (directory : Option String) : Document :=
  match doc.kind root with
  | .stylesheet _ => doc.setKind root (.stylesheet directory)
  | _ => doc

theorem childAt?_eq (doc : Document) (id : Nat) (index : Nat) : doc.childAt? id index = (doc.children id)[index]? := by
  simp [childAt?, children]

@[simp]
theorem next_modify (doc : Document) (id : Nat) (f : Node → Node) : (doc.modify id f).next = doc.next := by
  simp [modify, next]

theorem node_modify (doc : Document) (id : Nat) (f : Node → Node) (other : Nat) :
    (doc.modify id f).node other = if id = other ∧ other < doc.next then f (doc.node other) else doc.node other := by
  simp only [modify, node, next, Array.getD_eq_getD_getElem?, Array.getElem?_modify]
  by_cases h : id = other
  · by_cases hlt : other < doc.nodes.size
    · simp [h, hlt]
    · simp [h, hlt]
  · simp [h]

theorem node_push (doc : Document) (n : Node) (other : Nat) :
    (doc.push n).1.node other = if other = doc.next then n else doc.node other := by
  simp only [push, node, next, Array.getD_eq_getD_getElem?, Array.getElem?_push]
  split <;> simp

/-- A number that is not in use reads as an empty detached node. -/
theorem node_of_le {doc : Document} {id : Nat} (h : doc.next ≤ id) : doc.node id = default := by
  simp [node, Array.getD_eq_getD_getElem?, Array.getElem?_eq_none (show doc.nodes.size ≤ id from h)]

end Document

end NestedStyles
