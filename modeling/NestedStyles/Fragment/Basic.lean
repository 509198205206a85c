import NestedStyles.Node

/-!
# Fragments

A fragment is a piece of a stylesheet by value: a kind and the fragments below it. Fragments are what is copied from
one place of a document to another, from one document to another, and into and out of the interchange format.
-/

namespace NestedStyles

structure Fragment where
  kind : Kind
  children : List Fragment

namespace Fragment

mutual

/-- The number of nodes of a fragment. -/
def size : Fragment → Nat
  | ⟨_, children⟩ => sizeAll children + 1

def sizeAll : List Fragment → Nat
  | [] => 0
  | f :: fs => f.size + sizeAll fs

end

mutual

/-- Applies `f` to the texts of every node that may refer to variables. -/
def mapText (f : String → String) : Fragment → Fragment
  | ⟨kind, children⟩ => ⟨kind.mapText f, mapTextAll f children⟩

def mapTextAll (f : String → String) : List Fragment → List Fragment
  | [] => []
  | c :: cs => c.mapText f :: mapTextAll f cs

end

end Fragment

end NestedStyles
