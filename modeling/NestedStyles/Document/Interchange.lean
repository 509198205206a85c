import NestedStyles.Document.Subtree
import NestedStyles.Fragment.Interchange
import NestedStyles.Json.Printer
import NestedStyles.Json.Reader

/-!
# Documents as text

A document is written as the fragment at its root. Reading accepts a fragment whose root is a stylesheet and numbers
its nodes in pre-order.
-/

namespace NestedStyles

/-- Why a text is not a document. -/
inductive ReadError where
  | malformed
  | notAStylesheet (root : Kind)
  deriving DecidableEq, Repr

def ReadError.message : ReadError → String
  | malformed => "invalid tree JSON"
  | notAStylesheet root => "fragment root must be a stylesheet, found " ++ root.label

namespace Document

/-- The document with a given fragment at its root. -/
def ofFragment : Fragment → Except ReadError Document
  | ⟨.stylesheet directory, children⟩ =>
    let (doc, ids) := (blank directory).instantiateAll root children
    .ok (doc.setChildren root ids)
  | ⟨kind, _⟩ => .error (.notAStylesheet kind)

/-- The document that a text holds. -/
def read (text : String) : Except ReadError Document :=
  match (Json.read? text).bind Fragment.ofJson? with
  | none => .error .malformed
  | some f => ofFragment f

/-- The text of a document. -/
def write (doc : Document) : String := (doc.fragment root).toJson.print

end Document

end NestedStyles
