import NestedStyles.Text.Blank
import NestedStyles.Text.Pieces

/-!
# Selectors

A selector is a comma list of alternatives. Nesting one selector in another combines every alternative of the outer
one with every alternative of the inner one.
-/

namespace NestedStyles.Selector

open Text

/-- The alternatives of a selector: its comma separated pieces, trimmed, blank ones left out. -/
def alternatives (selector : List Char) : List (List Char) :=
  ((pieces ',' selector).map trim).filter fun piece => !piece.isEmpty

/-- One alternative nested in another: `&` stands for the outer one, and without an `&` the two are joined as
ancestor and descendant. -/
def nest (outer inner : List Char) : List Char :=
  if '&' ∈ inner then inner.flatMap fun c => if c = '&' then outer else [c]
  else outer ++ ' ' :: inner

/-- All alternatives of `inner` nested in all those of `outer`, those of one outer alternative standing together. -/
def combinations (outer inner : List Char) : List (List Char) :=
  (alternatives outer).flatMap fun o => (alternatives inner).map (nest o)

def combine (outer inner : String) : String :=
  String.ofList (List.intercalate [',', ' '] (combinations outer.toList inner.toList))

end NestedStyles.Selector
