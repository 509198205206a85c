import NestedStyles.Text.Blank
import NestedStyles.Text.Pieces

/-!
# Conditions

The truth of a condition's text. `a != b` and `a == b` compare operands, a leading `not` negates, and any other text
holds unless it is empty, `false` or `null`. Operands are compared trimmed and without the quotes around them.
-/

namespace NestedStyles.Condition

open Text

/-- The text between two quotes `q` at its ends, if it has both. -/
def unquote? (q : Char) : List Char → Option (List Char)
  | [] => none
  | c :: cs => if c = q ∧ cs.getLast? = some q then some cs.dropLast else none

/-- An operand as it is compared: trimmed, and without one pair of double or else single quotes around it. -/
def operand (cs : List Char) : List Char :=
  let text := trim cs
  ((unquote? '"' text).or (unquote? '\'' text)).getD text

/-- The texts of an operand that stand for falsehood. -/
def falsities : List (List Char) := [[], "false".toList, "null".toList]

/-- What a trimmed text without a leading `not` says. -/
def compares (text : List Char) : Bool :=
  match cut? ['!', '='] text with
  | some (left, right) => operand left != operand right
  | none =>
    match cut? ['=', '='] text with
    | some (left, right) => operand left == operand right
    | none => !falsities.contains (operand text)

/-- Whether a text holds that does not end in white space. -/
def holdsTrimmed (cs : List Char) : Bool :=
  match _h : trimStart cs with
  | 'n' :: 'o' :: 't' :: ' ' :: rest => !holdsTrimmed rest
  | text => compares text
termination_by cs.length
decreasing_by
  have := length_trimStart_le cs
  simp_all
  omega

/-- Whether a condition holds. -/
def holds (condition : String) : Bool := holdsTrimmed (trimEnd condition.toList)

end NestedStyles.Condition
