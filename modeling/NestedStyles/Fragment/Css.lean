import NestedStyles.Fragment.Basic
import NestedStyles.Text.Blank
import NestedStyles.Text.Pieces

/-!
# The text of a fragment

How a fragment is written as style text. The pieces of a stylesheet stand apart by a blank line; the lines inside a
block are indented by two spaces.
-/

namespace NestedStyles.Fragment

open Text

/-- A line inside a block. Empty lines are not indented. -/
def indented (line : List Char) : List Char :=
  '\n' :: (if line.isEmpty then [] else ' ' :: ' ' :: line)

/-- A block with a header around the texts of its parts. A part without text leaves no trace. -/
def block (header : List Char) (parts : List (List Char)) : List Char :=
  header ++ " \x7b".toList ++ parts.flatMap (fun part => (lines part).flatMap indented) ++ "\n\x7d".toList

def paramText (param : Param) : List Char :=
  '$' :: param.name.toList ++
    match param.fallback with
    | some fallback => ':' :: ' ' :: fallback.toList
    | none => []

/-- Texts in parentheses with commas between them; nothing for no text at all. -/
def listed (texts : List (List Char)) : List Char :=
  if texts.isEmpty then [] else '(' :: List.intercalate [',', ' '] texts ++ [')']

def importTarget (href : List Char) : List Char :=
  if "url(".toList.isPrefixOf href then href else '"' :: href ++ ['"']

/-- The header of a node in a conditional, by whether it comes first. -/
def branchHeader (first : Bool) : Kind → List Char
  | .branch (some condition) => (if first then "@if " else "@else if ").toList ++ condition.toList
  | _ => "@else".toList

mutual

/-- The text of a fragment as a list of characters. -/
def text : Fragment → List Char
  | ⟨kind, children⟩ =>
    match kind with
    | .stylesheet _ => List.intercalate ['\n', '\n'] ((texts children).filter fun part => !part.isEmpty)
    | .rule selector => block selector.toList (texts children)
    | .declaration property value => property.toList ++ ':' :: ' ' :: value.toList ++ [';']
    | .assignment name value guarded =>
      '$' :: name.toList ++ ':' :: ' ' :: value.toList ++ (if guarded then " !default;" else ";").toList
    | .mixin name params =>
      block ("@mixin ".toList ++ name.toList ++ listed (params.map paramText)) (texts children)
    | .inclusion name args =>
      "@include ".toList ++ name.toList ++ listed (args.map String.toList) ++ [';']
    | .conditional => List.intercalate [' '] (branches true children)
    | .branch _ => trimStart (block [] (texts children))
    | .importRule href media =>
      "@import ".toList ++ importTarget href.toList ++
        (match media with
          | some media => ' ' :: media.toList
          | none => []) ++ [';']
    | .comment text => text.toList
    | .raw text => text.toList

def texts : List Fragment → List (List Char)
  | [] => []
  | f :: fs => f.text :: texts fs

/-- The blocks of a conditional. A node that is not a branch is written as an `@else`. -/
def branches (first : Bool) : List Fragment → List (List Char)
  | [] => []
  | ⟨kind, children⟩ :: fs => block (branchHeader first kind) (texts children) :: branches false fs

end

/-- The text of a fragment. -/
def css (f : Fragment) : String := String.ofList f.text

end NestedStyles.Fragment
