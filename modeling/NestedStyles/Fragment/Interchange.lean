import NestedStyles.Fragment.Basic
import NestedStyles.Json.Value

/-!
# The interchange format

A fragment as a JSON object: the member `type` names the kind, the kind's own members follow, and `children` holds the
fragments below, if there are any. In reading, the order of members does not matter and unknown members are passed
over; a member that belongs to the node must not be repeated.
-/

namespace NestedStyles

namespace Param

def toJson (param : Param) : Json :=
  .object (("name", .string param.name) :: (param.fallback.map fun text => ("default", Json.string text)).toList)

end Param

namespace Kind

/-- A member that is left out when there is no text. -/
def optionalMember (name : String) (text : Option String) : List (String × Json) :=
  (text.map fun text => (name, Json.string text)).toList

/-- The members that belong to a kind, after its `type`. -/
def ownMembers : Kind → List (String × Json)
  | stylesheet directory => optionalMember "file_name" directory
  | rule selector => [("selector", .string selector)]
  | declaration property value => [("property", .string property), ("value", .string value)]
  | assignment name value guarded => [("name", .string name), ("value", .string value), ("guarded", .bool guarded)]
  | mixin name params => [("name", .string name), ("params", .array (params.map Param.toJson))]
  | inclusion name args => [("name", .string name), ("args", .array (args.map Json.string))]
  | conditional => []
  | branch condition => optionalMember "condition" condition
  | importRule href media => ("href", .string href) :: optionalMember "media" media
  | comment text => [("text", .string text)]
  | raw text => [("text", .string text)]

def members (kind : Kind) : List (String × Json) := ("type", .string kind.label) :: kind.ownMembers

end Kind

namespace Fragment

mutual

def toJson : Fragment → Json
  | ⟨kind, []⟩ => .object kind.members
  | ⟨kind, child :: children⟩ =>
    .object (kind.members ++ [("children", .array (child.toJson :: toJsonAll children))])

def toJsonAll : List Fragment → List Json
  | [] => []
  | f :: fs => f.toJson :: toJsonAll fs

end

end Fragment

namespace Json

/-- The member of the given name, if there is one. Fails when it is repeated. -/
def field? (name : String) (members : List (String × Json)) : Option (Option Json) :=
  match members.filter fun m => m.1 = name with
  | [] => some none
  | [(_, value)] => some (some value)
  | _ => none

def text? : Json → Option String
  | string s => some s
  | _ => none

/-- A text that may be missing; `null` says that it is. -/
def optionalText? : Option Json → Option (Option String)
  | none => some none
  | some null => some none
  | some (string s) => some (some s)
  | some _ => none

def textField? (name : String) (members : List (String × Json)) : Option String := do
  let value ← field? name members
  (← value).text?

def optionalTextField? (name : String) (members : List (String × Json)) : Option (Option String) := do
  optionalText? (← field? name members)

/-- A truth value, `false` when the member is missing. -/
def flagField? (name : String) (members : List (String × Json)) : Option Bool := do
  match ← field? name members with
  | none => some false
  | some (bool b) => some b
  | some _ => none

/-- A list, empty when the member is missing. -/
def listField? {α : Type} (name : String) (item : Json → Option α) (members : List (String × Json)) :
    Option (List α) := do
  match ← field? name members with
  | none => some []
  | some (array items) => items.mapM item
  | some _ => none

end Json

namespace Param

open Json in
/-- A parameter is an object, or an array of its name and possibly its default. -/
def ofJson? : Json → Option Param
  | .object members => do
    let name ← textField? "name" members
    let fallback ← optionalTextField? "default" members
    some { name, fallback }
  | .array [name] => do some { name := ← name.text? }
  | .array [name, fallback] => do
    let name ← name.text?
    let fallback ← optionalText? (some fallback)
    some { name, fallback }
  | _ => none

end Param

namespace Kind

open Json

/-- The names of the kinds, in the order of their numbers. -/
def labels : List String :=
  ["Stylesheet", "Rule", "Declaration", "Variable", "MixinDef", "MixinInclude", "IfElse", "IfBranch", "Import",
   "Comment", "Raw"]

/-- The kind of the given name with these members. -/
def ofMembers? (label : String) (members : List (String × Json)) : Option Kind :=
  match label with
  | "Stylesheet" => do some (stylesheet (← optionalTextField? "file_name" members))
  | "Rule" => do some (rule (← textField? "selector" members))
  | "Declaration" => do some (declaration (← textField? "property" members) (← textField? "value" members))
  | "Variable" => do
    some (assignment (← textField? "name" members) (← textField? "value" members) (← flagField? "guarded" members))
  | "MixinDef" => do some (mixin (← textField? "name" members) (← listField? "params" Param.ofJson? members))
  | "MixinInclude" => do some (inclusion (← textField? "name" members) (← listField? "args" text? members))
  | "IfElse" => some conditional
  | "IfBranch" => do some (branch (← optionalTextField? "condition" members))
  | "Import" => do some (importRule (← textField? "href" members) (← optionalTextField? "media" members))
  | "Comment" => do some (comment (← textField? "text" members))
  | "Raw" => do some (raw (← textField? "text" members))
  | _ => none

/-- A kind that stands by itself. Its `type` is a name. -/
def ofJson? : Json → Option Kind
  | .object members => do ofMembers? (← textField? "type" members) members
  | _ => none

/-- In a fragment, the `type` may also be the number of the kind. -/
def labelOf? : Json → Option String
  | .string label => some label
  | .number n => do labels[← n.natural?]?
  | _ => none

end Kind

namespace Fragment

open Json

mutual

def ofJson? : Json → Option Fragment
  | .object members => do
    let type ← field? "type" members
    let kind ← Kind.ofMembers? (← Kind.labelOf? (← type)) members
    match ← childLists? members with
    | [] => some ⟨kind, []⟩
    | [children] => some ⟨kind, children⟩
    | _ => none
  | _ => none

/-- The fragments of each member `children`. -/
def childLists? : List (String × Json) → Option (List (List Fragment))
  | [] => some []
  | (name, value) :: members => do
    if name = "children" then
      let children ← items? value
      let others ← childLists? members
      some (children :: others)
    else childLists? members

def items? : Json → Option (List Fragment)
  | .array items => ofItems? items
  | _ => none

def ofItems? : List Json → Option (List Fragment)
  | [] => some []
  | item :: items => do
    let f ← ofJson? item
    let fs ← ofItems? items
    some (f :: fs)

end

end Fragment

end NestedStyles
