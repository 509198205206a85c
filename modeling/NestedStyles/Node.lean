/-!
# Kinds of nodes

What a node of a stylesheet says, apart from the nodes below it.
-/

namespace NestedStyles

/-- A parameter of a mixin, with the text it stands for when no argument is given. -/
structure Param where
  name : String
  fallback : Option String := none
  deriving DecidableEq, Repr

inductive Kind where
  /-- The root of a stylesheet. It may know the directory that relative imports start from. -/
  | stylesheet (directory : Option String)
  | rule (selector : String)
  | declaration (property value : String)
  /-- A variable with its value. A guarded one leaves a name alone that is already bound. -/
  | assignment (name value : String) (guarded : Bool)
  /-- The definition of a mixin, whose body are the nodes below it. -/
  | mixin (name : String) (params : List Param)
  | inclusion (name : String) (args : List String)
  /-- A chain of branches, which are the nodes below it. -/
  | conditional
  /-- A branch of a conditional. One without a condition is always taken. -/
  | branch (condition : Option String)
  | importRule (href : String) (media : Option String)
  | comment (text : String)
  | raw (text : String)
  deriving DecidableEq, Repr

namespace Kind

/-- The name of a kind in messages and in the interchange format. -/
def label : Kind → String
  | stylesheet _ => "Stylesheet"
  | rule _ => "Rule"
  | declaration _ _ => "Declaration"
  | assignment _ _ _ => "Variable"
  | mixin _ _ => "MixinDef"
  | inclusion _ _ => "MixinInclude"
  | conditional => "IfElse"
  | branch _ => "IfBranch"
  | importRule _ _ => "Import"
  | comment _ => "Comment"
  | raw _ => "Raw"

def isRule : Kind → Bool
  | rule _ => true
  | _ => false

/-- Applies `f` to the texts of a kind that may refer to variables. -/
def mapText (f : String → String) : Kind → Kind
  | rule selector => rule (f selector)
  | declaration property value => declaration (f property) (f value)
  | assignment name value guarded => assignment name (f value) guarded
  | inclusion name args => inclusion name (args.map f)
  | branch condition => branch (condition.map f)
  | kind => kind

end Kind

end NestedStyles
