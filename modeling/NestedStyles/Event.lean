import NestedStyles.Document.Edit
import NestedStyles.Fragment.Interchange
import NestedStyles.Json.Printer

/-!
# The log

What the parts of the compiler report while they work. An event is kept as what happened; its level and its text are
functions of it.
-/

namespace NestedStyles

/-- How much an event matters, the most severe level first. -/
inductive Level where
  | warn
  | info
  | debug
  | trace
  deriving DecidableEq, Repr

inductive Event where
  | visiting (kind : Kind) (node : Nat)
  | tested (condition : String) (outcome : Bool)
  | alreadyBound (name : String)
  | bound (name value : String)
  | collected (name : String) (node : Nat)
  | pruned (node parent : Nat)
  | moving (node rule : Nat) (selector : String)
  | dump (pass : String) (content : Fragment)
  | found (provider identifier uri : String)
  | unmatched (identifier : String)
  | outsideBase (candidate : String)
  | redefined (name : String) (node previous : Nat)
  | expanding (mixin : String) (copies : Nat) (parent : Nat)
  | importing (href uri : String)
  | importsExpanded (count : Nat)
  | definitionsCollected (mixins conditionals : Nat)
  | evaluated (visits : Nat)
  | rulesMoved (count : Nat)
  | rulesPruned (count : Nat)
  | notFound (identifier : String)
  | compiling (identifier : String)
  | fallbackInstalled
  | unreadable (path : String)
  | strayInConditional (kind : Kind) (conditional : Nat)
  | unknownMixin (name stylesheet : String)
  | surplusArguments (mixin : String) (positional params : Nat)
  | unboundParam (mixin param : String)
  | unknownArgument (mixin argument : String)

namespace Event

def level : Event → Level
  | visiting _ _ | tested _ _ | alreadyBound _ | bound _ _ | collected _ _ | pruned _ _ | moving _ _ _ | dump _ _ =>
    .trace
  | fallbackInstalled => .info
  | unreadable _ | strayInConditional _ _ | unknownMixin _ _ | surplusArguments _ _ _ | unboundParam _ _
  | unknownArgument _ _ => .warn
  | _ => .debug

def text : Event → String
  | visiting kind node => "Rewriting " ++ kind.label ++ " " ++ nodeName node
  | tested condition outcome => "@if " ++ condition ++ " -> " ++ (if outcome then "true" else "false")
  | alreadyBound name => "$" ++ name ++ " already bound, skipping !default"
  | bound name value => "$" ++ name ++ " = " ++ value
  | collected name node => "Collected @mixin " ++ name ++ " at " ++ nodeName node
  | pruned node parent => "Pruned empty " ++ nodeName node ++ " from " ++ nodeName parent
  | moving node rule selector => "Moving " ++ nodeName node ++ " out of " ++ nodeName rule ++ " as '" ++ selector ++ "'"
  | dump pass content => "Tree after " ++ pass ++ " pass:\n" ++ content.toJson.print
  | found provider identifier uri => provider ++ " resolved '" ++ identifier ++ "' to '" ++ uri ++ "'"
  | unmatched identifier => "No resolver matched '" ++ identifier ++ "'"
  | outsideBase candidate => "'" ++ candidate ++ "' is outside the resolver base, skipping"
  | redefined name node previous =>
    "Mixin '" ++ name ++ "' redefined, " ++ nodeName node ++ " replaces " ++ nodeName previous
  | expanding mixin copies parent =>
    "Expanding @include " ++ mixin ++ " into " ++ toString copies ++ " node(s) under " ++ nodeName parent
  | importing href uri => "Importing '" ++ href ++ "' from '" ++ uri ++ "'"
  | importsExpanded count => "Import pass expanded " ++ toString count ++ " directive(s)"
  | definitionsCollected mixins conditionals =>
    "Collected " ++ toString mixins ++ " mixin(s) and " ++ toString conditionals ++ " conditional(s)"
  | evaluated visits => "Evaluation pass ran " ++ toString visits ++ " rewrite(s)"
  | rulesMoved count => "Moved " ++ toString count ++ " nested rule(s) to the top level"
  | rulesPruned count => "Pruned " ++ toString count ++ " empty rule(s)"
  | notFound identifier => "Stylesheet '" ++ identifier ++ "' not found"
  | compiling identifier => "Compiling '" ++ identifier ++ "' with the default compiler"
  | fallbackInstalled => "No resolvers configured, installing the default filesystem chain"
  | unreadable path => "Failed to read stylesheet '" ++ path ++ "': stream did not contain valid UTF-8"
  | strayInConditional kind conditional => "Skipping " ++ kind.label ++ " inside @if chain " ++ nodeName conditional
  | unknownMixin name stylesheet =>
    "Ignoring @include of unknown mixin '" ++ name ++ "' in stylesheet at '" ++ stylesheet ++ "'"
  | surplusArguments mixin positional params =>
    "@include " ++ mixin ++ " passes " ++ toString positional ++ " positional argument(s) for " ++ toString params ++
      " parameter(s)"
  | unboundParam mixin param => "@include " ++ mixin ++ " leaves parameter $" ++ param ++ " unbound"
  | unknownArgument mixin argument => "@include " ++ mixin ++ " passes unknown argument $" ++ argument

/-- The condition that an event reports to have been tested. -/
def condition? : Event → Option String
  | tested condition _ => some condition
  | _ => none

/-- The node that an event reports to be visited. -/
def visited? : Event → Option Nat
  | visiting _ node => some node
  | _ => none

end Event

end NestedStyles
