import Std.Data.TreeMap.Basic
import Std.Data.TreeSet.Basic
import NestedStyles.Condition
import NestedStyles.Document.Basic
import NestedStyles.Reference

/-!
# The state of a run

What one run of the compiler knows beside the document: the variables in scope, the mixins by name, the conditionals
still to be decided, where the last nodes were inserted under a parent, and its counters.
-/

namespace NestedStyles

/-- The value of a variable, and the node that gave it. -/
structure Binding where
  value : String
  origin : Option Nat := none
  deriving DecidableEq, Repr

abbrev Scope := Std.TreeMap String Binding

structure Stats where
  imports : Nat := 0
  mixinsCollected : Nat := 0
  visits : Nat := 0
  mixinsExpanded : Nat := 0
  conditionalsResolved : Nat := 0
  flattened : Nat := 0
  pruned : Nat := 0
  deriving DecidableEq, Repr

structure Run where
  /-- The directory of the stylesheet that is compiled, for messages. -/
  active : Option String := none
  scope : Scope := ∅
  mixins : Std.TreeMap String Nat := ∅
  pending : Std.TreeSet Nat := ∅
  /-- Under a parent, the node after which the next ones are inserted. -/
  insertionPoints : Std.TreeMap Nat Nat := ∅
  /-- Whether a condition holds. -/
  holds : String → Bool := Condition.holds
  /-- Whether including an unknown mixin ends the run. -/
  strict : Bool := false
  /-- How many mixins may be expanded. -/
  expansionLimit : Nat := 0xFFFFFFFFFFFFFFFF
  stats : Stats := {}

namespace Run

def lookup (run : Run) (name : String) : Option String := run.scope[name]?.map (·.value)

/-- The text with the variables in scope put in. -/
def substitute (run : Run) (text : String) : String := Reference.substitute run.lookup text

def bind (run : Run) (name : String) (binding : Binding) : Run :=
  { run with scope := run.scope.insert name binding }

/-- Records the stylesheet that is compiled. -/
def setActive (run : Run) (doc : Document) : Run := { run with active := some (doc.directory?.getD ".") }

/-- Forgets all but the settings and the stylesheet that is compiled. -/
def clear (run : Run) : Run :=
  { run with scope := ∅, mixins := ∅, pending := ∅, insertionPoints := ∅, stats := {} }

/-- Adds a conditional to be decided, and says whether it is new. -/
def registerConditional (run : Run) (node : Nat) : Run × Bool :=
  ({ run with pending := run.pending.insert node }, !run.pending.contains node)

/-- Counts a conditional as decided if it was waiting to be. -/
def resolveConditional (run : Run) (node : Nat) : Run :=
  if run.pending.contains node then
    { run with
      pending := run.pending.erase node
      stats.conditionalsResolved := run.stats.conditionalsResolved + 1 }
  else run

def setInsertionPoint (run : Run) (parent last : Nat) : Run :=
  { run with insertionPoints := run.insertionPoints.insert parent last }

def clearInsertionPoint (run : Run) (parent : Nat) : Run :=
  { run with insertionPoints := run.insertionPoints.erase parent }

/-- How many more mixins may be expanded. -/
def expansionsLeft (run : Run) : Nat := run.expansionLimit - run.stats.mixinsExpanded

end Run

end NestedStyles
