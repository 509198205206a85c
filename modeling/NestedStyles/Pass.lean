import NestedStyles.Error
import NestedStyles.Event
import NestedStyles.Run

/-!
# Passes

A pass works on the document, the state of the run and the log together. When it fails, what it did before stays done.
-/

namespace NestedStyles

structure Workspace where
  doc : Document
  run : Run := {}
  /-- Whether the fallback chain has been put in the place of a missing one. -/
  installed : Bool := false
  /-- What happened, the latest event first. -/
  log : List Event := []

abbrev Pass := EStateM CompileError Workspace

namespace Pass

/-- Looks something up. -/
def view {α : Type} (f : Workspace → α) : Pass α := fun w => .ok (f w) w

/-- Changes the workspace. -/
def edit (f : Workspace → Workspace) : Pass Unit := fun w => .ok () (f w)

/-- Gives up. -/
def fail {α : Type} (error : CompileError) : Pass α := fun w => .error error w

def report (event : Event) : Pass Unit := edit fun w => { w with log := event :: w.log }

def reportAll (events : List Event) : Pass Unit := edit fun w => { w with log := events.reverse ++ w.log }

def editDocument (f : Document → Document) : Pass Unit := edit fun w => { w with doc := f w.doc }

def editRun (f : Run → Run) : Pass Unit := edit fun w => { w with run := f w.run }

def editStats (f : Stats → Stats) : Pass Unit := editRun fun run => { run with stats := f run.stats }

/-- Adds nodes to the document, and gives the number of one of them. -/
def makeNode (f : Document → Document × Nat) : Pass Nat := fun w =>
  let (doc, id) := f w.doc
  .ok id { w with doc }

def insertAt (parent : Nat) (index : Nat) (node : Nat) : Pass Unit := do
  match ← view (·.doc.refusal? parent index node) with
  | some error => fail (.edit error)
  | none => editDocument (·.place parent index node)

def insertAfter (parent anchor node : Nat) : Pass Unit := do
  match ← view (·.doc.indexOf? parent anchor) with
  | none => fail (.edit (.notAChild parent anchor))
  | some index => insertAt parent (index + 1) node

/-- Inserts nodes one after the other, the first one after `anchor`. -/
def insertChain (parent : Nat) : (anchor : Nat) → List Nat → Pass Unit
  | _, [] => pure ()
  | anchor, node :: nodes => do
    insertAfter parent anchor node
    insertChain parent node nodes

def removeChild (parent node : Nat) : Pass Unit := editDocument fun doc => (doc.removeChild parent node).1

def removeChildren (parent : Nat) (nodes : List Nat) : Pass Unit :=
  editDocument fun doc => nodes.foldl (fun doc node => (doc.removeChild parent node).1) doc

def detach (node : Nat) : Pass Unit := editDocument fun doc => (doc.detach node).1

end Pass

end NestedStyles
