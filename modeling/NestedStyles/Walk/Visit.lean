import NestedStyles.Arguments
import NestedStyles.Document.Subtree
import NestedStyles.Pass

/-!
# Visiting a node

What evaluation does at a single node. Rules and declarations have their texts substituted in place. An assignment
binds its name and leaves. An inclusion is replaced by a copy of the mixin's body, and a conditional by the body of the
branch that is taken. Nothing happens at any other node.
-/

namespace NestedStyles.Pass

/-- Inserts nodes after the insertion point of `parent`, or after `anchor` where there is none. The last one becomes the
insertion point, so that what is inserted next comes after it. -/
def spliceAfter (parent anchor : Nat) (nodes : List Nat) : Pass Unit := do
  let start ← view fun w =>
    match w.run.insertionPoints[parent]? with
    | some last => if w.doc.parent last = some parent then last else anchor
    | none => anchor
  insertChain parent start nodes
  match nodes.getLast? with
  | some last => editRun (·.setInsertionPoint parent last)
  | none => pure ()

/-- Puts the variables in scope into the texts of a node. -/
def substituteText (node : Nat) : Pass Unit :=
  edit fun w => { w with doc := w.doc.setKind node ((w.doc.kind node).mapText w.run.substitute) }

/-- Binds a name, unless the assignment is guarded and the name is bound, and takes the assignment away. -/
def assign (node : Nat) (name value : String) (guarded : Bool) : Pass Unit := do
  let taken ← view fun w => guarded && w.run.scope.contains name
  if taken then report (.alreadyBound name)
  else
    let value ← view (·.run.substitute value)
    report (.bound name value)
    editRun (·.bind name { value, origin := some node })
  detach node

/-- Counts one more expansion, if the limit allows it. -/
def countExpansion : Pass Unit := do
  let expanded ← view (·.run.stats.mixinsExpanded + 1)
  let limit ← view (·.run.expansionLimit)
  if limit < expanded then fail (.expansionLimit limit)
  else editStats ({ · with mixinsExpanded := expanded })

def paramsOf : Kind → List Param
  | .mixin _ params => params
  | _ => []

/-- Detached copies of nodes, with the parameters put in. -/
def copyAll (values : ParamValues) : List Nat → Pass (List Nat)
  | [] => pure []
  | node :: nodes => do
    let body ← view (·.doc.fragment node)
    let copy ← makeNode (·.instantiate (body.mapText (Reference.substitute (values[·]?))))
    let copies ← copyAll values nodes
    pure (copy :: copies)

/-- Replaces an inclusion by a copy of the mixin's body. Without a parent there is no place for it. -/
def expand (node : Nat) (name : String) (args : List String) : Pass Unit := do
  match ← view (·.doc.parent node) with
  | none => pure ()
  | some parent =>
    match ← view (·.run.mixins[name]?) with
    | none =>
      if ← view (·.run.strict) then fail (.unknownMixin name)
      else
        report (.unknownMixin name (← view (·.run.active.getD ".")))
        detach node
    | some definition =>
      countExpansion
      let params ← view fun w => paramsOf (w.doc.kind definition)
      let (values, events) ← view fun w => Arguments.bind w.run.lookup name params args
      reportAll events
      let body ← view (·.doc.children definition)
      let copies ← copyAll values body
      report (.expanding name copies.length parent)
      spliceAfter parent node copies
      removeChild parent node

/-- The first of the children of a conditional that is a branch whose condition, if any, holds, and what there is to
report about the search. -/
def chooseBranch (w : Workspace) (conditional : Nat) : List Nat → Option Nat × List Event
  | [] => (none, [])
  | node :: nodes =>
    match w.doc.kind node with
    | .branch none => (some node, [])
    | .branch (some condition) =>
      let condition := w.run.substitute condition
      if w.run.holds condition then (some node, [.tested condition true])
      else
        let (chosen, events) := chooseBranch w conditional nodes
        (chosen, .tested condition false :: events)
    | kind =>
      let (chosen, events) := chooseBranch w conditional nodes
      (chosen, .strayInConditional kind conditional :: events)

/-- Replaces a conditional by the body of the branch that is taken. Without a parent there is no place for it. -/
def decideConditional (node : Nat) : Pass Unit := do
  match ← view (·.doc.parent node) with
  | none => pure ()
  | some parent =>
    let branches ← view (·.doc.children node)
    let (chosen, events) ← view fun w => chooseBranch w node branches
    reportAll events
    removeChildren node branches
    match chosen with
    | none => pure ()
    | some branch =>
      let body ← view (·.doc.children branch)
      removeChildren branch body
      spliceAfter parent node body
    removeChild parent node
    editRun (·.resolveConditional node)

/-- What happens at a node when the walk comes to it. -/
def visit (node : Nat) : Pass Unit := do
  let kind ← view (·.doc.kind node)
  report (.visiting kind node)
  editStats fun stats => { stats with visits := stats.visits + 1 }
  match kind with
  | .rule _ => substituteText node
  | .declaration _ _ => substituteText node
  | .assignment name value guarded => assign node name value guarded
  | .inclusion name args => expand node name args
  | .conditional => decideConditional node
  | _ => pure ()

end NestedStyles.Pass
