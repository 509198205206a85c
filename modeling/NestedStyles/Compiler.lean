import NestedStyles.Collecting
import NestedStyles.Document.Consistency
import NestedStyles.Flattening
import NestedStyles.Fragment.Css
import NestedStyles.Import
import NestedStyles.Pruning
import NestedStyles.Source.Folder
import NestedStyles.Walk.Basic

/-!
# The compiler

A stylesheet is compiled in place: its imports are expanded, its definitions collected, the rest evaluated, and what
comes out is flattened and, unless told otherwise, pruned.
-/

namespace NestedStyles

structure Settings where
  /-- How deep imports may nest. -/
  importDepth : Nat := 100
  /-- How many mixins may be expanded. -/
  expansions : Nat := 10000
  /-- Whether rules without content are left out. -/
  prune : Bool := true
  /-- Whether including an unknown mixin is an error. -/
  strict : Bool := false
  deriving DecidableEq, Repr

structure Compiler where
  settings : Settings := {}
  /-- The chain that provides sources, if one was chosen. -/
  chain : Option Chain := none
  /-- The chain that provides sources otherwise. -/
  fallback : Chain
  parse : Parser := Document.parse
  /-- Whether a condition holds. -/
  holds : String → Bool := Condition.holds

/-- The text of a document. -/
def Document.css (doc : Document) : String := (doc.fragment root).css

/-- Fails if the document is inconsistent. -/
def Pass.verify : Pass Unit := do
  match ← view (·.doc.verify) with
  | .error error => fail (.edit error)
  | .ok () => pure ()

/-- Reports the whole document. -/
def Pass.dump (pass : String) : Pass Unit := do
  report (.dump pass (← view (·.doc.fragment Document.root)))

/-- Flattens the stylesheet, and counts the rules that were moved. -/
def Pass.flattenStylesheet : Pass Nat := do
  let moved ← flatten Document.root
  editStats fun stats => { stats with flattened := stats.flattened + moved }
  pure moved

/-- Prunes the stylesheet, and counts the rules that were taken away. -/
def Pass.pruneStylesheet : Pass Nat := do
  let pruned ← prune Document.root
  editStats fun stats => { stats with pruned := stats.pruned + pruned }
  pure pruned

namespace Compiler

/-- The state with which a run of this compiler starts. -/
def freshRun (compiler : Compiler) : Run :=
  { holds := compiler.holds
    strict := compiler.settings.strict
    expansionLimit := compiler.settings.expansions }

def library (compiler : Compiler) : Import.Library :=
  { chain := compiler.chain
    fallback := compiler.fallback
    parse := compiler.parse
    maxDepth := compiler.settings.importDepth }

open Pass in
/-- Compiles a document whose imports are expanded. -/
def reduce (compiler : Compiler) : Pass Unit := do
  collect Document.root
  report (.definitionsCollected (← view (·.run.mixins.size)) (← view (·.run.pending.size)))
  let _ ← evaluate Document.root
  verify
  report (.evaluated (← view (·.run.stats.visits)))
  dump "evaluation"
  report (.rulesMoved (← flattenStylesheet))
  if compiler.settings.prune then report (.rulesPruned (← pruneStylesheet))

open Pass in
/-- Compiles the document at hand. The run keeps its limits and forgets everything else. -/
def compile (compiler : Compiler) : Pass Unit := do
  edit fun w => { w with run := (w.run.setActive w.doc).clear }
  let imports ← expandImports compiler.library
  report (.importsExpanded imports)
  dump "imports"
  compiler.reduce

/-- Loads the stylesheet that an identifier stands for, if there is one. Its root records its directory. -/
def load (compiler : Compiler) (identifier : String) : Pass (Option Document) := do
  match ← Import.find compiler.library identifier with
  | none =>
    Pass.report (.notFound identifier)
    pure none
  | some source =>
    match compiler.parse source with
    | .error error => Pass.fail (.parse error)
    | .ok doc => pure (some (doc.setDirectory source.directory?))

/-- The style text of the stylesheet that an identifier stands for. -/
def compileIdentifier (compiler : Compiler) (identifier : String) : Pass String := do
  match ← compiler.load identifier with
  | none => Pass.fail (.notFound identifier)
  | some doc =>
    Pass.edit fun w => { w with doc, run := compiler.freshRun }
    compiler.compile
    Pass.view (·.doc.css)

end Compiler

/-- The style text of a stylesheet on disk, compiled with all settings at their defaults. -/
def compileFile (disk : Disk) (identifier : String) : Pass String := do
  Pass.report (.compiling identifier)
  Compiler.compileIdentifier { fallback := disk.chain } identifier

end NestedStyles
