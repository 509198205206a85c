import NestedStyles.Document.Interchange
import NestedStyles.Pass
import NestedStyles.Source.Basic

/-!
# Imports

An import names another stylesheet, whose content takes its place. Imports that are plain CSS stay as they are. The
imports of an imported stylesheet are expanded before its content is put in place, and relative to its own directory.
-/

namespace NestedStyles

/-- How the text of a source becomes a document. -/
abbrev Parser := Source → Except ParseError Document

/-- Reads a source in the interchange format. -/
def Document.parse : Parser := fun source =>
  match Document.read source.contents with
  | .ok doc => .ok doc
  | .error error => .error { uri := source.uri, reason := error.message }

namespace Import

/-- Whether an import is left to the browser: it names a URL, a `.css` file or a remote address, or it has a media
query. -/
def isCss (href : String) (media : Option String) : Bool :=
  media.any (fun media => !(Text.trim media.toList).isEmpty) ||
    "url(".toList.isPrefixOf href.toList || ".css".toList.isSuffixOf href.toList ||
    "http://".toList.isPrefixOf href.toList || "https://".toList.isPrefixOf href.toList

/-- The identifier that a reference stands for in a stylesheet of the given directory. Absolute paths and addresses
stand for themselves, and so does everything where no directory is known. -/
def resolve (href : String) (directory : Option String) : String :=
  if Path.isAbsolute href.toList || Text.occurs "://".toList href.toList then href
  else match directory with
    | none => href
    | some directory => String.ofList (Path.normalize (Path.join directory.toList href.toList))

/-- The reference of an import that is to be expanded. -/
def reference? : Kind → Option String
  | .importRule href media => if isCss href media then none else some href
  | _ => none

/-- Where imported stylesheets come from. -/
structure Library where
  /-- The chain to ask, if one was chosen. -/
  chain : Option Chain
  /-- The chain to ask otherwise. -/
  fallback : Chain
  parse : Parser
  /-- How deep imports may nest. -/
  maxDepth : Nat

/-- Asks the chain for a source. The fallback is put in place when it is first needed. -/
def find (library : Library) (identifier : String) : Pass (Option Source) := do
  let missing ← Pass.view fun w => library.chain.isNone && !w.installed
  if missing then
    Pass.report .fallbackInstalled
    Pass.edit fun w => { w with installed := true }
  let (source, events) := (library.chain.getD library.fallback).find identifier
  Pass.reportAll events
  pure source

/-- Carries out a pass on another document, which is returned, and comes back to the present one. -/
def onDocument {α : Type} (doc : Document) (pass : Pass α) : Pass (α × Document) := fun w =>
  match pass { w with doc } with
  | .ok a w' => .ok (a, w'.doc) { w' with doc := w.doc }
  | .error e w' => .error e { w' with doc := w.doc }

/-- Puts copies of nodes of another document under `parent`, from position `index` on. -/
def graftAll (parent : Nat) (other : Document) : (index : Nat) → List Nat → Pass Unit
  | _, [] => pure ()
  | index, node :: nodes => do
    let copy ← Pass.makeNode (·.graft other node)
    Pass.insertAt parent index copy
    graftAll parent other (index + 1) nodes

/-- Puts the content of a document in the place of an import, and says how many nodes that are. -/
def replace (parent node : Nat) (content : Document) : Pass Nat := do
  match ← Pass.view (·.doc.indexOf? parent node) with
  | none => Pass.fail (.edit (.notAChild parent node))
  | some index =>
    Pass.removeChild parent node
    let nodes := content.children Document.root
    graftAll parent content index nodes
    pure nodes.length

/-- The source that a reference stands for in the present document, once it is known not to be under way already. -/
def fetch (library : Library) (underway : List String) (href : String) : Pass (Source × Document) := do
  let identifier ← Pass.view fun w => resolve href w.doc.directory?
  match ← find library identifier with
  | none => Pass.fail (.importNotFound href identifier)
  | some source =>
    if underway.contains source.uri then Pass.fail (.circularImport source.uri)
    else
      Pass.report (.importing href source.uri)
      match library.parse source with
      | .error error => Pass.fail (.parse error)
      | .ok doc => pure (source, doc.setDirectory source.directory?)

/-- Expands the imports among the children of a node from position `index` on, and below them, with `expand` doing so
for a single one: it is given the parent, the import and its reference, and says how many nodes took its place and how
many imports were expanded. Every step passes one node, so there are no more steps than nodes. -/
def sweep (expand : Nat → Nat → String → Pass (Nat × Nat)) : (steps : Nat) → (node : Nat) → (index : Nat) →
    Pass Nat
  | 0, _, _ => Pass.fail .unfinished
  | steps + 1, node, index => do
    match ← Pass.view (·.doc.childAt? node index) with
    | none => pure 0
    | some child =>
      match ← Pass.view fun w => reference? (w.doc.kind child) with
      | some href =>
        let (nodes, count) ← expand node child href
        let rest ← sweep expand steps node (index + nodes)
        pure (count + rest)
      | none =>
        let count ← sweep expand steps child 0
        let rest ← sweep expand steps node (index + 1)
        pure (count + rest)

/-- Expands the imports of the present document, which nest at most `levels` deep. -/
def expandWithin (library : Library) : (levels : Nat) → (underway : List String) → Pass Nat
  | levels, underway => do
    let steps ← Pass.view (·.doc.next)
    sweep (fun parent node href =>
      match levels with
      | 0 => Pass.fail (.importDepth href library.maxDepth)
      | levels + 1 => do
        let (source, doc) ← fetch library underway href
        let (count, content) ← onDocument doc (expandWithin library levels (source.uri :: underway))
        let nodes ← replace parent node content
        pure (nodes, count + 1))
      steps Document.root 0

end Import

/-- Expands all imports of the document, and says how many there were. -/
def Pass.expandImports (library : Import.Library) : Pass Nat := do
  let count ← Import.expandWithin library library.maxDepth []
  editStats fun stats => { stats with imports := stats.imports + count }
  pure count

end NestedStyles
