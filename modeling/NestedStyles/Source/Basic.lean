import NestedStyles.Event
import NestedStyles.Path

/-!
# Sources of stylesheets

A stylesheet is asked for by an identifier, which stands for a few concrete names. Providers look them up, and a chain
asks its providers in order.
-/

namespace NestedStyles

/-- A stylesheet that was found: its concrete name, and its text. -/
structure Source where
  uri : String
  contents : String
  deriving DecidableEq, Repr

namespace Source

/-- The directory part of a concrete name; there is none for a bare file name. -/
def directoryOf? (uri : String) : Option String :=
  match Path.parent? uri.toList with
  | none | some [] => none
  | some directory => some (String.ofList directory)

/-- The directory that a source's relative imports start from. -/
def directory? (source : Source) : Option String := directoryOf? source.uri

def extension : List Char := ".scss".toList

/-- The same path with an underscore before its file name, unless there is one already. -/
def underscored? (path : List Char) : Option (List Char) :=
  let file := (path.reverse.takeWhile (· ≠ '/')).reverse
  if file.head? = some '_' then none else some (path.take (path.length - file.length) ++ '_' :: file)

/-- The concrete names that an identifier may stand for, in the order in which they are tried: with the extension, with
an underscore as well, and as it is written. -/
def candidates (identifier : String) : List String :=
  let name := identifier.toList
  let complete := extension.isSuffixOf name
  let full := if complete then name else name ++ extension
  (full :: (underscored? full).toList ++ if complete then [] else [name]).map String.ofList

end Source

/-- Something that may know sources. -/
structure Provider where
  name : String
  /-- The source for an identifier, if there is one, and what there is to report about the search. -/
  find : String → Option Source × List Event

/-- Providers in the order in which they are asked. -/
abbrev Chain := List Provider

/-- The source from the first provider that has one. -/
def Chain.find (identifier : String) : Chain → Option Source × List Event
  | [] => (none, [.unmatched identifier])
  | provider :: rest =>
    match provider.find identifier with
    | (some source, events) => (some source, events ++ [.found provider.name identifier source.uri])
    | (none, events) =>
      let (source, more) := Chain.find identifier rest
      (source, events ++ more)

end NestedStyles
