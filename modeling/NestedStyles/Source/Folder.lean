import NestedStyles.Source.Basic
import NestedStyles.Source.Disk

/-!
# Sources on disk

A folder provides the files of a disk. With a base it is confined to what lies below the base; without one it takes
names as paths from the working directory.
-/

namespace NestedStyles

structure Folder where
  disk : Disk
  base : Option String := none

namespace Folder

/-- The path by which to open the file for a name, if the folder may do so at all. A name that leads to a place is
allowed when that is below the base, and is opened by the path of the place. One for which no place is found, or any if
none is found for the base, is allowed when it never goes up, and is opened as it is written. -/
def locate? (folder : Folder) (name : List Char) : Option (List Char) :=
  match folder.base with
  | none => some name
  | some base =>
    if Path.isAbsolute name then none
    else
      let path := Path.join base.toList name
      match folder.disk.canonical? path, folder.disk.canonical? base.toList with
      | some found, some home => if home.isPrefixOf found then some (Disk.absolutePath found) else none
      | _, _ => if Path.upward ∈ Path.segments name then none else some path

/-- The first of some names that is a file. The search ends at a file that is no text. -/
def findAmong (folder : Folder) : List String → Option Source × List Event
  | [] => (none, [])
  | name :: names =>
    match folder.locate? name.toList with
    | none =>
      let (source, events) := folder.findAmong names
      (source, .outsideBase name :: events)
    | some path =>
      match folder.disk.file? path with
      | none => folder.findAmong names
      | some bytes =>
        match String.fromUTF8? bytes with
        | some contents => (some { uri := name, contents }, [])
        | none => (none, [.unreadable (String.ofList path)])

def find (folder : Folder) (identifier : String) : Option Source × List Event :=
  folder.findAmong (Source.candidates identifier)

def provider (folder : Folder) : Provider where
  name := "FilesystemResolver"
  find := folder.find

end Folder

/-- The chain for a disk that is used when no other one is given. -/
def Disk.chain (disk : Disk) : Chain := [(Folder.mk disk none).provider]

end NestedStyles
