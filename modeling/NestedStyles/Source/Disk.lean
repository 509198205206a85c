import NestedStyles.Path

/-!
# File systems

A file system as a value: directories, files and symbolic links below a top directory, and a working directory. A path
leads to a place by its segments, through the links on the way.
-/

namespace NestedStyles

inductive Entry where
  | file (bytes : ByteArray)
  | link (target : List Char)
  | directory (entries : List (List Char × Entry))

namespace Entry

/-- What stands in a directory under a name. -/
def child? (name : List Char) : Entry → Option Entry
  | directory entries => entries.lookup name
  | _ => none

/-- The entry that names lead to, one directory after the other, without following links. -/
def at? (entry : Entry) : List (List Char) → Option Entry
  | [] => some entry
  | name :: names =>
    match entry.child? name with
    | none => none
    | some below => below.at? names

/-- Puts an entry into a place, with the directories that are missing on the way. A directory that is there already
stays as it is. -/
def put (new : Entry) : List (List Char) → Entry → Entry
  | [], old =>
    match new, old with
    | directory [], directory entries => directory entries
    | new, _ => new
  | name :: names, old =>
    let entries := match old with
      | directory entries => entries
      | _ => []
    let below := put new names ((entries.lookup name).getD (directory []))
    directory ((name, below) :: entries.filter fun e => e.1 ≠ name)

end Entry

structure Disk where
  /-- The top directory. -/
  top : Entry := .directory []
  /-- The names that lead from the top to the working directory. -/
  working : List (List Char) := []

namespace Disk

/-- How many symbolic links are followed for one path. -/
def maxLinks : Nat := 40

/-- How many bytes a path may have that the disk is asked about. -/
def maxPathBytes : Nat := 4095

/-- The absolute path along some names. -/
def absolutePath (names : List (List Char)) : List Char := '/' :: Path.ofSegments names

/-- Whether what is left of a path asks for a directory and for nothing in it: it goes up next, or there are only idle
segments. -/
def asksDirectory (rest : List (List Char)) : Bool :=
  match rest.dropWhile Path.isIdle with
  | [] => !rest.isEmpty
  | segment :: _ => segment = Path.upward

/-- Whether a place can be asked about by its own absolute path, given how many bytes that may have. Asking for a
directory takes a slash more. -/
def fits (limit : Option Nat) (place rest : List (List Char)) : Bool :=
  limit.all fun most =>
    Path.bytes (absolutePath place.reverse ++ if asksDirectory rest then ['/'] else []) ≤ most

/-- The place that segments lead to from another place. Places are lists of names, innermost first. Only directories
can be left or passed. With a limit, each name is asked about by the absolute path of the place that it leads to, which
may have so many bytes at most. From a link on, `jump` says where the path leads. -/
def followUntil (disk : Disk) (limit : Option Nat)
    (jump : List (List Char) → List (List Char) → Option (List (List Char))) (place : List (List Char)) :
    List (List Char) → Option (List (List Char))
  | [] => some place
  | segment :: rest =>
    match disk.top.at? place.reverse with
    | some (.directory entries) =>
      if Path.isIdle segment then followUntil disk limit jump place rest
      else if segment = Path.upward then followUntil disk limit jump place.tail rest
      else
        match entries.lookup segment with
        | none => none
        | some (.link target) =>
          if fits limit (segment :: place) [] then
            jump (if Path.isAbsolute target then [] else place) (Path.segments target ++ rest)
          else none
        | some _ =>
          if fits limit (segment :: place) rest then followUntil disk limit jump (segment :: place) rest else none
    | _ => none

/-- The place that segments lead to from another place, if there are no more links on the way than may be followed. -/
def follow (disk : Disk) (limit : Option Nat) :
    (links : Nat) → (place segments : List (List Char)) → Option (List (List Char))
  | 0 => disk.followUntil limit fun _ _ => none
  | links + 1 => disk.followUntil limit (disk.follow limit links)

/-- The names that lead from the top to what a path names, without links, if it names anything. -/
def seek (disk : Disk) (limit : Option Nat) (path : List Char) : Option (List (List Char)) :=
  if path.isEmpty then none
  else
    let start := if Path.isAbsolute path then [] else disk.working.reverse
    (disk.follow limit maxLinks start (Path.segments path)).map List.reverse

/-- The place that a path is resolved to. The path itself may be of any length, but a name on the way whose own absolute
path is too long is not found. -/
def canonical? (disk : Disk) (path : List Char) : Option (List (List Char)) := disk.seek (some maxPathBytes) path

/-- The place where a file is opened by a path. The path may not be too long. Where it leads is not asked for by any
other path, so the place may be. -/
def place? (disk : Disk) (path : List Char) : Option (List (List Char)) :=
  if maxPathBytes < Path.bytes path then none else disk.seek none path

/-- The content of the file in a place. -/
def fileAt? (disk : Disk) (names : List (List Char)) : Option ByteArray :=
  match disk.top.at? names with
  | some (.file bytes) => some bytes
  | _ => none

/-- The content of the file that a path opens. -/
def file? (disk : Disk) (path : List Char) : Option ByteArray := (disk.place? path).bind disk.fileAt?

/-- Where names lead if what is missing on the way is made: as far as there is something already they lead through its
links, and from there on straight down. The names that may be missing are in `above`, innermost first, and those in
`below` are. -/
def siteFor (disk : Disk) (below : List (List Char)) : (above : List (List Char)) → List (List Char)
  | [] => below
  | name :: above =>
    match disk.seek none (absolutePath (name :: above).reverse) with
    | some place => place ++ below
    | none => disk.siteFor (name :: below) above

/-- Puts an entry where names lead, with the directories that are missing on the way. A new link takes the last name for
itself; anything else goes where that name leads. -/
def add (disk : Disk) (names : List (List Char)) (entry : Entry) : Disk :=
  let site := match entry, names.reverse with
    | .link _, name :: above => disk.siteFor [name] above
    | _, above => disk.siteFor [] above
  { disk with top := entry.put site disk.top }

end Disk

end NestedStyles
