import NestedStyles.Text.Pieces

/-!
# Slash separated paths

A path is a text of segments between slashes. The segments `` and `.` say nothing, and `..` goes up. A path that
starts with a slash is absolute.
-/

namespace NestedStyles.Path

open Text

def isAbsolute (path : List Char) : Bool := path.head? = some '/'

def segments (path : List Char) : List (List Char) := pieces '/' path

def ofSegments (segs : List (List Char)) : List Char := List.intercalate ['/'] segs

/-- The number of bytes of a path. -/
def bytes (path : List Char) : Nat := (String.ofList path).utf8ByteSize

def upward : List Char := ['.', '.']

/-- Whether a segment leads nowhere: it is empty or a single dot. -/
def isIdle (segment : List Char) : Bool := segment = [] || segment = ['.']

/-- The slash or the dot that a path starts with, and what follows it. Only a dot that is a segment of its own
counts. -/
def anchor : List Char → List Char × List Char
  | '/' :: path => (['/'], path)
  | ['.'] => (['.'], [])
  | '.' :: '/' :: path => (['.'], '/' :: path)
  | path => ([], path)

/-- The path without its last segment. Idle segments at the end are dropped before and after; what stands in front
is kept as it is written. The empty path and the top have no parent. -/
def parent? (path : List Char) : Option (List Char) :=
  let (start, body) := anchor path
  match (segments body).reverse.dropWhile isIdle with
  | _ :: above => some (start ++ ofSegments (above.dropWhile isIdle).reverse)
  | [] => if start = ['.'] then some [] else none

/-- One path below another. An absolute path stays what it is. -/
def join (base path : List Char) : List Char :=
  if isAbsolute path then path
  else match base.getLast? with
    | none => path
    | some '/' => base ++ path
    | some _ => base ++ '/' :: path

/-- The segments of a normal path, innermost first, one segment further on. Going up leaves the innermost segment;
where there is none to leave, `..` itself is kept in a relative path, and nothing is above the top. -/
def enter (absolute : Bool) (trail : List (List Char)) (segment : List Char) : List (List Char) :=
  if isIdle segment then trail
  else if segment = upward then
    match trail with
    | [] => if absolute then [] else [upward]
    | last :: above => if last = upward then (if absolute then trail else upward :: trail) else above
  else segment :: trail

/-- The path without idle segments, and with `..` only in front of a relative path. -/
def normalize (path : List Char) : List Char :=
  let trail := (segments path).foldl (enter (isAbsolute path)) []
  (if isAbsolute path then ['/'] else []) ++ ofSegments trail.reverse

end NestedStyles.Path
