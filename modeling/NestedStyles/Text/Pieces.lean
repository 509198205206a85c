/-!
# Cutting texts

Splitting a text at every occurrence of a character, at the first occurrence of a pattern, and into lines.
-/

namespace NestedStyles.Text

/-- The pieces of a text between the occurrences of `sep`. There is one piece more than there are separators, so a
text without `sep` is its own only piece. -/
def pieces (sep : Char) : List Char → List (List Char)
  | [] => [[]]
  | c :: cs =>
    if c = sep then [] :: pieces sep cs
    else match pieces sep cs with
      | [] => [[c]]
      | piece :: rest => (c :: piece) :: rest

/-- What stands before and after the first occurrence of `pattern`. -/
def cut? (pattern : List Char) : List Char → Option (List Char × List Char)
  | [] => if pattern.isEmpty then some ([], []) else none
  | c :: cs =>
    match pattern.isPrefixOf? (c :: cs) with
    | some rest => some ([], rest)
    | none => (cut? pattern cs).map fun (before, after) => (c :: before, after)

/-- Whether `pattern` occurs in a text. -/
def occurs (pattern cs : List Char) : Bool := (cut? pattern cs).isSome

/-- A carriage return right before the end of a line belongs to the line's end. -/
def dropReturn (line : List Char) : List Char :=
  if line.getLast? = some '\r' then line.dropLast else line

/-- The lines of a text. A line ends with a line feed, or with a carriage return and a line feed; what follows the
last line feed is a line unless it is empty. -/
def lines (cs : List Char) : List (List Char) :=
  let all := pieces '\n' cs
  all.dropLast.map dropReturn ++ (all.getLast?.toList.filter fun line => !line.isEmpty)

theorem pieces_ne_nil (sep : Char) (cs : List Char) : pieces sep cs ≠ [] := by
  cases cs with
  | nil => simp [pieces]
  | cons c cs =>
    simp only [pieces]
    split
    · simp
    · split <;> simp

/-- Nothing is lost: the pieces joined by the separator are the text. -/
theorem intercalate_pieces (sep : Char) (cs : List Char) : List.intercalate [sep] (pieces sep cs) = cs := by
  induction cs with
  | nil => rfl
  | cons c cs ih =>
    simp only [pieces]
    cases hp : pieces sep cs with
    | nil => exact absurd hp (pieces_ne_nil sep cs)
    | cons piece rest =>
      rw [hp] at ih
      split
      · next h => subst h; rw [← ih]; simp [List.intercalate, List.intersperse]
      · rw [← ih]; cases rest <;> simp [List.intercalate, List.intersperse]

end NestedStyles.Text
