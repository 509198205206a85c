import NestedStyles.Text.Blank

/-!
# References to variables

A variable is referred to as `$name` or, in the middle of other text, as an interpolation `#{ $name }`. Substitution
first replaces the interpolations of bound names and then, in the text that results, the plain references to bound
names. A reference to an unbound name stays as it is written.
-/

namespace NestedStyles.Reference

open Text

/-- What a name is bound to. -/
abbrev Lookup := String → Option String

/-- The characters of a name in a reference. -/
def isNameChar (c : Char) : Bool := c.isAlphanum || c = '_' || c = '-'

/-- A way to write a reference: how to read one off the start of a text, giving its name and the rest. -/
structure Form where
  read? : List Char → Option (List Char × List Char)
  shorter : ∀ {cs name rest}, read? cs = some (name, rest) → rest.length < cs.length

/-- A name at the start of a text, as long as possible and not empty, and the rest of the text. -/
def name? (cs : List Char) : Option (List Char × List Char) :=
  if cs.takeWhile isNameChar = [] then none
  else some (cs.takeWhile isNameChar, cs.dropWhile isNameChar)

/-- The reference `$name` at the start of a text. -/
def plain? : List Char → Option (List Char × List Char)
  | '$' :: cs => name? cs
  | _ => none

/-- What follows a closing brace that only white space comes before. -/
def closed? (cs : List Char) : Option (List Char) :=
  match trimStart cs with
  | '\x7d' :: rest => some rest
  | _ => none

/-- The reference `#{ $name }` at the start of a text, with any white space inside the braces. -/
def interpolation? : List Char → Option (List Char × List Char)
  | '#' :: '\x7b' :: cs => do
    let (name, rest) ← plain? (trimStart cs)
    let rest ← closed? rest
    some (name, rest)
  | _ => none

theorem name?_shorter {cs name rest : List Char} (h : name? cs = some (name, rest)) :
    rest.length < cs.length := by
  unfold name? at h
  split at h
  · simp at h
  · next hne =>
    obtain ⟨rfl, rfl⟩ : cs.takeWhile isNameChar = name ∧ cs.dropWhile isNameChar = rest := by simpa using h
    have hsum := congrArg List.length (List.takeWhile_append_dropWhile (p := isNameChar) (l := cs))
    have hpos := List.length_pos_iff.2 hne
    rw [List.length_append] at hsum
    omega

theorem plain?_shorter {cs name rest : List Char} (h : plain? cs = some (name, rest)) :
    rest.length < cs.length := by
  unfold plain? at h
  split at h
  · have := name?_shorter h
    simp only [List.length_cons]
    omega
  · simp at h

theorem closed?_shorter {cs rest : List Char} (h : closed? cs = some rest) : rest.length < cs.length := by
  unfold closed? at h
  split at h
  · next hcs =>
    obtain rfl := Option.some.inj h
    have hle := length_trimStart_le cs
    rw [hcs, List.length_cons] at hle
    omega
  · simp at h

theorem interpolation?_shorter {cs name rest : List Char} (h : interpolation? cs = some (name, rest)) :
    rest.length < cs.length := by
  unfold interpolation? at h
  split at h
  · next cs =>
    simp only [Option.bind_eq_bind, Option.bind_eq_some_iff, Prod.exists] at h
    obtain ⟨name', rest', hplain, rest'', hclosed, hsome⟩ := h
    obtain ⟨rfl, rfl⟩ : name' = name ∧ rest'' = rest := by simpa using hsome
    have h₁ := plain?_shorter hplain
    have h₂ := closed?_shorter hclosed
    have h₃ := length_trimStart_le cs
    simp only [List.length_cons]
    omega
  · simp at h

def plain : Form := ⟨plain?, plain?_shorter⟩

def interpolation : Form := ⟨interpolation?, interpolation?_shorter⟩

/-- The value of a reference to a bound name at the start of a text, and the rest of the text. -/
def Form.bound? (form : Form) (lookup : Lookup) (cs : List Char) : Option (List Char × List Char) := do
  let (name, rest) ← form.read? cs
  let value ← lookup (String.ofList name)
  some (value.toList, rest)

theorem Form.bound?_shorter {form : Form} {lookup : Lookup} {cs value rest : List Char}
    (h : form.bound? lookup cs = some (value, rest)) : rest.length < cs.length := by
  simp only [bound?, Option.bind_eq_bind, Option.bind_eq_some_iff, Prod.exists] at h
  obtain ⟨name, rest', hread, value', _, hsome⟩ := h
  obtain ⟨_, rfl⟩ : value'.toList = value ∧ rest' = rest := by simpa using hsome
  exact form.shorter hread

/-- Replaces, from left to right, every reference to a bound name that is written in the given form. -/
def Form.fill (form : Form) (lookup : Lookup) : List Char → List Char
  | [] => []
  | c :: cs =>
    match _h : form.bound? lookup (c :: cs) with
    | none => c :: form.fill lookup cs
    | some (value, rest) => value ++ form.fill lookup rest
termination_by cs => cs.length
decreasing_by
  · simp
  · exact form.bound?_shorter _h

/-- The text with every reference to a bound name replaced by its value. -/
def substitute (lookup : Lookup) (text : String) : String :=
  if '$' ∈ text.toList then String.ofList (plain.fill lookup (interpolation.fill lookup text.toList)) else text

end NestedStyles.Reference
