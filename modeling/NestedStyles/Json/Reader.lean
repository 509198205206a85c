import NestedStyles.Json.Value

/-!
# Reading JSON

A strict reader: no comments, no trailing commas, no raw control characters and no lone surrogates in strings, numbers
within range, and nothing but white space around the value. Arrays and objects nest at most `maxDepth` deep.
-/

namespace NestedStyles.Json

/-- How deep arrays and objects may nest. -/
def maxDepth : Nat := 127

def isSpace (c : Char) : Bool := c = ' ' || c = '\t' || c = '\n' || c = '\r'

def skip (cs : List Char) : List Char := cs.dropWhile isSpace

def hexDigit? (c : Char) : Option Nat :=
  if '0' ≤ c ∧ c ≤ '9' then some (c.toNat - '0'.toNat)
  else if 'a' ≤ c ∧ c ≤ 'f' then some (c.toNat - 'a'.toNat + 10)
  else if 'A' ≤ c ∧ c ≤ 'F' then some (c.toNat - 'A'.toNat + 10)
  else none

/-- The 16 bit unit that four hexadecimal digits stand for. -/
def unit? (a b c d : Char) : Option Nat := do
  let a ← hexDigit? a
  let b ← hexDigit? b
  let c ← hexDigit? c
  let d ← hexDigit? d
  some (((a * 16 + b) * 16 + c) * 16 + d)

def isHighSurrogate (unit : Nat) : Bool := 0xD800 ≤ unit && unit ≤ 0xDBFF

def isLowSurrogate (unit : Nat) : Bool := 0xDC00 ≤ unit && unit ≤ 0xDFFF

/-- The character that a backslash and this letter stand for. -/
def shortEscape? : Char → Option Char
  | '"' => some '"'
  | '\\' => some '\\'
  | '/' => some '/'
  | 'b' => some '\x08'
  | 'f' => some '\x0c'
  | 'n' => some '\n'
  | 'r' => some '\r'
  | 't' => some '\t'
  | _ => none

/-- The characters up to the closing quote, after those `read` so far in reverse, and the rest of the text. -/
def stringBody (read : List Char) : List Char → Option (String × List Char)
  | [] => none
  | '"' :: cs => some (String.ofList read.reverse, cs)
  | '\\' :: 'u' :: a :: b :: c :: d :: cs =>
    match unit? a b c d with
    | none => none
    | some high =>
      if isLowSurrogate high then none
      else if isHighSurrogate high then
        match cs with
        | '\\' :: 'u' :: e :: f :: g :: h :: cs =>
          match unit? e f g h with
          | none => none
          | some low =>
            if isLowSurrogate low then
              stringBody (Char.ofNat (0x10000 + (high - 0xD800) * 0x400 + (low - 0xDC00)) :: read) cs
            else none
        | _ => none
      else stringBody (Char.ofNat high :: read) cs
  | '\\' :: e :: cs =>
    match shortEscape? e with
    | none => none
    | some c => stringBody (c :: read) cs
  | c :: cs => if c.toNat < 0x20 ∨ c = '\\' then none else stringBody (c :: read) cs

def isDigit (c : Char) : Bool := '0' ≤ c && c ≤ '9'

/-- One digit or more at the start of a text, and the rest. -/
def digits? (cs : List Char) : Option (List Char × List Char) :=
  let digits := cs.takeWhile isDigit
  if digits.isEmpty then none else some (digits, cs.dropWhile isDigit)

/-- The digits after a point, if there is one. -/
def fraction? : List Char → Option (List Char × List Char)
  | '.' :: cs => digits? cs
  | cs => some ([], cs)

/-- The exponent, if there is one. -/
def exponent? : List Char → Option (Option Int × List Char)
  | c :: cs =>
    if c = 'e' ∨ c = 'E' then
      match cs with
      | '-' :: cs => (digits? cs).map fun (digits, rest) => (some (-(Numeral.readDigits digits : Int)), rest)
      | '+' :: cs => (digits? cs).map fun (digits, rest) => (some (Numeral.readDigits digits : Int), rest)
      | cs => (digits? cs).map fun (digits, rest) => (some (Numeral.readDigits digits : Int), rest)
    else some (none, c :: cs)
  | [] => some (none, [])

/-- A number without its sign. A whole part of several digits does not start with a zero. -/
def unsigned? (negative : Bool) (cs : List Char) : Option (Numeral × List Char) := do
  let (whole, cs) ← digits? cs
  if whole.length ≠ 1 ∧ whole.head? = some '0' then none
  else
    let (fraction, cs) ← fraction? cs
    let (exponent, cs) ← exponent? cs
    some ({ negative, whole, fraction, exponent }, cs)

def numeral? : List Char → Option (Numeral × List Char)
  | '-' :: cs => unsigned? true cs
  | cs => unsigned? false cs

/-- Elements separated by commas, the first one already due, up to the closing bracket. -/
def elements {α : Type} (close : Char) (element : List Char → Option (α × List Char)) :
    Nat → List Char → Option (List α × List Char)
  | 0, _ => none
  | steps + 1, cs =>
    match element cs with
    | none => none
    | some (x, cs) =>
      match skip cs with
      | [] => none
      | c :: cs =>
        if c = close then some ([x], cs)
        else if c = ',' then
          match elements close element steps cs with
          | none => none
          | some (xs, cs) => some (x :: xs, cs)
        else none

/-- What stands between an opening bracket and `close`, at most `steps` elements. -/
def bracketed {α : Type} (close : Char) (element : List Char → Option (α × List Char)) (steps : Nat) (cs : List Char) :
    Option (List α × List Char) :=
  match skip cs with
  | [] => none
  | c :: rest => if c = close then some ([], rest) else elements close element steps cs

/-- A member of an object: a string, a colon and a value. -/
def member (value : List Char → Option (Json × List Char)) (cs : List Char) : Option ((String × Json) × List Char) :=
  match skip cs with
  | '"' :: cs =>
    match stringBody [] cs with
    | none => none
    | some (key, cs) =>
      match skip cs with
      | ':' :: cs => (value cs).map fun (v, cs) => ((key, v), cs)
      | _ => none
  | _ => none

/-- A value in which arrays and objects nest at most `depth` deep and have at most `steps` elements each, and the rest
of the text. -/
def value (steps : Nat) : (depth : Nat) → List Char → Option (Json × List Char)
  | depth, cs =>
    match skip cs with
    | 'n' :: 'u' :: 'l' :: 'l' :: cs => some (.null, cs)
    | 't' :: 'r' :: 'u' :: 'e' :: cs => some (.bool true, cs)
    | 'f' :: 'a' :: 'l' :: 's' :: 'e' :: cs => some (.bool false, cs)
    | '"' :: cs => (stringBody [] cs).map fun (s, cs) => (.string s, cs)
    | '[' :: cs =>
      match depth with
      | 0 => none
      | depth + 1 => (bracketed ']' (value steps depth) steps cs).map fun (items, cs) => (.array items, cs)
    | '\x7b' :: cs =>
      match depth with
      | 0 => none
      | depth + 1 => (bracketed '\x7d' (member (value steps depth)) steps cs).map fun (members, cs) => (.object members, cs)
    | cs =>
      match numeral? cs with
      | some (n, cs) => if n.inRange then some (.number n, cs) else none
      | none => none

/-- The value that a text consists of. Every element of a container takes at least one character, so the length of the
text bounds their number. -/
def read? (text : String) : Option Json :=
  match value text.length maxDepth text.toList with
  | some (v, rest) => if (skip rest).isEmpty then some v else none
  | none => none

end NestedStyles.Json
