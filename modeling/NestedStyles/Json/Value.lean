/-!
# JSON values

Objects keep their members in the order in which they are written, repetitions included, because a reader of a
particular format may refuse repeated members. Numbers are kept as they are written, too.
-/

namespace NestedStyles

/-- A number as it is written: its sign, the digits before and after the point, and the exponent. -/
structure Numeral where
  negative : Bool := false
  whole : List Char
  fraction : List Char := []
  exponent : Option Int := none
  deriving DecidableEq, Repr

inductive Json where
  | null
  | bool (value : Bool)
  | number (value : Numeral)
  | string (value : String)
  | array (items : List Json)
  | object (members : List (String × Json))
  deriving Repr

namespace Numeral

def ofNat (n : Nat) : Numeral := { whole := Nat.toDigits 10 n }

def digit (c : Char) : Nat := c.toNat - '0'.toNat

def readDigits (digits : List Char) : Nat := digits.foldl (fun n c => n * 10 + digit c) 0

/-- The number, if it is written as a natural number with nothing but digits. -/
def natural? (n : Numeral) : Option Nat :=
  if n.negative || !n.fraction.isEmpty || n.exponent.isSome then none else some (readDigits n.whole)

/-- The largest significand that is kept exactly: it has to fit in 64 bits. -/
def maxSignificand : Nat := 0xFFFFFFFFFFFFFFFF

/-- The leading digits before the point as a significand, and the number of digits that no longer fit. -/
def wholeSignificand (n : Numeral) : Nat × Nat :=
  n.whole.foldl (fun (kept, dropped) c =>
    let longer := kept * 10 + digit c
    if dropped = 0 ∧ longer ≤ maxSignificand then (longer, 0) else (kept, dropped + 1)) (0, 0)

/-- A significand extended by the digits after the point up to the first one that no longer fits, and the number of
digits taken. -/
def takeFraction (significand : Nat) : List Char → Nat × Nat
  | [] => (significand, 0)
  | c :: cs =>
    let longer := significand * 10 + digit c
    if longer ≤ maxSignificand then
      let (all, taken) := takeFraction longer cs
      (all, taken + 1)
    else (significand, 0)

/-- A natural number rounded to 53 significant bits, a half going to the even neighbour. -/
def roundBits (n : Nat) : Nat :=
  let shift := n.log2 + 1 - 53
  let kept := n >>> shift
  let rest := n - kept <<< shift
  let half := 1 <<< shift / 2
  if shift = 0 then n
  else if rest > half ∨ rest = half ∧ kept % 2 = 1 then (kept + 1) <<< shift
  else kept <<< shift

/-- Whether the number is within the range of binary floating point with 53 bits and exponents below 1024. -/
def inRange (n : Numeral) : Bool :=
  let (whole, dropped) := n.wholeSignificand
  let (significand, taken) := takeFraction whole n.fraction
  let scale : Int := n.exponent.getD 0 + dropped - taken
  significand = 0 || scale < 0 ||
    scale ≤ 308 && roundBits significand * roundBits (Nat.pow 10 scale.toNat) < 1 <<< 1024 - 1 <<< 970

end Numeral

end NestedStyles
