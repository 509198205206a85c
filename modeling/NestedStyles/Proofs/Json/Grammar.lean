import NestedStyles.Json.Reader

/-!
# The grammar of JSON texts

`Written v text` says that a text is one of the ways to write a value. White space is free around every value and name,
characters of strings may be escaped, and a number has one text for each way to write its exponent. This is the strict
format: there are no comments and no trailing commas, no character of a string is a raw control character, and a
surrogate is never alone. `Within` has the limits that a reader adds to it.
-/

namespace NestedStyles.Json

def Blank (cs : List Char) : Prop := ∀ c ∈ cs, isSpace c = true

/-! ### Strings -/

/-- The ways to write the characters of a string between its quotes. -/
inductive Spells : List Char → List Char → Prop
  | nil : Spells [] []
  | plain {c : Char} {cs text : List Char} (hquote : c ≠ '"') (hbackslash : c ≠ '\\') (hcontrol : 0x20 ≤ c.toNat)
      (h : Spells cs text) : Spells (c :: cs) (c :: text)
  | short {e c : Char} {cs text : List Char} (he : shortEscape? e = some c) (h : Spells cs text) :
      Spells (c :: cs) ('\\' :: e :: text)
  | unit {a b c d : Char} {code : Nat} {cs text : List Char} (hcode : unit? a b c d = some code)
      (hlow : isLowSurrogate code = false) (hhigh : isHighSurrogate code = false) (h : Spells cs text) :
      Spells (Char.ofNat code :: cs) ('\\' :: 'u' :: a :: b :: c :: d :: text)
  | surrogates {a b c d e f g i : Char} {high low : Nat} {cs text : List Char} (hhigh : unit? a b c d = some high)
      (hlow : unit? e f g i = some low) (hhigh' : isHighSurrogate high = true) (hlow' : isLowSurrogate low = true)
      (h : Spells cs text) :
      Spells (Char.ofNat (0x10000 + (high - 0xD800) * 0x400 + (low - 0xDC00)) :: cs)
        ('\\' :: 'u' :: a :: b :: c :: d :: '\\' :: 'u' :: e :: f :: g :: i :: text)

/-- A string with its quotes. -/
inductive WrittenString : String → List Char → Prop
  | mk {s : String} {body : List Char} (h : Spells s.toList body) : WrittenString s ('"' :: body ++ ['"'])

/-! ### Numbers -/

/-- One digit or more. -/
structure Digits (cs : List Char) : Prop where
  ne_nil : cs ≠ []
  all : ∀ c ∈ cs, isDigit c = true

inductive WrittenFraction : List Char → List Char → Prop
  | none : WrittenFraction [] []
  | digits {cs : List Char} (h : Digits cs) : WrittenFraction cs ('.' :: cs)

inductive WrittenExponent : Option Int → List Char → Prop
  | none : WrittenExponent none []
  | unsigned {mark : Char} {cs : List Char} (hmark : mark = 'e' ∨ mark = 'E') (h : Digits cs) :
      WrittenExponent (some (Numeral.readDigits cs)) (mark :: cs)
  | positive {mark : Char} {cs : List Char} (hmark : mark = 'e' ∨ mark = 'E') (h : Digits cs) :
      WrittenExponent (some (Numeral.readDigits cs)) (mark :: '+' :: cs)
  | negative {mark : Char} {cs : List Char} (hmark : mark = 'e' ∨ mark = 'E') (h : Digits cs) :
      WrittenExponent (some (-Numeral.readDigits cs)) (mark :: '-' :: cs)

/-- A number without its sign. A zero at the start stands alone before the point. -/
inductive WrittenUnsigned : Numeral → List Char → Prop
  | mk {n : Numeral} {fraction exponent : List Char} (hwhole : Digits n.whole)
      (hzero : n.whole.length = 1 ∨ n.whole.head? ≠ some '0') (hfraction : WrittenFraction n.fraction fraction)
      (hexponent : WrittenExponent n.exponent exponent) : WrittenUnsigned n (n.whole ++ fraction ++ exponent)

inductive WrittenNumber : Numeral → List Char → Prop
  | positive {n : Numeral} {text : List Char} (hsign : n.negative = false) (h : WrittenUnsigned n text) :
      WrittenNumber n text
  | negative {n : Numeral} {text : List Char} (hsign : n.negative = true) (h : WrittenUnsigned n text) :
      WrittenNumber n ('-' :: text)

/-! ### Values -/

/-- A member of an object with its texts before and after the colon. -/
structure Entry where
  name : String
  label : List Char
  value : Json
  body : List Char

namespace Entry

def member (e : Entry) : String × Json := (e.name, e.value)

def text (e : Entry) : List Char := e.label ++ ':' :: e.body

end Entry

/-- A name with white space around it. -/
inductive WrittenName : String → List Char → Prop
  | mk {name : String} {left text right : List Char} (hleft : Blank left) (hright : Blank right)
      (h : WrittenString name text) : WrittenName name (left ++ text ++ right)

/-- The texts in a container: what is between the commas, and white space before the closing bracket. -/
def enclosed (texts : List (List Char)) (blank : List Char) (close : Char) : List Char :=
  List.intercalate [','] texts ++ (blank ++ [close])

inductive Written : Json → List Char → Prop
  | padded {v : Json} {left text right : List Char} (hleft : Blank left) (hright : Blank right) (h : Written v text) :
      Written v (left ++ text ++ right)
  | null : Written .null "null".toList
  | bool (b : Bool) : Written (.bool b) (if b then "true".toList else "false".toList)
  | number {n : Numeral} {text : List Char} (h : WrittenNumber n text) : Written (.number n) text
  | string {s : String} {text : List Char} (h : WrittenString s text) : Written (.string s) text
  | array {items : List (Json × List Char)} {blank : List Char} (hblank : Blank blank)
      (h : ∀ item ∈ items, Written item.1 item.2) :
      Written (.array (items.map (·.1))) ('[' :: enclosed (items.map (·.2)) blank ']')
  | object {entries : List Entry} {blank : List Char} (hblank : Blank blank)
      (hnames : ∀ e ∈ entries, WrittenName e.name e.label) (h : ∀ e ∈ entries, Written e.value e.body) :
      Written (.object (entries.map Entry.member)) ('\x7b' :: enclosed (entries.map Entry.text) blank '\x7d')

theorem Written.blank_append {v : Json} {left text : List Char} (h : Written v text) (hleft : Blank left) :
    Written v (left ++ text) := by
  have hright : Blank [] := by simp [Blank]
  simpa using h.padded hleft hright

theorem Written.append_blank {v : Json} {text right : List Char} (h : Written v text) (hright : Blank right) :
    Written v (text ++ right) := by
  have hleft : Blank [] := by simp [Blank]
  exact h.padded hleft hright

/-! ### Limits -/

mutual

/-- How deep arrays and objects nest in a value. -/
def depth : Json → Nat
  | .array items => depthItems items + 1
  | .object members => depthMembers members + 1
  | _ => 0

def depthItems : List Json → Nat
  | [] => 0
  | item :: items => max item.depth (depthItems items)

def depthMembers : List (String × Json) → Nat
  | [] => 0
  | (_, value) :: members => max value.depth (depthMembers members)

end

theorem depthItems_le {items : List Json} {bound : Nat} :
    depthItems items ≤ bound ↔ ∀ item ∈ items, item.depth ≤ bound := by
  induction items with
  | nil => simp [depthItems]
  | cons item items ih => simp only [depthItems, Nat.max_le, List.forall_mem_cons, ih]

theorem depthMembers_le {members : List (String × Json)} {bound : Nat} :
    depthMembers members ≤ bound ↔ ∀ m ∈ members, m.2.depth ≤ bound := by
  induction members with
  | nil => simp [depthMembers]
  | cons m members ih => simp only [depthMembers, Nat.max_le, List.forall_mem_cons, ih]

mutual

/-- The numbers in a value. -/
def numerals : Json → List Numeral
  | .number n => [n]
  | .array items => numeralsItems items
  | .object members => numeralsMembers members
  | _ => []

def numeralsItems : List Json → List Numeral
  | [] => []
  | item :: items => item.numerals ++ numeralsItems items

def numeralsMembers : List (String × Json) → List Numeral
  | [] => []
  | (_, value) :: members => value.numerals ++ numeralsMembers members

end

theorem forall_numeralsItems {items : List Json} {good : Numeral → Prop} :
    (∀ n ∈ numeralsItems items, good n) ↔ ∀ item ∈ items, ∀ n ∈ item.numerals, good n := by
  induction items with
  | nil => simp [numeralsItems]
  | cons item items ih => simp only [numeralsItems, List.forall_mem_append, List.forall_mem_cons, ih]

theorem forall_numeralsMembers {members : List (String × Json)} {good : Numeral → Prop} :
    (∀ n ∈ numeralsMembers members, good n) ↔ ∀ m ∈ members, ∀ n ∈ m.2.numerals, good n := by
  induction members with
  | nil => simp [numeralsMembers]
  | cons m members ih => simp only [numeralsMembers, List.forall_mem_append, List.forall_mem_cons, ih]

/-- The value nests at most `bound` deep, and its numbers are within range. -/
def Within (bound : Nat) (v : Json) : Prop := v.depth ≤ bound ∧ ∀ n ∈ v.numerals, n.inRange = true

instance (bound : Nat) (v : Json) : Decidable (v.Within bound) := inferInstanceAs (Decidable (_ ∧ _))

theorem Within.mono {v : Json} {bound bound' : Nat} (h : v.Within bound) (hle : bound ≤ bound') : v.Within bound' :=
  ⟨Nat.le_trans h.1 hle, h.2⟩

theorem within_array {bound : Nat} {items : List Json} :
    (Json.array items).Within (bound + 1) ↔ ∀ item ∈ items, item.Within bound := by
  simp only [Within, depth, numerals, Nat.add_le_add_iff_right, depthItems_le, forall_numeralsItems,
    imp_and, forall_and]

theorem within_object {bound : Nat} {members : List (String × Json)} :
    (Json.object members).Within (bound + 1) ↔ ∀ m ∈ members, m.2.Within bound := by
  simp only [Within, depth, numerals, Nat.add_le_add_iff_right, depthMembers_le, forall_numeralsMembers,
    imp_and, forall_and]

end NestedStyles.Json
