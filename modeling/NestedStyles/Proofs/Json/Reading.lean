import NestedStyles.Proofs.Json.Grammar
import Mathlib.Data.List.TakeWhile

/-!
# Reading what is written

Whichever way a value is written, the reader takes the text to that value, provided that the value is within the limits,
and refuses the text otherwise (`read?_of_written`).

The reader's number of steps bounds the length of every list. It is shown to suffice by counting the commas of a text.
A number goes on as long as it can, so what comes behind a value must not look like a part of it (`Delimited`).
-/

namespace NestedStyles.Json

variable {cs rest text blank : List Char}

/-! ### White space -/

theorem skip_blank_append (h : Blank blank) (cs : List Char) : skip (blank ++ cs) = skip cs :=
  List.dropWhile_append_of_pos h

theorem skip_cons {c : Char} (h : isSpace c = false) (cs : List Char) : skip (c :: cs) = c :: cs := by simp [skip, h]

theorem value_blank_append (h : Blank blank) (steps depth : Nat) (cs : List Char) :
    value steps depth (blank ++ cs) = value steps depth cs := by
  rw [value.eq_1, value.eq_1, skip_blank_append h]

/-! ### Strings -/

theorem stringBody_spells {chars : List Char} (h : Spells chars text) (read rest : List Char) :
    stringBody read (text ++ '"' :: rest) = some (String.ofList (read.reverse ++ chars), rest) := by
  induction h generalizing read with
  | nil => simp [stringBody]
  | plain hquote hbackslash hcontrol _ ih => simp [stringBody, hbackslash, Nat.not_lt.2 hcontrol, ih]
  | @short e c chars text he _ ih =>
    have hu : e ≠ 'u' := by
      rintro rfl
      simp [shortEscape?] at he
    rw [List.cons_append, List.cons_append, stringBody]
    · simp [he, ih]
    · simp [hu]
  | unit hcode hlow hhigh _ ih => simp [stringBody, hcode, hlow, hhigh, ih]
  | @surrogates a b c d e f g i high low chars text hhigh hlow hhigh' hlow' _ ih =>
    have hne : isLowSurrogate high = false := by
      simp only [isHighSurrogate, isLowSurrogate, Bool.and_eq_true, decide_eq_true_eq, Bool.and_eq_false_iff,
        decide_eq_false_iff_not] at hhigh' ⊢
      omega
    simp [stringBody, hhigh, hlow, hhigh', hlow', hne, ih]

/-! ### Numbers -/

/-- A number cannot go on with this text. -/
def Delimited (rest : List Char) : Prop := ∀ c ∈ rest.head?, isDigit c = false ∧ c ∉ ['.', 'e', 'E']

theorem isSpace_cases {c : Char} (h : isSpace c = true) : c = ' ' ∨ c = '\t' ∨ c = '\n' ∨ c = '\r' := by
  simpa [isSpace, or_assoc] using h

theorem Delimited.blank_append (h : Delimited rest) (hblank : Blank blank) : Delimited (blank ++ rest) := by
  cases blank with
  | nil => exact h
  | cons c blank =>
    rintro c' ⟨⟩
    rcases isSpace_cases (hblank c List.mem_cons_self) with rfl | rfl | rfl | rfl <;> decide

theorem digits?_append (h : Digits cs) (hrest : ∀ c ∈ rest.head?, isDigit c = false) :
    digits? (cs ++ rest) = some (cs, rest) := by
  have hstop : rest.takeWhile isDigit = [] ∧ rest.dropWhile isDigit = rest := by
    cases rest with
    | nil => simp
    | cons c rest => simp [hrest c rfl]
  simp [digits?, List.takeWhile_append_of_pos h.all, List.dropWhile_append_of_pos h.all, hstop, h.ne_nil]

theorem ne_of_isDigit {c d : Char} (hc : isDigit c = true) (hd : isDigit d = false) : c ≠ d := by
  rintro rfl
  simp [hc] at hd

theorem Digits.head (h : Digits cs) : ∃ c ds, cs = c :: ds ∧ isDigit c = true := by
  obtain ⟨c, ds, rfl⟩ := List.exists_cons_of_ne_nil h.ne_nil
  exact ⟨c, ds, rfl, h.all c List.mem_cons_self⟩

theorem fraction?_append {fraction : List Char} (h : WrittenFraction fraction text)
    (hrest : ∀ c ∈ rest.head?, isDigit c = false ∧ c ≠ '.') : fraction? (text ++ rest) = some (fraction, rest) := by
  cases h with
  | none =>
    cases rest with
    | nil => rfl
    | cons c rest => simp [fraction?, (hrest c rfl).2]
  | digits h => exact digits?_append h fun c hc => (hrest c hc).1

theorem exponent?_append {exponent : Option Int} (h : WrittenExponent exponent text) (hrest : Delimited rest) :
    exponent? (text ++ rest) = some (exponent, rest) := by
  have hdigit : ∀ c ∈ rest.head?, isDigit c = false := fun c hc => (hrest c hc).1
  cases h with
  | none =>
    cases rest with
    | nil => rfl
    | cons c rest =>
      have hne := (hrest c rfl).2
      simp_all [exponent?]
  | @unsigned mark cs hmark h =>
    obtain ⟨c, ds, rfl, hc⟩ := h.head
    have hread := digits?_append h hdigit
    have hminus : c ≠ '-' := ne_of_isDigit hc rfl
    have hplus : c ≠ '+' := ne_of_isDigit hc rfl
    simp_all [exponent?]
  | positive hmark h => simp [exponent?, hmark, digits?_append h hdigit]
  | negative hmark h => simp [exponent?, hmark, digits?_append h hdigit]

theorem WrittenExponent.head_append {exponent : Option Int} (h : WrittenExponent exponent text)
    (hrest : Delimited rest) : ∀ c ∈ (text ++ rest).head?, isDigit c = false ∧ c ≠ '.' := by
  cases h with
  | none =>
    intro c hc
    obtain ⟨hdigit, hne⟩ := hrest c hc
    exact ⟨hdigit, fun heq => hne (by simp [heq])⟩
  | unsigned hmark _ | positive hmark _ | negative hmark _ =>
    rintro c ⟨⟩
    rcases hmark with rfl | rfl <;> decide

theorem WrittenFraction.head_append {fraction : List Char} (h : WrittenFraction fraction text)
    (hrest : ∀ c ∈ rest.head?, isDigit c = false) : ∀ c ∈ (text ++ rest).head?, isDigit c = false := by
  cases h with
  | none => exact hrest
  | digits _ =>
    rintro c ⟨⟩
    decide

theorem WrittenUnsigned.head {n : Numeral} (h : WrittenUnsigned n text) :
    ∃ c cs, text = c :: cs ∧ isDigit c = true := by
  obtain ⟨hwhole, -, -, -⟩ := h
  obtain ⟨c, ds, hcons, hc⟩ := hwhole.head
  rw [hcons]
  exact ⟨c, _, rfl, hc⟩

theorem unsigned?_append {n : Numeral} (h : WrittenUnsigned n text) (hrest : Delimited rest) :
    unsigned? n.negative (text ++ rest) = some (n, rest) := by
  obtain @⟨fraction, exponent, hwhole, hzero, hfraction, hexponent⟩ := h
  have hexp := exponent?_append hexponent hrest
  have hafter := hexponent.head_append hrest
  have hfrac := fraction?_append hfraction hafter
  have hdigits := digits?_append hwhole (hfraction.head_append fun c hc => (hafter c hc).1)
  have hstart : ¬(n.whole.length ≠ 1 ∧ n.whole.head? = some '0') := by
    rintro ⟨hlength, hhead⟩
    rcases hzero with hone | hne
    · exact hlength hone
    · exact hne hhead
  rw [List.append_assoc, List.append_assoc]
  simp only [unsigned?, hdigits, Option.bind_eq_bind, Option.bind_some, if_neg hstart, hfrac, hexp]

theorem numeral?_append {n : Numeral} (h : WrittenNumber n text) (hrest : Delimited rest) :
    numeral? (text ++ rest) = some (n, rest) := by
  cases h with
  | positive hsign h =>
    have hread := unsigned?_append h hrest
    rw [hsign] at hread
    obtain ⟨c, ds, htext, hc⟩ := h.head
    have hne : c ≠ '-' := ne_of_isDigit hc rfl
    rw [htext, List.cons_append] at hread ⊢
    simp [numeral?, hne, hread]
  | negative hsign h =>
    have hread := unsigned?_append h hrest
    rw [hsign] at hread
    exact hread

/-- The first character of a number. -/
def IsNumberStart (c : Char) : Prop := c = '-' ∨ isDigit c = true

instance (c : Char) : Decidable (IsNumberStart c) := inferInstanceAs (Decidable (_ ∨ _))

theorem IsNumberStart.ne {c d : Char} (h : IsNumberStart c) (hd : ¬ IsNumberStart d) : c ≠ d := by
  rintro rfl
  exact hd h

theorem IsNumberStart.isSpace_eq {c : Char} (h : IsNumberStart c) : isSpace c = false := by
  apply eq_false_of_ne_true
  intro hspace
  rcases isSpace_cases hspace with rfl | rfl | rfl | rfl <;> exact absurd h (by decide)

theorem WrittenNumber.head {n : Numeral} (h : WrittenNumber n text) :
    ∃ c cs, text = c :: cs ∧ IsNumberStart c := by
  cases h with
  | positive _ h =>
    obtain ⟨c, cs, rfl, hc⟩ := h.head
    exact ⟨c, cs, rfl, .inr hc⟩
  | negative _ h => exact ⟨'-', _, rfl, .inl rfl⟩

/-! ### Lists -/

section Lists

variable {α ε : Type} {close : Char} {element : List Char → Option (α × List Char)} {item : ε → α}
  {form : ε → List Char}

/-- `element` takes up the text of an item that fits, whatever follows, and leaves at most white space of it. It fails
on the text of an item that does not fit. -/
def TakesUp (element : List Char → Option (α × List Char)) (fits : Prop) [Decidable fits] (x : α) (text : List Char) :
    Prop :=
  ∀ rest, Delimited rest →
    ∃ rest', skip rest' = skip rest ∧ element (text ++ rest) = if fits then some (x, rest') else none

theorem length_le_intercalate (texts : List (List Char)) :
    texts.length ≤ (List.intercalate [','] texts).length + 1 ∧
      ∀ text ∈ texts, text.length ≤ (List.intercalate [','] texts).length := by
  induction texts with
  | nil => simp
  | cons first texts ih =>
    cases texts with
    | nil => simp
    | cons second texts =>
      rw [List.intercalate_cons_cons]
      obtain ⟨hlength, hmem⟩ := ih
      rw [List.forall_mem_cons]
      simp only [List.length_append, List.length_cons, List.length_nil] at hlength ⊢
      refine ⟨by omega, by omega, ?_⟩
      intro text htext
      have := hmem text htext
      omega

theorem exists_intercalate_cons (text : List Char) (texts : List (List Char)) :
    ∃ tail, List.intercalate [','] (text :: texts) = text ++ tail := by
  cases texts with
  | nil => exact ⟨[], by simp⟩
  | cons second texts => exact ⟨_, by rw [List.intercalate_cons_cons, List.append_assoc]⟩

theorem enclosed_append (texts : List (List Char)) (blank : List Char) (close : Char) (rest : List Char) :
    enclosed texts blank close ++ rest = List.intercalate [','] texts ++ (blank ++ close :: rest) := by
  simp [enclosed]

variable {fits : ε → Prop} [DecidablePred fits]

/-- If `element` takes up every item that fits and fails on the others, then the list is read just when all its items
fit. -/
theorem elements_enclosed (hclose : close = ']' ∨ close = '\x7d') (hblank : Blank blank) {e : ε} {es : List ε}
    (helement : ∀ e' ∈ e :: es, TakesUp element (fits e') (item e') (form e')) {steps : Nat}
    (hsteps : es.length < steps) (rest : List Char) :
    elements close element steps (enclosed ((e :: es).map form) blank close ++ rest) =
      if ∀ e' ∈ e :: es, fits e' then some ((e :: es).map item, rest) else none := by
  induction es generalizing e steps with
  | nil =>
    obtain ⟨steps, rfl⟩ := Nat.exists_eq_succ_of_ne_zero (Nat.ne_zero_of_lt hsteps)
    have hdelimited : Delimited (blank ++ close :: rest) := by
      apply Delimited.blank_append _ hblank
      rintro c ⟨⟩
      rcases hclose with rfl | rfl <;> decide
    have hspace : isSpace close = false := by rcases hclose with rfl | rfl <;> rfl
    obtain ⟨rest', hskip, hread⟩ := helement e List.mem_cons_self _ hdelimited
    rw [skip_blank_append hblank, skip_cons hspace] at hskip
    rw [elements, enclosed_append, List.map_singleton, List.intercalate_singleton, hread]
    by_cases hfits : fits e
    · simp [hfits, hskip]
    · simp [hfits]
  | cons e' es ih =>
    obtain ⟨steps, rfl⟩ := Nat.exists_eq_succ_of_ne_zero (Nat.ne_zero_of_lt hsteps)
    have hcomma : ',' ≠ close := by rcases hclose with rfl | rfl <;> decide
    have hmore := ih (fun x hx => helement x (.tail e hx)) (Nat.lt_of_succ_lt_succ hsteps)
    have htext : enclosed ((e :: e' :: es).map form) blank close ++ rest =
        form e ++ ',' :: (enclosed ((e' :: es).map form) blank close ++ rest) := by
      simp [enclosed]
    have hdelimited : Delimited (',' :: (enclosed ((e' :: es).map form) blank close ++ rest)) := by
      rintro c ⟨⟩
      decide
    obtain ⟨rest', hskip, hread⟩ := helement e List.mem_cons_self _ hdelimited
    rw [skip_cons rfl] at hskip
    rw [elements, htext, hread]
    by_cases hfits : fits e
    · have hiff : (∀ x ∈ e :: e' :: es, fits x) ↔ ∀ x ∈ e' :: es, fits x := by simp [hfits]
      simp only [hfits, ↓reduceIte, hskip, hcomma, hmore, hiff]
      by_cases hall : ∀ x ∈ e' :: es, fits x
      · rw [if_pos hall, if_pos hall]
        rfl
      · rw [if_neg hall, if_neg hall]
    · simp [hfits]

theorem bracketed_enclosed (hclose : close = ']' ∨ close = '\x7d') (hblank : Blank blank) {es : List ε}
    (helement : ∀ e ∈ es, TakesUp element (fits e) (item e) (form e))
    (hstart : ∀ e ∈ es, ∀ rest, ∃ c cs, skip (form e ++ rest) = c :: cs ∧ c ≠ close) {steps : Nat}
    (hsteps : es.length ≤ steps) (rest : List Char) :
    bracketed close element steps (enclosed (es.map form) blank close ++ rest) =
      if ∀ e ∈ es, fits e then some (es.map item, rest) else none := by
  cases es with
  | nil =>
    have hspace : isSpace close = false := by rcases hclose with rfl | rfl <;> rfl
    have hskip : skip (enclosed [] blank close ++ rest) = close :: rest := by
      rw [enclosed_append, List.intercalate_nil, List.nil_append, skip_blank_append hblank, skip_cons hspace]
    simp [bracketed, hskip]
  | cons e es =>
    obtain ⟨tail, htail⟩ := exists_intercalate_cons (form e) (es.map form)
    obtain ⟨c, cs, hskip, hne⟩ := hstart e List.mem_cons_self (tail ++ (blank ++ close :: rest))
    rw [← List.append_assoc, ← htail, ← enclosed_append] at hskip
    rw [bracketed, List.map_cons, hskip]
    simp only [hne, ↓reduceIte]
    exact elements_enclosed hclose hblank helement hsteps rest

end Lists

/-! ### Values -/

/-- The text of a value starts with neither white space nor a closing bracket. -/
theorem Written.skip_append {v : Json} (h : Written v text) (rest : List Char) :
    ∃ c cs, skip (text ++ rest) = c :: cs ∧ c ≠ ']' := by
  induction h generalizing rest with
  | @padded v left text right hleft _ _ ih =>
    rw [List.append_assoc, List.append_assoc, skip_blank_append hleft]
    exact ih (right ++ rest)
  | null => exact ⟨_, _, skip_cons rfl _, by decide⟩
  | bool b =>
    cases b with
    | true => exact ⟨_, _, skip_cons rfl _, by decide⟩
    | false => exact ⟨_, _, skip_cons rfl _, by decide⟩
  | number h =>
    obtain ⟨c, cs, rfl, hc⟩ := h.head
    exact ⟨_, _, skip_cons hc.isSpace_eq _, hc.ne (by decide)⟩
  | string h =>
    obtain ⟨h⟩ := h
    exact ⟨_, _, skip_cons rfl _, by decide⟩
  | array _ _ => exact ⟨_, _, skip_cons rfl _, by decide⟩
  | object _ _ _ => exact ⟨_, _, skip_cons rfl _, by decide⟩

theorem WrittenName.skip_append {name : String} (h : WrittenName name text) :
    ∃ body, Spells name.toList body ∧
      ∃ blank, Blank blank ∧ ∀ rest, skip (text ++ rest) = '"' :: (body ++ '"' :: (blank ++ rest)) := by
  obtain ⟨hleft, hright, ⟨h⟩⟩ := h
  refine ⟨_, h, _, hright, ?_⟩
  intro rest
  rw [List.append_assoc, List.append_assoc, skip_blank_append hleft, List.cons_append, List.cons_append, skip_cons rfl]
  simp

theorem takesUp_member {read : List Char → Option (Json × List Char)} {e : Entry} {fits : Prop} [Decidable fits]
    (hname : WrittenName e.name e.label) (hvalue : TakesUp read fits e.value e.body) :
    TakesUp (member read) fits e.member e.text := by
  intro rest hrest
  obtain ⟨rest', hskip, hread⟩ := hvalue rest hrest
  obtain ⟨body, hbody, blank, hblank, hlabel⟩ := hname.skip_append
  refine ⟨rest', hskip, ?_⟩
  have hcolon : skip (blank ++ ':' :: (e.body ++ rest)) = ':' :: (e.body ++ rest) := by
    rw [skip_blank_append hblank, skip_cons rfl]
  rw [Entry.text, List.append_assoc, List.cons_append, member, hlabel]
  simp only [stringBody_spells hbody, hcolon, hread]
  by_cases hfits : fits
  · simp [hfits, Entry.member]
  · simp [hfits]

theorem takesUp_number {n : Numeral} (h : WrittenNumber n text) (steps depth : Nat) :
    TakesUp (value steps depth) (n.inRange = true) (.number n) text := by
  intro rest hrest
  refine ⟨rest, rfl, ?_⟩
  have hread := numeral?_append h hrest
  obtain ⟨c, cs, rfl, hc⟩ := h.head
  rw [List.cons_append] at hread ⊢
  rw [value.eq_1, skip_cons hc.isSpace_eq]
  -- the first character is that of no other value
  split
  · next h => exact absurd (List.cons.inj h).1 (hc.ne (by decide))
  · next h => exact absurd (List.cons.inj h).1 (hc.ne (by decide))
  · next h => exact absurd (List.cons.inj h).1 (hc.ne (by decide))
  · next h => exact absurd (List.cons.inj h).1 (hc.ne (by decide))
  · next h => exact absurd (List.cons.inj h).1 (hc.ne (by decide))
  · next h => exact absurd (List.cons.inj h).1 (hc.ne (by decide))
  · simp only [hread]

theorem takesUp_string {s : String} (h : WrittenString s text) (steps depth : Nat) :
    TakesUp (value steps depth) True (.string s) text := by
  intro rest _
  obtain ⟨h⟩ := h
  have hbody := stringBody_spells h [] rest
  exact ⟨rest, rfl, by simp [value.eq_1, skip_cons (show isSpace '"' = false from rfl), hbody]⟩

theorem takesUp_array {items : List (Json × List Char)} (hblank : Blank blank) {steps depth : Nat}
    (hwritten : ∀ item ∈ items, Written item.1 item.2) (hsteps : items.length ≤ steps)
    (hitems : ∀ item ∈ items, TakesUp (value steps depth) (item.1.Within depth) item.1 item.2) :
    TakesUp (value steps (depth + 1)) ((Json.array (items.map (·.1))).Within (depth + 1)) (.array (items.map (·.1)))
      ('[' :: enclosed (items.map (·.2)) blank ']') := by
  intro rest _
  have hstart : ∀ item ∈ items, ∀ rest, ∃ c cs, skip (item.2 ++ rest) = c :: cs ∧ c ≠ ']' :=
    fun item hitem => (hwritten item hitem).skip_append
  have hread := bracketed_enclosed (.inl rfl) hblank hitems hstart hsteps rest
  refine ⟨rest, rfl, ?_⟩
  rw [List.cons_append, value.eq_1, skip_cons rfl]
  simp only [hread, within_array, List.forall_mem_map]
  by_cases hfits : ∀ item ∈ items, item.1.Within depth
  · rw [if_pos hfits, if_pos hfits, Option.map_some]
  · rw [if_neg hfits, if_neg hfits, Option.map_none]

theorem takesUp_object {entries : List Entry} (hblank : Blank blank) {steps depth : Nat}
    (hnames : ∀ e ∈ entries, WrittenName e.name e.label) (hsteps : entries.length ≤ steps)
    (hvalues : ∀ e ∈ entries, TakesUp (value steps depth) (e.value.Within depth) e.value e.body) :
    TakesUp (value steps (depth + 1)) ((Json.object (entries.map Entry.member)).Within (depth + 1))
      (.object (entries.map Entry.member)) ('\x7b' :: enclosed (entries.map Entry.text) blank '\x7d') := by
  intro rest _
  have hmembers : ∀ e ∈ entries, TakesUp (member (value steps depth)) (e.value.Within depth) e.member e.text :=
    fun e he => takesUp_member (hnames e he) (hvalues e he)
  have hstart : ∀ e ∈ entries, ∀ rest, ∃ c cs, skip (e.text ++ rest) = c :: cs ∧ c ≠ '\x7d' := by
    intro e he rest
    obtain ⟨body, _, blank, _, hlabel⟩ := (hnames e he).skip_append
    rw [Entry.text, List.append_assoc, hlabel]
    exact ⟨_, _, rfl, by decide⟩
  have hread := bracketed_enclosed (.inr rfl) hblank hmembers hstart hsteps rest
  refine ⟨rest, rfl, ?_⟩
  rw [List.cons_append, value.eq_1, skip_cons rfl]
  simp only [hread, within_object, List.forall_mem_map, Entry.member]
  by_cases hfits : ∀ e ∈ entries, e.value.Within depth
  · rw [if_pos hfits, if_pos hfits, Option.map_some]
  · rw [if_neg hfits, if_neg hfits, Option.map_none]

theorem length_le_enclosed (texts : List (List Char)) (blank : List Char) (close : Char) :
    texts.length ≤ (enclosed texts blank close).length ∧
      ∀ text ∈ texts, text.length ≤ (enclosed texts blank close).length := by
  obtain ⟨hlength, hmem⟩ := length_le_intercalate texts
  simp only [enclosed, List.length_append, List.length_cons, List.length_nil]
  refine ⟨by omega, ?_⟩
  intro text htext
  have := hmem text htext
  omega

/-- The steps are those of the whole text, so that they suffice for the lists within it. -/
theorem takesUp_written {v : Json} (h : Written v text) {steps depth : Nat} (hsteps : text.length ≤ steps) :
    TakesUp (value steps depth) (v.Within depth) v text := by
  induction h generalizing depth with
  | @padded v left text right hleft hright h ih =>
    intro rest hrest
    simp only [List.length_append] at hsteps
    obtain ⟨rest', hskip, hread⟩ := ih (by omega) (right ++ rest) (hrest.blank_append hright)
    rw [skip_blank_append hright] at hskip
    rw [List.append_assoc, List.append_assoc, value_blank_append hleft]
    exact ⟨rest', hskip, hread⟩
  | null =>
    intro rest _
    exact ⟨rest, rfl, by simp [value.eq_1, skip, isSpace, Within, Json.depth, numerals]⟩
  | bool b =>
    intro rest _
    cases b <;> exact ⟨rest, rfl, by simp [value.eq_1, skip, isSpace, Within, Json.depth, numerals]⟩
  | @number n text h =>
    have hfits : (Json.number n).Within depth ↔ n.inRange = true := by simp [Within, Json.depth, numerals]
    simpa only [TakesUp, hfits] using takesUp_number h steps depth
  | @string s text h =>
    have hfits : (Json.string s).Within depth ↔ True := by simp [Within, Json.depth, numerals]
    simpa only [TakesUp, hfits] using takesUp_string h steps depth
  | @array items blank hblank h ih =>
    have hlength := length_le_enclosed (items.map (·.2)) blank ']'
    rw [List.length_map, List.forall_mem_map] at hlength
    rw [List.length_cons] at hsteps
    cases depth with
    | zero =>
      intro rest _
      exact ⟨rest, rfl, by simp [value.eq_1, skip, isSpace, Within, Json.depth]⟩
    | succ depth =>
      refine takesUp_array hblank h (by omega) ?_
      intro item hitem
      have := hlength.2 item hitem
      exact ih item hitem (by omega)
  | @object entries blank hblank hnames h ih =>
    have hlength := length_le_enclosed (entries.map Entry.text) blank '\x7d'
    rw [List.length_map, List.forall_mem_map] at hlength
    rw [List.length_cons] at hsteps
    cases depth with
    | zero =>
      intro rest _
      exact ⟨rest, rfl, by simp [value.eq_1, skip, isSpace, Within, Json.depth]⟩
    | succ depth =>
      refine takesUp_object hblank hnames (by omega) ?_
      intro e he
      have := hlength.2 e he
      simp only [Entry.text, List.length_append, List.length_cons] at this
      exact ih e he (by omega)

/-- Reading one of the texts of a value gives the value, unless it is beyond the limits. -/
theorem read?_of_written {text : String} {v : Json} (h : Written v text.toList) :
    read? text = if v.Within maxDepth then some v else none := by
  have hdelimited : Delimited [] := by simp [Delimited]
  have hsteps : text.toList.length ≤ text.length := by rw [String.length_toList]
  obtain ⟨rest, hskip, hread⟩ := takesUp_written h hsteps [] hdelimited
  have hnil : skip rest = [] := hskip
  rw [List.append_nil] at hread
  rw [read?, hread]
  by_cases hfits : v.Within maxDepth
  · simp [hfits, hnil]
  · simp [hfits]

end NestedStyles.Json
