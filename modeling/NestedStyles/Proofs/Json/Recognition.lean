import NestedStyles.Proofs.Json.Reading
import Mathlib.Data.List.TakeWhile

/-!
# What has been read

The reader takes nothing but texts of the grammar: what it has read is a value that the text is a way to write, and it
is within the limits. Together with the converse this determines the result of reading (`read?_eq_some_iff`). A text is
in particular a way to write at most one value within the limits.
-/

namespace NestedStyles.Json

variable {cs rest : List Char}

theorem exists_blank_append_skip (cs : List Char) : ∃ blank, Blank blank ∧ cs = blank ++ skip cs :=
  ⟨cs.takeWhile isSpace, fun _ hc => List.mem_takeWhile_imp hc, List.takeWhile_append_dropWhile.symm⟩

/-! ### Strings -/

/-- After the characters `read` in reverse, the text goes on with the rest of a string and its closing quote. -/
def Closes (read cs : List Char) (s : String) (rest : List Char) : Prop :=
  ∃ chars text, cs = text ++ '"' :: rest ∧ s = String.ofList (read.reverse ++ chars) ∧ Spells chars text

theorem Closes.extend {read : List Char} {c : Char} {s : String} (h : Closes (c :: read) cs s rest) (start : List Char)
    (hstart : ∀ {chars text}, Spells chars text → Spells (c :: chars) (start ++ text)) :
    Closes read (start ++ cs) s rest := by
  obtain ⟨chars, text, rfl, rfl, hspells⟩ := h
  exact ⟨c :: chars, start ++ text, by simp, by simp, hstart hspells⟩

theorem closes_of_stringBody {read : List Char} {s : String} (h : stringBody read cs = some (s, rest)) :
    Closes read cs s rest := by
  fun_induction stringBody read cs with
  | case2 read cs =>
    obtain ⟨rfl, rfl⟩ := Prod.mk.inj (Option.some.inj h)
    exact ⟨[], [], rfl, by simp, .nil⟩
  | case6 read a b c d high hcode hlow hhigh e f g i cs low hcode' hlow' ih =>
    exact (ih h).extend ['\\', 'u', a, b, c, d, '\\', 'u', e, f, g, i] (.surrogates hcode hcode' hhigh hlow')
  | case9 read a b c d cs code hcode hlow hhigh ih =>
    exact (ih h).extend ['\\', 'u', a, b, c, d]
      (.unit hcode (eq_false_of_ne_true hlow) (eq_false_of_ne_true hhigh))
  | case11 read e cs _ c he ih => exact (ih h).extend ['\\', e] (.short he)
  | case13 read c cs hquote _ _ hplain ih =>
    obtain ⟨hcontrol, hbackslash⟩ := not_or.1 hplain
    exact (ih h).extend [c] (.plain hquote hbackslash (Nat.not_lt.1 hcontrol))
  | _ => simp at h

/-! ### Numbers -/

theorem digits_of_digits? {ds : List Char} (h : digits? cs = some (ds, rest)) : Digits ds ∧ cs = ds ++ rest := by
  rw [digits?] at h
  by_cases hempty : (cs.takeWhile isDigit).isEmpty
  · simp [hempty] at h
  · obtain ⟨rfl, rfl⟩ : cs.takeWhile isDigit = ds ∧ cs.dropWhile isDigit = rest := by simpa [hempty] using h
    exact ⟨⟨by simpa using hempty, fun _ hc => List.mem_takeWhile_imp hc⟩, List.takeWhile_append_dropWhile.symm⟩

theorem written_of_fraction? {fraction : List Char} (h : fraction? cs = some (fraction, rest)) :
    ∃ text, cs = text ++ rest ∧ WrittenFraction fraction text := by
  unfold fraction? at h
  split at h
  · obtain ⟨hdigits, rfl⟩ := digits_of_digits? h
    exact ⟨_, rfl, .digits hdigits⟩
  · obtain ⟨rfl, rfl⟩ := Prod.mk.inj (Option.some.inj h)
    exact ⟨[], rfl, .none⟩

theorem digits_of_map (sign : List Char → Int) {exponent : Option Int}
    (h : (digits? cs).map (fun found => (some (sign found.1), found.2)) = some (exponent, rest)) :
    ∃ digits, Digits digits ∧ cs = digits ++ rest ∧ exponent = some (sign digits) := by
  obtain ⟨⟨digits, _⟩, hread, heq⟩ := Option.map_eq_some_iff.1 h
  obtain ⟨rfl, rfl⟩ := Prod.mk.inj heq
  obtain ⟨hdigits, rfl⟩ := digits_of_digits? hread
  exact ⟨digits, hdigits, rfl, rfl⟩

theorem written_of_exponent? {exponent : Option Int} (h : exponent? cs = some (exponent, rest)) :
    ∃ text, cs = text ++ rest ∧ WrittenExponent exponent text := by
  unfold exponent? at h
  split at h
  · next mark cs =>
    by_cases hmark : mark = 'e' ∨ mark = 'E'
    · rw [if_pos hmark] at h
      split at h
      · obtain ⟨digits, hdigits, rfl, rfl⟩ := digits_of_map (fun digits => -(Numeral.readDigits digits : Int)) h
        exact ⟨mark :: '-' :: digits, rfl, .negative hmark hdigits⟩
      · obtain ⟨digits, hdigits, rfl, rfl⟩ := digits_of_map (fun digits => (Numeral.readDigits digits : Int)) h
        exact ⟨mark :: '+' :: digits, rfl, .positive hmark hdigits⟩
      · obtain ⟨digits, hdigits, rfl, rfl⟩ := digits_of_map (fun digits => (Numeral.readDigits digits : Int)) h
        exact ⟨mark :: digits, rfl, .unsigned hmark hdigits⟩
    · rw [if_neg hmark] at h
      obtain ⟨rfl, rfl⟩ := Prod.mk.inj (Option.some.inj h)
      exact ⟨[], rfl, .none⟩
  · obtain ⟨rfl, rfl⟩ := Prod.mk.inj (Option.some.inj h)
    exact ⟨[], rfl, .none⟩

theorem written_of_unsigned? {negative : Bool} {n : Numeral} (h : unsigned? negative cs = some (n, rest)) :
    n.negative = negative ∧ ∃ text, cs = text ++ rest ∧ WrittenUnsigned n text := by
  simp only [unsigned?, Option.bind_eq_bind, Option.bind_eq_some_iff] at h
  obtain ⟨⟨whole, cs₁⟩, hwhole, h⟩ := h
  by_cases hzero : whole.length ≠ 1 ∧ whole.head? = some '0'
  · simp [hzero] at h
  · simp only [if_neg hzero, Option.bind_eq_some_iff] at h
    obtain ⟨⟨fraction, cs₂⟩, hfraction, ⟨exponent, cs₃⟩, hexponent, h⟩ := h
    obtain ⟨rfl, rfl⟩ := Prod.mk.inj (Option.some.inj h)
    obtain ⟨hdigits, rfl⟩ := digits_of_digits? hwhole
    obtain ⟨text₂, rfl, hwritten₂⟩ := written_of_fraction? hfraction
    obtain ⟨text₃, rfl, hwritten₃⟩ := written_of_exponent? hexponent
    refine ⟨rfl, whole ++ text₂ ++ text₃, by simp, ⟨hdigits, ?_, hwritten₂, hwritten₃⟩⟩
    by_cases hone : whole.length = 1
    · exact .inl hone
    · exact .inr fun hhead => hzero ⟨hone, hhead⟩

theorem written_of_numeral? {n : Numeral} (h : numeral? cs = some (n, rest)) :
    ∃ text, cs = text ++ rest ∧ WrittenNumber n text := by
  unfold numeral? at h
  split at h
  · obtain ⟨hsign, text, rfl, hwritten⟩ := written_of_unsigned? h
    exact ⟨'-' :: text, rfl, .negative hsign hwritten⟩
  · obtain ⟨hsign, text, rfl, hwritten⟩ := written_of_unsigned? h
    exact ⟨text, rfl, .positive hsign hwritten⟩

/-! ### Lists -/

section Lists

variable {α ε : Type} {close : Char} {element : List Char → Option (α × List Char)} {item : ε → α}
  {form : ε → List Char} {good : ε → Prop}

/-- White space behind an item counts as a part of its text, unless the item is the last one. -/
theorem enclosed_of_elements
    (helement : ∀ {cs x rest}, element cs = some (x, rest) → ∃ e, item e = x ∧ cs = form e ++ rest ∧ good e)
    (hpadded : ∀ {e blank}, good e → Blank blank → ∃ e', item e' = item e ∧ form e' = form e ++ blank ∧ good e')
    {steps : Nat} {xs : List α} (h : elements close element steps cs = some (xs, rest)) :
    ∃ e es blank, (e :: es).map item = xs ∧ Blank blank ∧
      cs = enclosed ((e :: es).map form) blank close ++ rest ∧ ∀ e' ∈ e :: es, good e' := by
  induction steps generalizing cs xs rest with
  | zero => simp [elements] at h
  | succ steps ih =>
    rw [elements] at h
    split at h
    · simp at h
    · next first cs₁ hfirst =>
      obtain ⟨e, rfl, rfl, he⟩ := helement hfirst
      obtain ⟨blank, hblank, hcs₁⟩ := exists_blank_append_skip cs₁
      split at h
      · simp at h
      · next c cs₂ hskip =>
        rw [hskip] at hcs₁
        subst hcs₁
        by_cases hclose : c = close
        · obtain ⟨rfl, rfl⟩ : [item e] = xs ∧ cs₂ = rest := by simpa [hclose] using h
          subst hclose
          exact ⟨e, [], blank, rfl, hblank, by simp [enclosed], by simpa using he⟩
        · rw [if_neg hclose] at h
          by_cases hcomma : c = ','
          · rw [if_pos hcomma] at h
            subst hcomma
            split at h
            · simp at h
            · next more cs₃ hmore =>
              obtain ⟨rfl, rfl⟩ : item e :: more = xs ∧ cs₃ = rest := by simpa using h
              obtain ⟨second, es, blank', rfl, hblank', rfl, hes⟩ := ih hmore
              obtain ⟨e', hitem, hform, he'⟩ := hpadded he hblank
              refine ⟨e', second :: es, blank', by simp [hitem], hblank', ?_, List.forall_mem_cons.2 ⟨he', hes⟩⟩
              simp [enclosed, hform]
          · simp [hcomma] at h

theorem enclosed_of_bracketed
    (helement : ∀ {cs x rest}, element cs = some (x, rest) → ∃ e, item e = x ∧ cs = form e ++ rest ∧ good e)
    (hpadded : ∀ {e blank}, good e → Blank blank → ∃ e', item e' = item e ∧ form e' = form e ++ blank ∧ good e')
    {steps : Nat} {xs : List α} (h : bracketed close element steps cs = some (xs, rest)) :
    ∃ es blank, List.map item es = xs ∧ Blank blank ∧ cs = enclosed (es.map form) blank close ++ rest ∧
      ∀ e ∈ es, good e := by
  rw [bracketed] at h
  obtain ⟨blank, hblank, hcs⟩ := exists_blank_append_skip cs
  split at h
  · simp at h
  · next c cs₁ hskip =>
    by_cases hclose : c = close
    · obtain ⟨rfl, rfl⟩ : [] = xs ∧ cs₁ = rest := by simpa [hclose] using h
      rw [hskip, hclose] at hcs
      exact ⟨[], blank, rfl, hblank, by simp [enclosed, hcs], by simp⟩
    · rw [if_neg hclose] at h
      obtain ⟨e, es, blank', hes⟩ := enclosed_of_elements helement hpadded h
      exact ⟨e :: es, blank', hes⟩

end Lists

/-! ### Values -/

theorem written_of_member {read : List Char → Option (Json × List Char)} {good : Json → List Char → Prop}
    (hread : ∀ {cs v rest}, read cs = some (v, rest) → ∃ text, cs = text ++ rest ∧ good v text)
    {m : String × Json} (h : member read cs = some (m, rest)) :
    ∃ e : Entry, e.member = m ∧ cs = e.text ++ rest ∧ WrittenName e.name e.label ∧ good e.value e.body := by
  obtain ⟨left, hleft, hcs⟩ := exists_blank_append_skip cs
  rw [member] at h
  split at h
  · next cs₁ hskip =>
    rw [hskip] at hcs
    split at h
    · simp at h
    · next name cs₂ hname =>
      obtain ⟨chars, body, rfl, rfl, hspells⟩ := closes_of_stringBody hname
      obtain ⟨right, hright, hcs₂⟩ := exists_blank_append_skip cs₂
      split at h
      · next cs₃ hcolon =>
        rw [hcolon] at hcs₂
        obtain ⟨⟨v, rest'⟩, hvalue, heq⟩ := Option.map_eq_some_iff.1 h
        obtain ⟨rfl, rfl⟩ := Prod.mk.inj heq
        obtain ⟨text, rfl, hgood⟩ := hread hvalue
        have hstring : WrittenString (String.ofList ([].reverse ++ chars)) ('"' :: body ++ ['"']) :=
          ⟨by simpa using hspells⟩
        refine ⟨⟨_, left ++ ('"' :: body ++ ['"']) ++ right, v, text⟩, rfl, ?_, ⟨hleft, hright, hstring⟩, hgood⟩
        simp [Entry.text, hcs, hcs₂]
      · simp at h
  · simp at h

/-- A value that has been read is no container, or its container was opened with depth left. -/
theorem value_cases {steps depth : Nat} {v : Json} (h : value steps depth cs = some (v, rest)) :
    ∃ blank, Blank blank ∧
      ((∃ text, cs = blank ++ (text ++ rest) ∧ Written v text ∧ v.Within 0) ∨
      (∃ below items cs', depth = below + 1 ∧ v = .array items ∧ cs = blank ++ '[' :: cs' ∧
        bracketed ']' (value steps below) steps cs' = some (items, rest)) ∨
      ∃ below members cs', depth = below + 1 ∧ v = .object members ∧ cs = blank ++ '\x7b' :: cs' ∧
        bracketed '\x7d' (member (value steps below)) steps cs' = some (members, rest)) := by
  obtain ⟨blank, hblank, hcs⟩ := exists_blank_append_skip cs
  refine ⟨blank, hblank, ?_⟩
  rw [value.eq_1] at h
  split at h
  · next hskip =>
    obtain ⟨rfl, rfl⟩ := Prod.mk.inj (Option.some.inj h)
    rw [hskip] at hcs
    exact .inl ⟨_, hcs, .null, by decide⟩
  · next hskip =>
    obtain ⟨rfl, rfl⟩ := Prod.mk.inj (Option.some.inj h)
    rw [hskip] at hcs
    exact .inl ⟨_, hcs, .bool true, by decide⟩
  · next hskip =>
    obtain ⟨rfl, rfl⟩ := Prod.mk.inj (Option.some.inj h)
    rw [hskip] at hcs
    exact .inl ⟨_, hcs, .bool false, by decide⟩
  · next hskip =>
    obtain ⟨⟨text, _⟩, hbody, heq⟩ := Option.map_eq_some_iff.1 h
    obtain ⟨rfl, rfl⟩ := Prod.mk.inj heq
    obtain ⟨chars, body, rfl, rfl, hspells⟩ := closes_of_stringBody hbody
    rw [hskip] at hcs
    refine .inl ⟨'"' :: body ++ ['"'], by simp [hcs], .string ⟨by simpa using hspells⟩, ?_⟩
    simp [Within, Json.depth, numerals]
  · next cs' hskip =>
    rw [hskip] at hcs
    cases depth with
    | zero => simp at h
    | succ below =>
      obtain ⟨⟨items, _⟩, hread, heq⟩ := Option.map_eq_some_iff.1 h
      obtain ⟨rfl, rfl⟩ := Prod.mk.inj heq
      exact .inr (.inl ⟨below, items, cs', rfl, rfl, hcs, hread⟩)
  · next cs' hskip =>
    rw [hskip] at hcs
    cases depth with
    | zero => simp at h
    | succ below =>
      obtain ⟨⟨members, _⟩, hread, heq⟩ := Option.map_eq_some_iff.1 h
      obtain ⟨rfl, rfl⟩ := Prod.mk.inj heq
      exact .inr (.inr ⟨below, members, cs', rfl, rfl, hcs, hread⟩)
  · split at h
    · next n cs' hnumeral =>
      obtain ⟨text, htext, hwritten⟩ := written_of_numeral? hnumeral
      rw [htext] at hcs
      split at h
      · next hrange =>
        obtain ⟨rfl, rfl⟩ := Prod.mk.inj (Option.some.inj h)
        exact .inl ⟨text, hcs, .number hwritten, by simp [Within, Json.depth, numerals, hrange]⟩
      · simp at h
    · simp at h

/-- The induction is on the depth that is left, which goes down by one with every container. -/
theorem written_of_value {steps depth : Nat} {v : Json} (h : value steps depth cs = some (v, rest)) :
    ∃ text, cs = text ++ rest ∧ Written v text ∧ v.Within depth := by
  induction depth using Nat.strongRecOn generalizing cs v rest with
  | ind depth ih =>
    obtain ⟨blank, hblank, hcases⟩ := value_cases h
    rcases hcases with ⟨text, rfl, hwritten, hwithin⟩ | ⟨below, items, cs', rfl, rfl, rfl, hread⟩ |
      ⟨below, members, cs', rfl, rfl, rfl, hread⟩
    · exact ⟨blank ++ text, by simp, hwritten.blank_append hblank, hwithin.mono (Nat.zero_le _)⟩
    · have helement : ∀ {cs v rest}, value steps below cs = some (v, rest) →
          ∃ e : Json × List Char, e.1 = v ∧ cs = e.2 ++ rest ∧ Written e.1 e.2 ∧ e.1.Within below := by
        intro cs v rest hvalue
        obtain ⟨text, htext, hgood⟩ := ih below (Nat.lt_succ_self below) hvalue
        exact ⟨(v, text), rfl, htext, hgood⟩
      have hpadded : ∀ {e : Json × List Char} {blank}, Written e.1 e.2 ∧ e.1.Within below → Blank blank →
          ∃ e' : Json × List Char, e'.1 = e.1 ∧ e'.2 = e.2 ++ blank ∧ Written e'.1 e'.2 ∧ e'.1.Within below := by
        intro e blank he hblank
        exact ⟨(e.1, e.2 ++ blank), rfl, rfl, he.1.append_blank hblank, he.2⟩
      obtain ⟨es, inner, rfl, hinner, rfl, hes⟩ := enclosed_of_bracketed helement hpadded hread
      have hwritten := Written.array hinner fun e he => (hes e he).1
      refine ⟨blank ++ '[' :: enclosed (es.map (·.2)) inner ']', by simp, hwritten.blank_append hblank, ?_⟩
      rw [within_array, List.forall_mem_map]
      exact fun e he => (hes e he).2
    · have helement : ∀ {cs m rest}, member (value steps below) cs = some (m, rest) →
          ∃ e : Entry, e.member = m ∧ cs = e.text ++ rest ∧
            WrittenName e.name e.label ∧ Written e.value e.body ∧ e.value.Within below :=
        written_of_member (ih below (Nat.lt_succ_self below))
      have hpadded : ∀ {e : Entry} {blank},
          WrittenName e.name e.label ∧ Written e.value e.body ∧ e.value.Within below → Blank blank →
          ∃ e' : Entry, e'.member = e.member ∧ e'.text = e.text ++ blank ∧
            WrittenName e'.name e'.label ∧ Written e'.value e'.body ∧ e'.value.Within below := by
        intro e blank he hblank
        exact ⟨{ e with body := e.body ++ blank }, rfl, by simp [Entry.text], he.1, he.2.1.append_blank hblank, he.2.2⟩
      obtain ⟨es, inner, rfl, hinner, rfl, hes⟩ := enclosed_of_bracketed helement hpadded hread
      have hwritten := Written.object hinner (fun e he => (hes e he).1) fun e he => (hes e he).2.1
      refine ⟨blank ++ '\x7b' :: enclosed (es.map Entry.text) inner '\x7d', by simp, hwritten.blank_append hblank, ?_⟩
      rw [within_object, List.forall_mem_map]
      exact fun e he => (hes e he).2.2

theorem written_of_read? {text : String} {v : Json} (h : read? text = some v) :
    Written v text.toList ∧ v.Within maxDepth := by
  rw [read?] at h
  split at h
  · next v' rest hvalue =>
    by_cases hrest : (skip rest).isEmpty
    · obtain rfl : v' = v := by simpa [hrest] using h
      obtain ⟨body, hbody, hwritten, hwithin⟩ := written_of_value hvalue
      obtain ⟨blank, hblank, hskip⟩ := exists_blank_append_skip rest
      rw [List.isEmpty_iff.1 hrest, List.append_nil] at hskip
      rw [hbody, hskip]
      exact ⟨hwritten.append_blank hblank, hwithin⟩
    · simp [hrest] at h
  · simp at h

/-- A text is read as just those values that it is a way to write and that are within the limits. -/
theorem read?_eq_some_iff {text : String} {v : Json} :
    read? text = some v ↔ Written v text.toList ∧ v.Within maxDepth := by
  constructor
  · exact written_of_read?
  · intro ⟨hwritten, hwithin⟩
    rw [read?_of_written hwritten, if_pos hwithin]

theorem depth_le_of_read? {text : String} {v : Json} (h : read? text = some v) : v.depth ≤ maxDepth :=
  (written_of_read? h).2.1

end NestedStyles.Json
