import NestedStyles.Proofs.Reference.Filling

/-!
# What a scan for references finds

How references are written is said here by their shape, without the functions that read them: an interpolation is a `#`
and braces around a `$`, a name and white space (`Interpolates`), and a plain reference is a `$` and a name that ends
where no further character of a name follows. A scan goes through a text from left to right, puts in the value of every
reference to a bound name and copies everything else (`Scans`). Every text has exactly one result. Substitution gives
that result where no value contains a `$` and no interpolation of a bound name comes right after a `$` and characters of
a name (`substitute_scans`).
-/

namespace NestedStyles.Reference

open Text

variable {lookup : Lookup} {name : String} {cs rest written out : List Char} {word : List Char}

/-- `written` is an interpolation of `name`, with any white space inside the braces. -/
inductive Interpolates (name : String) : List Char → Prop
  | intro {left right : List Char} (hname : Referable name) (hleft : ∀ c ∈ left, isBlank c = true)
      (hright : ∀ c ∈ right, isBlank c = true) :
      Interpolates name ('#' :: '\x7b' :: (left ++ '$' :: (name.toList ++ (right ++ ['\x7d']))))

/-- A text that does not go on with a name. -/
def Stops (cs : List Char) : Prop := ∀ c, cs.head? = some c → isNameChar c = false

/-- One scan of a text from left to right ends with a result. -/
inductive Scans (lookup : Lookup) : List Char → List Char → Prop
  | done : Scans lookup [] []
  | interpolation {name value : String} {written rest out : List Char} (hwritten : Interpolates name written)
      (hvalue : lookup name = some value) (hrest : Scans lookup rest out) :
      Scans lookup (written ++ rest) (value.toList ++ out)
  | unboundInterpolation {name : String} {written rest out : List Char} (hwritten : Interpolates name written)
      (hnone : lookup name = none) (hrest : Scans lookup rest out) : Scans lookup (written ++ rest) (written ++ out)
  | reference {name value : String} {rest out : List Char} (hname : Referable name) (hstops : Stops rest)
      (hvalue : lookup name = some value) (hrest : Scans lookup rest out) :
      Scans lookup ('$' :: (name.toList ++ rest)) (value.toList ++ out)
  | unboundReference {name : String} {rest out : List Char} (hname : Referable name) (hstops : Stops rest)
      (hnone : lookup name = none) (hrest : Scans lookup rest out) :
      Scans lookup ('$' :: (name.toList ++ rest)) ('$' :: (name.toList ++ out))
  /-- A character with which no reference starts. -/
  | other {c : Char} {cs out : List Char}
      (hinterpolation : ∀ name written rest, Interpolates name written → c :: cs ≠ written ++ rest)
      (hreference : c = '$' → Stops cs) (hrest : Scans lookup cs out) : Scans lookup (c :: cs) (c :: out)

/-! ### The shape of what is read -/

theorem stops_iff : Stops cs ↔ cs.takeWhile isNameChar = [] := by
  cases cs with
  | nil => simp [Stops]
  | cons c cs => simp [Stops, List.takeWhile_cons]

instance (cs : List Char) : Decidable (Stops cs) := decidable_of_iff _ stops_iff.symm

theorem stops_cons {c : Char} : Stops (c :: cs) ↔ isNameChar c = false := by
  simp [Stops]

theorem stops_dropWhile (cs : List Char) : Stops (cs.dropWhile isNameChar) := by
  intro c hc
  have hhead := List.head?_dropWhile_not isNameChar cs
  rw [hc] at hhead
  simpa using hhead

theorem plain?_eq_some_iff {name : List Char} :
    plain? cs = some (name, rest) ↔ Referable (String.ofList name) ∧ Stops rest ∧ cs = '$' :: (name ++ rest) := by
  constructor
  · intro h
    unfold plain? name? at h
    split at h
    · next cs =>
      split at h
      · simp at h
      · next hne =>
        obtain ⟨rfl, rfl⟩ := Prod.mk.inj (Option.some.inj h)
        refine ⟨⟨?_, ?_⟩, ?_, ?_⟩
        · rw [String.toList_ofList]
          exact hne
        · rw [String.toList_ofList]
          exact fun c hc => List.mem_takeWhile_imp hc
        · exact stops_dropWhile cs
        · rw [List.takeWhile_append_dropWhile]
    · simp at h
  · rintro ⟨hname, hstops, rfl⟩
    have hread := hname.name?_append (stops_iff.1 hstops)
    rw [String.toList_ofList] at hread
    exact hread

theorem closed?_eq_some_iff : closed? cs = some rest ↔
    ∃ right, (∀ c ∈ right, isBlank c = true) ∧ cs = right ++ '\x7d' :: rest := by
  constructor
  · intro h
    unfold closed? at h
    split at h
    · next hcs =>
      obtain rfl := Option.some.inj h
      refine ⟨cs.takeWhile isBlank, fun c hc => List.mem_takeWhile_imp hc, ?_⟩
      rw [← hcs, trimStart, List.takeWhile_append_dropWhile]
    · simp at h
  · rintro ⟨right, hright, rfl⟩
    apply closed?_of_trimStart_eq
    rw [trimStart, List.dropWhile_append_of_pos hright, List.dropWhile_cons_of_neg (by decide)]

/-- White space and a closing brace do not go on with a name. -/
theorem stops_closing {right : List Char} (hright : ∀ c ∈ right, isBlank c = true) (rest : List Char) :
    Stops (right ++ '\x7d' :: rest) := by
  cases right with
  | nil => exact stops_cons.2 (by decide)
  | cons d right =>
    have hblank := hright d List.mem_cons_self
    rw [List.cons_append, stops_cons, ← Bool.not_eq_true]
    intro hd
    simp [isBlank_of_isNameChar hd] at hblank

theorem Interpolates.interpolation? (h : Interpolates name written) (rest : List Char) :
    interpolation? (written ++ rest) = some (name.toList, rest) := by
  obtain @⟨left, right, hname, hleft, hright⟩ := h
  have hplain : plain? ('$' :: (name.toList ++ (right ++ '\x7d' :: rest))) =
      some (name.toList, right ++ '\x7d' :: rest) :=
    hname.name?_append (stops_iff.1 (stops_closing hright rest))
  have htrim : trimStart (left ++ '$' :: (name.toList ++ (right ++ '\x7d' :: rest))) =
      '$' :: (name.toList ++ (right ++ '\x7d' :: rest)) := by
    rw [trimStart, List.dropWhile_append_of_pos hleft, List.dropWhile_cons_of_neg (by decide)]
  have hclosed : closed? (right ++ '\x7d' :: rest) = some rest := closed?_eq_some_iff.2 ⟨right, hright, rfl⟩
  simp only [List.cons_append, List.append_assoc, List.nil_append]
  rw [interpolation?_eq, htrim, hplain, Option.bind_some, hclosed, Option.map_some]

theorem interpolation?_eq_some_iff {name : List Char} : interpolation? cs = some (name, rest) ↔
    ∃ written, Interpolates (String.ofList name) written ∧ cs = written ++ rest := by
  constructor
  · intro h
    unfold Reference.interpolation? at h
    split at h
    · next cs =>
      simp only [Option.bind_eq_bind, Option.bind_eq_some_iff, Prod.exists, Option.some.injEq, Prod.mk.injEq] at h
      obtain ⟨_, rest', hplain, _, hclosed, rfl, rfl⟩ := h
      obtain ⟨hname, -, htrim⟩ := plain?_eq_some_iff.1 hplain
      obtain ⟨right, hright, rfl⟩ := closed?_eq_some_iff.1 hclosed
      have hleft : ∀ c ∈ cs.takeWhile isBlank, isBlank c = true := fun c hc => List.mem_takeWhile_imp hc
      have hcs : cs = cs.takeWhile isBlank ++ trimStart cs := List.takeWhile_append_dropWhile.symm
      refine ⟨_, Interpolates.intro hname hleft hright, ?_⟩
      rw [htrim] at hcs
      simp only [List.cons_append, List.append_assoc, String.toList_ofList, List.nil_append]
      rw [← hcs]
    · simp at h
  · rintro ⟨written, hwritten, rfl⟩
    rw [hwritten.interpolation?, String.toList_ofList]

/-- Only the first character of an interpolation is a `#`. -/
theorem Interpolates.not_mem_tail (h : Interpolates name written) : '#' ∉ written.tail := by
  obtain @⟨left, right, hname, hleft, hright⟩ := h
  have hblank : isBlank '#' = false := by decide
  have hchar : isNameChar '#' = false := by decide
  simp only [List.tail_cons, List.mem_cons, List.mem_append, List.not_mem_nil, or_false]
  rintro (h | h | h | h | h | h)
  · exact absurd h (by decide)
  · simp [hleft _ h] at hblank
  · exact absurd h (by decide)
  · simp [hname.all_name _ h] at hchar
  · simp [hright _ h] at hblank
  · exact absurd h (by decide)

theorem Interpolates.exists_eq_cons (h : Interpolates name written) : ∃ inner, written = '#' :: inner := by
  obtain ⟨⟩ := h
  exact ⟨_, rfl⟩

theorem bound?_interpolation_of_interpolates {value : String} (h : Interpolates name written)
    (hvalue : lookup name = some value) (rest : List Char) :
    interpolation.bound? lookup (written ++ rest) = some (value.toList, rest) :=
  Form.bound?_eq_some_iff.2 ⟨name.toList, value, h.interpolation? rest, by rwa [String.ofList_toList], rfl⟩

/-! ### Copying what is unbound -/

theorem fill_either_copy (hword : ∀ c ∈ word, c ≠ '$' ∧ c ≠ '#') (rest : List Char) :
    either.fill lookup (word ++ rest) = word ++ either.fill lookup rest :=
  Form.fill_append_of_none (fun c hc => read?_either_of_ne (hword c hc).1 (hword c hc).2) rest

theorem fill_either_blank (hword : ∀ c ∈ word, isBlank c = true) (rest : List Char) :
    either.fill lookup (word ++ rest) = word ++ either.fill lookup rest := by
  apply fill_either_copy
  intro c hc
  have hblank := hword c hc
  constructor <;> rintro rfl <;> revert hblank <;> decide

theorem fill_either_name (hname : Referable name) (rest : List Char) :
    either.fill lookup (name.toList ++ rest) = name.toList ++ either.fill lookup rest :=
  fill_either_copy (fun c hc => isNameChar_ne (hname.all_name c hc)) rest

theorem fill_either_unbound (hname : Referable name) (hstops : Stops rest) (hnone : lookup name = none) :
    either.fill lookup ('$' :: (name.toList ++ rest)) = '$' :: (name.toList ++ either.fill lookup rest) := by
  have hread : either.read? ('$' :: (name.toList ++ rest)) = some (name.toList, rest) :=
    read?_either_of_plain (hname.name?_append (stops_iff.1 hstops))
  have hbound : either.bound? lookup ('$' :: (name.toList ++ rest)) = none := by
    simp [Form.bound?, hread, hnone]
  rw [Form.fill_of_none hbound, fill_either_name hname]

/-- An interpolation of an unbound name stays, although the reference inside of its braces is looked at on its own. -/
theorem Interpolates.fill_either_unbound (h : Interpolates name written) (hnone : lookup name = none)
    (rest : List Char) : either.fill lookup (written ++ rest) = written ++ either.fill lookup rest := by
  have hread : either.read? (written ++ rest) = some (name.toList, rest) := by
    show (Reference.interpolation? (written ++ rest)).or _ = _
    rw [h.interpolation?]
    rfl
  have hbound : either.bound? lookup (written ++ rest) = none := by
    simp [Form.bound?, hread, hnone]
  obtain @⟨left, right, hname, hleft, hright⟩ := h
  have hbrace {c : Char} (hdollar : c ≠ '$') (hhash : c ≠ '#') (cs : List Char) :
      either.fill lookup (c :: cs) = c :: either.fill lookup cs :=
    Form.fill_of_none (Form.bound?_of_read?_none (read?_either_of_ne hdollar hhash cs))
  simp only [List.cons_append, List.append_assoc, List.nil_append] at hbound ⊢
  rw [Form.fill_of_none hbound, hbrace (by decide) (by decide), fill_either_blank hleft,
    Reference.fill_either_unbound hname (stops_closing hright rest) hnone, fill_either_blank hright,
    hbrace (by decide) (by decide)]

/-! ### The result of a scan -/

theorem read?_either_eq_none {c : Char}
    (hinterpolation : ∀ name written rest, Interpolates name written → c :: cs ≠ written ++ rest)
    (hreference : c = '$' → Stops cs) : either.read? (c :: cs) = none := by
  rcases hread : either.read? (c :: cs) with _ | ⟨name, rest⟩
  · rfl
  · exfalso
    rcases Option.or_eq_some_iff.1 hread with hread | ⟨-, hread⟩
    · obtain ⟨written, hwritten, heq⟩ := interpolation?_eq_some_iff.1 hread
      exact hinterpolation _ _ _ hwritten heq
    · obtain ⟨hname, -, heq⟩ := plain?_eq_some_iff.1 hread
      obtain ⟨rfl, rfl⟩ := List.cons.inj heq
      have hstops := stops_iff.1 (hreference rfl)
      rw [List.takeWhile_append_of_pos (by simpa using hname.all_name)] at hstops
      exact hname.ne_nil (by simpa using (List.append_eq_nil_iff.1 hstops).1)

theorem Scans.eq_fill (h : Scans lookup cs out) : out = either.fill lookup cs := by
  induction h with
  | done => rw [Form.fill_nil]
  | @interpolation name value written rest out hwritten hvalue _ ih =>
    have hbound := bound?_interpolation_of_interpolates hwritten hvalue rest
    obtain ⟨inner, rfl⟩ := hwritten.exists_eq_cons
    rw [List.cons_append, ← bound?_either_of_ne lookup (by decide)] at hbound
    rw [List.cons_append, Form.fill_of_some hbound, ← ih]
  | unboundInterpolation hwritten hnone _ ih => rw [hwritten.fill_either_unbound hnone, ← ih]
  | reference hname hstops hvalue _ ih =>
    have hbound := hname.bound?_plain hvalue (stops_iff.1 hstops)
    rw [← bound?_either_dollar] at hbound
    rw [Form.fill_of_some hbound, ← ih]
  | unboundReference hname hstops hnone _ ih => rw [fill_either_unbound hname hstops hnone, ← ih]
  | other hinterpolation hreference _ ih =>
    rw [Form.fill_of_none (Form.bound?_of_read?_none (read?_either_eq_none hinterpolation hreference)), ← ih]

/-- A scan comes to an end on every text, since each of its steps leaves a shorter one. -/
theorem exists_scans (lookup : Lookup) (cs : List Char) : ∃ out, Scans lookup cs out := by
  induction hlength : cs.length using Nat.strongRecOn generalizing cs with
  | ind n ih =>
    have hshorter (rest : List Char) (hlt : rest.length < cs.length) : ∃ out, Scans lookup rest out :=
      ih rest.length (hlength ▸ hlt) rest rfl
    cases cs with
    | nil => exact ⟨[], Scans.done⟩
    | cons c cs =>
      rcases hread : interpolation? (c :: cs) with _ | ⟨name, rest⟩
      · rcases hplain : plain? (c :: cs) with _ | ⟨name, rest⟩
        · obtain ⟨out, hout⟩ := hshorter cs (by simp)
          refine ⟨c :: out, Scans.other ?_ ?_ hout⟩
          · intro name written rest hwritten heq
            rw [heq, hwritten.interpolation?] at hread
            simp at hread
          · rintro rfl
            rw [stops_iff]
            by_contra hne
            have hname : name? cs = some _ := if_neg hne
            have hnone : name? cs = none := hplain
            simp [hname] at hnone
        · obtain ⟨hname, hstops, heq⟩ := plain?_eq_some_iff.1 hplain
          obtain ⟨out, hout⟩ := hshorter rest (plain?_shorter hplain)
          rw [← String.toList_ofList (l := name)] at heq
          rw [heq]
          cases hvalue : lookup (String.ofList name) with
          | none => exact ⟨_, Scans.unboundReference hname hstops hvalue hout⟩
          | some value => exact ⟨_, Scans.reference hname hstops hvalue hout⟩
      · obtain ⟨written, hwritten, heq⟩ := interpolation?_eq_some_iff.1 hread
        obtain ⟨out, hout⟩ := hshorter rest (interpolation?_shorter hread)
        rw [heq]
        cases hvalue : lookup (String.ofList name) with
        | none => exact ⟨_, Scans.unboundInterpolation hwritten hvalue hout⟩
        | some value => exact ⟨_, Scans.interpolation hwritten hvalue hout⟩

theorem scans_iff : Scans lookup cs out ↔ out = either.fill lookup cs := by
  constructor
  · exact Scans.eq_fill
  · rintro rfl
    obtain ⟨out, hout⟩ := exists_scans lookup cs
    rw [← hout.eq_fill]
    exact hout

/-- What `Detached` says of the readers, said of the text. -/
theorem detached_iff : Detached lookup cs ↔
    ∀ before word name written after, cs = before ++ '$' :: (word ++ (written ++ after)) →
      (∀ c ∈ word, isNameChar c = true) → Interpolates name written → lookup name = none := by
  constructor
  · rintro h before word name written after rfl hword hwritten
    have hbound := h (word ++ (written ++ after)) (List.suffix_append before _)
    have hdrop : (word ++ (written ++ after)).dropWhile isNameChar = written ++ after := by
      obtain ⟨inner, rfl⟩ := hwritten.exists_eq_cons
      rw [List.dropWhile_append_of_pos hword, List.cons_append, List.dropWhile_cons_of_neg (by decide)]
    cases hvalue : lookup name with
    | none => rfl
    | some value =>
      rw [hdrop, bound?_interpolation_of_interpolates hwritten hvalue] at hbound
      simp at hbound
  · rintro h t ⟨before, rfl⟩
    rcases hbound : interpolation.bound? lookup (t.dropWhile isNameChar) with _ | ⟨value, rest⟩
    · rfl
    · obtain ⟨name, v, hread, hvalue, -⟩ := Form.bound?_eq_some_iff.1 hbound
      obtain ⟨written, hwritten, heq⟩ := interpolation?_eq_some_iff.1 hread
      have hnone := h before (t.takeWhile isNameChar) _ written rest
        (by rw [← heq, List.takeWhile_append_dropWhile]) (fun c hc => List.mem_takeWhile_imp hc) hwritten
      simp [hnone] at hvalue

/-- Where no value contains a `$` and no interpolation of a bound name comes right after a `$` and characters of a name,
substitution has the result of the scan, and there is no other one. Passing over the texts without `$` is no exception:
it gives what the two rounds give. -/
theorem substitute_scans (lookup : Lookup) (text : String)
    (hvalues : ∀ name value, lookup name = some value → '$' ∉ value.toList)
    (hapart : ∀ before word name written after, text.toList = before ++ '$' :: (word ++ (written ++ after)) →
      (∀ c ∈ word, isNameChar c = true) → Interpolates name written → lookup name = none) :
    (∀ out, Scans lookup text.toList out ↔ out = (substitute lookup text).toList) ∧
      substitute lookup text = String.ofList (plain.fill lookup (interpolation.fill lookup text.toList)) := by
  refine ⟨fun out => ?_, substitute_eq_fill_fill lookup text⟩
  rw [substitute_eq_fill_either hvalues (detached_iff.2 hapart), String.toList_ofList]
  exact scans_iff

/-- A variable with a value of its own, and one whose value opens an interpolation. -/
def palette : Lookup := fun name => if name = "a" then some "1" else if name = "b-c" then some "#\x7b" else none

/-- A longer name, braces without a reference, an interpolation with white space, an unbound one, a run of `$` and an
interpolation that is not closed. -/
theorem substitute_palette :
    Scans palette "$a-#\x7bx\x7d #\x7b $a\x09\x7d$b #\x7b$c\x7d$$b-c$ #\x7b$a".toList
        "$a-#\x7bx\x7d 1$b #\x7b$c\x7d$#\x7b$ #\x7b1".toList ∧
      substitute palette "$a-#\x7bx\x7d #\x7b $a\x09\x7d$b #\x7b$c\x7d$$b-c$ #\x7b$a" =
        "$a-#\x7bx\x7d 1$b #\x7b$c\x7d$#\x7b$ #\x7b1" := by
  have hresult : substitute palette "$a-#\x7bx\x7d #\x7b $a\x09\x7d$b #\x7b$c\x7d$$b-c$ #\x7b$a" =
      "$a-#\x7bx\x7d 1$b #\x7b$c\x7d$#\x7b$ #\x7b1" := by
    decide +kernel
  refine ⟨((substitute_scans palette _ ?_ (detached_iff.1 ?_)).1 _).2 (by rw [hresult]), hresult⟩
  · intro name value hvalue
    unfold palette at hvalue
    split at hvalue
    · obtain rfl := Option.some.inj hvalue
      decide
    · split at hvalue
      · obtain rfl := Option.some.inj hvalue
        decide
      · simp at hvalue
  · rw [Detached, forall_suffix_iff]
    decide +kernel

end NestedStyles.Reference
