import Mathlib.Data.List.Infix
import Mathlib.Data.List.TakeWhile
import NestedStyles.Reference

/-!
# Substitution as one scan

Substitution goes over a text twice. The text that takes the place of an interpolation in the first round is read again
in the second one, and so is whatever it stands next to. Where no value contains a `$` and no interpolation of a bound
name comes right after a `$` and characters of a name, the second round finds just what is there to be found in the text
as it was written. Substitution is then one scan from left to right, for references of either form
(`substitute_eq_fill_either`).
-/

namespace NestedStyles.Reference

open Text

variable {form : Form} {lookup : Lookup} {c : Char} {cs rest value word : List Char}

/-! ### Steps of filling -/

theorem Form.bound?_eq_some_iff : form.bound? lookup cs = some (value, rest) ↔
    ∃ name v, form.read? cs = some (name, rest) ∧ lookup (String.ofList name) = some v ∧ v.toList = value := by
  simp only [bound?, Option.bind_eq_bind, Option.bind_eq_some_iff, Prod.exists, Option.some.injEq, Prod.mk.injEq]
  constructor
  · rintro ⟨name, _, hread, v, hv, hvalue, rfl⟩
    exact ⟨name, v, hread, hv, hvalue⟩
  · rintro ⟨name, v, hread, hv, hvalue⟩
    exact ⟨name, rest, hread, v, hv, hvalue, rfl⟩

theorem Form.bound?_of_read?_none (h : form.read? cs = none) : form.bound? lookup cs = none := by
  simp [bound?, h]

theorem Form.bound?_congr {form' : Form} (h : form.read? cs = form'.read? cs) :
    form.bound? lookup cs = form'.bound? lookup cs := by
  simp [bound?, h]

/-- Where the same name is read off two texts, the same value is found. -/
theorem Form.bound?_map {cs' : List Char} {g : List Char → List Char}
    (h : form.read? cs' = (form.read? cs).map fun found => (found.1, g found.2)) :
    form.bound? lookup cs' = (form.bound? lookup cs).map fun found => (found.1, g found.2) := by
  rcases hread : form.read? cs with _ | ⟨name, rest⟩
  · rw [hread] at h
    simp [bound?, h, hread]
  · rw [hread] at h
    simp only [bound?, h, hread, Option.map_some, Option.bind_eq_bind, Option.bind_some]
    cases lookup (String.ofList name) <;> rfl

theorem Form.bound?_nil (form : Form) (lookup : Lookup) : form.bound? lookup [] = none := by
  rcases hbound : form.bound? lookup [] with _ | ⟨value, rest⟩
  · rfl
  · exact absurd (bound?_shorter hbound) (Nat.not_lt_zero _)

@[simp]
theorem Form.fill_nil (form : Form) (lookup : Lookup) : form.fill lookup [] = [] := by
  rw [fill]

theorem Form.fill_of_none (h : form.bound? lookup (c :: cs) = none) :
    form.fill lookup (c :: cs) = c :: form.fill lookup cs := by
  rw [fill]
  split
  · rfl
  · next hsome => simp [h] at hsome

theorem Form.fill_of_some (h : form.bound? lookup cs = some (value, rest)) :
    form.fill lookup cs = value ++ form.fill lookup rest := by
  cases cs with
  | nil => simp [bound?_nil] at h
  | cons c cs =>
    rw [fill]
    split
    · next hnone => simp [h] at hnone
    · next hsome =>
      obtain ⟨rfl, rfl⟩ := Prod.mk.inj (Option.some.inj (h.symm.trans hsome))
      rfl

/-- A text in which no reference to a bound name starts stays as it is. -/
theorem Form.fill_eq_self (h : ∀ t, t <:+ cs → form.bound? lookup t = none) : form.fill lookup cs = cs := by
  induction cs with
  | nil => exact fill_nil form lookup
  | cons c cs ih =>
    rw [fill_of_none (h _ (List.suffix_refl _)), ih fun t ht => h t (ht.trans (List.suffix_cons c cs))]

theorem Form.fill_append_of_none (h : ∀ c ∈ word, ∀ cs, form.read? (c :: cs) = none) (rest : List Char) :
    form.fill lookup (word ++ rest) = word ++ form.fill lookup rest := by
  induction word with
  | nil => rfl
  | cons c word ih =>
    rw [List.cons_append, fill_of_none (bound?_of_read?_none (h c List.mem_cons_self _)),
      ih fun d hd => h d (List.mem_cons_of_mem _ hd), List.cons_append]

/-! ### Reading references -/

/-- A name is read off a text in the same way if what follows it is changed into something that does not go on with the
name. -/
theorem name?_map (g : List Char → List Char) (cs : List Char)
    (hg : (g (cs.dropWhile isNameChar)).takeWhile isNameChar = []) :
    name? (cs.takeWhile isNameChar ++ g (cs.dropWhile isNameChar)) =
      (name? cs).map fun found => (found.1, g found.2) := by
  have hall : ∀ c ∈ cs.takeWhile isNameChar, isNameChar c = true := fun c hc => List.mem_takeWhile_imp hc
  have hdrop : (g (cs.dropWhile isNameChar)).dropWhile isNameChar = g (cs.dropWhile isNameChar) :=
    List.dropWhile_eq_self_iff.2 (List.takeWhile_eq_nil_iff.1 hg)
  rw [name?, name?, List.takeWhile_append_of_pos hall, List.dropWhile_append_of_pos hall, hg, hdrop, List.append_nil]
  split <;> rfl

theorem isNameChar_ne (h : isNameChar c = true) : c ≠ '$' ∧ c ≠ '#' := by
  constructor <;> rintro rfl <;> revert h <;> decide

theorem toNat_of_isAlphanum (h : c.isAlphanum = true) : 48 ≤ c.toNat ∧ c.toNat ≤ 122 := by
  change ((decide (c.val ≥ 65 ∧ c.val ≤ 90) || (decide (c.val ≥ 97) && decide (c.val ≤ 122))) ||
    (decide (c.val ≥ 48) && decide (c.val ≤ 57))) = true at h
  simp only [Bool.or_eq_true, Bool.and_eq_true, decide_eq_true_eq, ge_iff_le, UInt32.le_iff_toNat_le] at h
  change ((65 ≤ c.toNat ∧ c.toNat ≤ 90) ∨ (97 ≤ c.toNat ∧ c.toNat ≤ 122)) ∨ (48 ≤ c.toNat ∧ c.toNat ≤ 57) at h
  omega

theorem isBlank_of_isNameChar (h : isNameChar c = true) : isBlank c = false := by
  simp only [isNameChar, Bool.or_eq_true, decide_eq_true_eq] at h
  rcases h with (halphanum | rfl) | rfl
  · obtain ⟨hlow, hhigh⟩ := toNat_of_isAlphanum halphanum
    simp only [isBlank, inRanges, blankRanges, List.any_eq_false, List.mem_cons, List.not_mem_nil, or_false,
      forall_eq_or_imp, forall_eq, Bool.and_eq_true, decide_eq_true_eq]
    omega
  · decide
  · decide

/-- A name that can be referred to. -/
structure Referable (name : String) : Prop where
  ne_nil : name.toList ≠ []
  all_name : ∀ c ∈ name.toList, isNameChar c = true

theorem Referable.name?_append {name : String} (h : Referable name) (hrest : rest.takeWhile isNameChar = []) :
    name? (name.toList ++ rest) = some (name.toList, rest) := by
  have hdrop : rest.dropWhile isNameChar = rest :=
    List.dropWhile_eq_self_iff.2 (List.takeWhile_eq_nil_iff.1 hrest)
  rw [name?, List.takeWhile_append_of_pos h.all_name, List.dropWhile_append_of_pos h.all_name, hrest, hdrop,
    List.append_nil, if_neg h.ne_nil]

theorem Referable.bound?_plain {name value : String} (h : Referable name) (hvalue : lookup name = some value)
    (hrest : rest.takeWhile isNameChar = []) :
    plain.bound? lookup ('$' :: (name.toList ++ rest)) = some (value.toList, rest) :=
  Form.bound?_eq_some_iff.2 ⟨name.toList, value, h.name?_append hrest, by rwa [String.ofList_toList], rfl⟩

theorem plain?_of_ne (h : c ≠ '$') (cs : List Char) : plain? (c :: cs) = none := by
  unfold plain?
  split
  · next heq => exact absurd (List.cons.inj heq).1 h
  · rfl

theorem interpolation?_of_ne (h : c ≠ '#') (cs : List Char) : interpolation? (c :: cs) = none := by
  unfold interpolation?
  split
  · next heq => exact absurd (List.cons.inj heq).1 h
  · rfl

theorem interpolation?_of_head?_ne (h : cs.head? ≠ some '\x7b') : interpolation? ('#' :: cs) = none := by
  unfold interpolation?
  split
  · next heq =>
    obtain rfl := (List.cons.inj heq).2
    exact absurd rfl h
  · rfl

theorem closed?_of_trimStart_eq (h : trimStart cs = '\x7d' :: rest) : closed? cs = some rest := by
  unfold closed?
  rw [h]
  rfl

theorem closed?_of_trimStart_ne (h : (trimStart cs).head? ≠ some '\x7d') : closed? cs = none := by
  unfold closed?
  split
  · next hcs => simp [hcs] at h
  · rfl

theorem mem_of_plain? {name : List Char} (h : plain? cs = some (name, rest)) : '$' ∈ cs := by
  unfold plain? at h
  split at h
  · exact List.mem_cons_self
  · simp at h

theorem plain?_suffix {name : List Char} (h : plain? cs = some (name, rest)) : rest <:+ cs := by
  unfold plain? name? at h
  split at h
  · split at h
    · simp at h
    · obtain ⟨-, rfl⟩ := Prod.mk.inj (Option.some.inj h)
      exact (List.dropWhile_suffix _).trans (List.suffix_cons _ _)
  · simp at h

theorem closed?_suffix (h : closed? cs = some rest) : rest <:+ cs := by
  unfold closed? at h
  split at h
  · next hcs =>
    obtain rfl := Option.some.inj h
    have hsuffix : trimStart cs <:+ cs := List.dropWhile_suffix isBlank
    rw [hcs] at hsuffix
    exact (List.suffix_cons _ _).trans hsuffix
  · simp at h

theorem interpolation?_eq (cs : List Char) :
    interpolation? ('#' :: '\x7b' :: cs) =
      (plain? (trimStart cs)).bind fun found => (closed? found.2).map fun rest => (found.1, rest) := by
  show (plain? (trimStart cs)).bind _ = _
  rcases plain? (trimStart cs) with _ | ⟨name, rest⟩
  · rfl
  · show (closed? rest).bind _ = (closed? rest).map _
    cases closed? rest <;> rfl

/-- In an interpolation there is a plain reference to the same name. -/
theorem exists_plain_of_interpolation {name : List Char} (h : interpolation? cs = some (name, rest)) :
    ∃ t rest', t <:+ cs ∧ plain? t = some (name, rest') ∧ rest <:+ rest' := by
  unfold interpolation? at h
  split at h
  · next cs =>
    simp only [Option.bind_eq_bind, Option.bind_eq_some_iff, Prod.exists, Option.some.injEq, Prod.mk.injEq] at h
    obtain ⟨_, rest', hplain, _, hclosed, rfl, rfl⟩ := h
    have hsuffix : trimStart cs <:+ '#' :: '\x7b' :: cs :=
      (List.dropWhile_suffix isBlank).trans ((List.suffix_cons _ _).trans (List.suffix_cons _ _))
    exact ⟨trimStart cs, rest', hsuffix, hplain, closed?_suffix hclosed⟩
  · simp at h

/-- A text without `$` has no references in it, so that filling it leaves it alone. -/
theorem Form.fill_of_not_mem (hform : ∀ {cs name rest}, form.read? cs = some (name, rest) → '$' ∈ cs)
    (h : '$' ∉ cs) : form.fill lookup cs = cs := by
  apply fill_eq_self
  intro t ht
  apply bound?_of_read?_none
  rcases hread : form.read? t with _ | ⟨name, rest⟩
  · rfl
  · exact absurd (ht.subset (hform hread)) h

/-- Passing over the texts without `$` makes no difference: substitution is the two rounds. -/
theorem substitute_eq_fill_fill (lookup : Lookup) (text : String) :
    substitute lookup text = String.ofList (plain.fill lookup (interpolation.fill lookup text.toList)) := by
  unfold substitute
  split
  · rfl
  · next hnot =>
    have hinterpolation : interpolation.fill lookup text.toList = text.toList := by
      refine Form.fill_of_not_mem (fun hread => ?_) hnot
      obtain ⟨t, _, ht, hplain, -⟩ := exists_plain_of_interpolation hread
      exact ht.subset (mem_of_plain? hplain)
    rw [hinterpolation, Form.fill_of_not_mem mem_of_plain? hnot, String.ofList_toList]

/-- Where there is nothing but a `$` and other characters, at most the one reference at the start is replaced. -/
theorem substitute_dollar (lookup : Lookup) {name : String} (h : ∀ c ∈ name.toList, c ≠ '$' ∧ c ≠ '#') :
    substitute lookup ("$" ++ name) = (plain.bound? lookup ('$' :: name.toList)).elim ("$" ++ name)
      fun found => String.ofList (found.1 ++ found.2) := by
  have hlist : ("$" ++ name).toList = '$' :: name.toList := by simp
  have hkept : interpolation.fill lookup ('$' :: name.toList) = '$' :: name.toList := by
    have hnone : ∀ c ∈ '$' :: name.toList, ∀ cs, interpolation? (c :: cs) = none := by
      intro c hc
      rcases List.mem_cons.1 hc with rfl | hc
      · exact interpolation?_of_ne (by decide)
      · exact interpolation?_of_ne (h c hc).2
    have hfill : interpolation.fill lookup ('$' :: name.toList ++ []) =
        '$' :: name.toList ++ interpolation.fill lookup [] := Form.fill_append_of_none hnone []
    simpa using hfill
  have hnot : '$' ∉ name.toList := fun hc => (h '$' hc).1 rfl
  rw [substitute_eq_fill_fill, hlist, hkept]
  rcases hbound : plain.bound? lookup ('$' :: name.toList) with _ | ⟨value, rest⟩
  · rw [Form.fill_of_none hbound, Form.fill_of_not_mem mem_of_plain? hnot, ← hlist, String.ofList_toList]
    rfl
  · have hrest : '$' ∉ rest := by
      obtain ⟨found, _, hread, _⟩ := Form.bound?_eq_some_iff.1 hbound
      have hplain : plain? ('$' :: name.toList) = some (found, rest) := hread
      rcases List.suffix_cons_iff.1 (plain?_suffix hplain) with heq | hsuffix
      · rw [heq] at hplain
        exact absurd (plain?_shorter hplain) (Nat.lt_irrefl _)
      · exact fun hc => hnot (hsuffix.subset hc)
    rw [Form.fill_of_some hbound, Form.fill_of_not_mem mem_of_plain? hrest]
    rfl

/-- A plain reference gives the value as it is. -/
theorem Referable.substitute_plain {name value : String} (h : Referable name) (hvalue : lookup name = some value) :
    substitute lookup ("$" ++ name) = value := by
  have hbound : plain.bound? lookup ('$' :: (name.toList ++ [])) = some (value.toList, []) := h.bound?_plain hvalue rfl
  rw [List.append_nil] at hbound
  rw [substitute_dollar lookup fun c hc => isNameChar_ne (h.all_name c hc), hbound]
  simp

/-- A reference in either form. -/
def either : Form where
  read? cs := (interpolation? cs).or (plain? cs)
  shorter h := by
    rcases Option.or_eq_some_iff.1 h with h | ⟨-, h⟩
    · exact interpolation?_shorter h
    · exact plain?_shorter h

theorem read?_either_dollar (cs : List Char) : either.read? ('$' :: cs) = plain.read? ('$' :: cs) := by
  show (interpolation? ('$' :: cs)).or _ = _
  rw [interpolation?_of_ne (by decide)]
  rfl

theorem read?_either_of_plain {name : List Char} (h : plain? cs = some (name, rest)) :
    either.read? cs = some (name, rest) := by
  cases cs with
  | nil => simp [plain?] at h
  | cons c cs =>
    by_cases hdollar : c = '$'
    · subst hdollar
      rw [read?_either_dollar]
      exact h
    · simp [plain?_of_ne hdollar] at h

theorem read?_either_hash (cs : List Char) : either.read? ('#' :: cs) = interpolation.read? ('#' :: cs) := by
  show (interpolation? ('#' :: cs)).or (plain? ('#' :: cs)) = interpolation? ('#' :: cs)
  rw [plain?_of_ne (by decide), Option.or_none]

theorem read?_either_of_ne (hdollar : c ≠ '$') (hhash : c ≠ '#') (cs : List Char) : either.read? (c :: cs) = none := by
  show (interpolation? (c :: cs)).or (plain? (c :: cs)) = none
  rw [interpolation?_of_ne hhash, plain?_of_ne hdollar]
  rfl

theorem bound?_either_of_ne (lookup : Lookup) (h : c ≠ '$') (cs : List Char) :
    either.bound? lookup (c :: cs) = interpolation.bound? lookup (c :: cs) := by
  apply Form.bound?_congr
  show (interpolation? (c :: cs)).or (plain? (c :: cs)) = interpolation? (c :: cs)
  rw [plain?_of_ne h, Option.or_none]

/-- What is read in either form contains a plain reference, and comes before a part of the text. -/
theorem exists_plain_of_either {name : List Char} (h : either.read? cs = some (name, rest)) :
    ∃ t rest', t <:+ cs ∧ plain? t = some (name, rest') ∧ rest <:+ rest' := by
  rcases Option.or_eq_some_iff.1 h with h | ⟨-, h⟩
  · exact exists_plain_of_interpolation h
  · exact ⟨cs, rest, List.suffix_refl _, h, List.suffix_refl _⟩

theorem bound?_either_suffix (h : either.bound? lookup cs = some (value, rest)) : rest <:+ cs := by
  obtain ⟨name, _, hread, _⟩ := Form.bound?_eq_some_iff.1 h
  obtain ⟨t, rest', ht, hplain, hrest⟩ := exists_plain_of_either hread
  exact (hrest.trans (plain?_suffix hplain)).trans ht

/-! ### Two rounds and one scan -/

/-- No reference to a bound name written as an interpolation comes right after a `$` and characters of a name. -/
def Detached (lookup : Lookup) (cs : List Char) : Prop :=
  ∀ t, '$' :: t <:+ cs → interpolation.bound? lookup (t.dropWhile isNameChar) = none

/-- What holds behind every `$` of a text can be checked by going through it. -/
theorem forall_suffix_iff {p : List Char → Prop} (cs : List Char) :
    (∀ t, '$' :: t <:+ cs → p t) ↔ ∀ u ∈ cs.tails, u.head? = some '$' → p u.tail := by
  constructor
  · intro h u hu hhead
    obtain ⟨t, rfl⟩ := List.head?_eq_some_iff.1 hhead
    exact h t ((List.mem_tails _ _).1 hu)
  · intro h t ht
    exact h ('$' :: t) ((List.mem_tails _ _).2 ht) rfl

theorem Detached.suffix {t : List Char} (h : Detached lookup cs) (ht : t <:+ cs) : Detached lookup t :=
  fun u hu => h u (hu.trans ht)

theorem plain_fill_append (h : '$' ∉ word) (rest : List Char) :
    plain.fill lookup (word ++ rest) = word ++ plain.fill lookup rest := by
  apply Form.fill_append_of_none
  intro c hc cs
  apply plain?_of_ne
  rintro rfl
  exact h hc

/-- Filling leaves a name at the start of a text alone, and does not make it longer, if no reference to a bound name
comes right after it. -/
theorem Form.fill_name (hform : ∀ c, isNameChar c = true → ∀ cs, form.read? (c :: cs) = none)
    (h : form.bound? lookup (cs.dropWhile isNameChar) = none) :
    form.fill lookup cs = cs.takeWhile isNameChar ++ form.fill lookup (cs.dropWhile isNameChar) ∧
      (form.fill lookup (cs.dropWhile isNameChar)).takeWhile isNameChar = [] := by
  constructor
  · rw [← fill_append_of_none, List.takeWhile_append_dropWhile]
    exact fun c hc => hform c (List.mem_takeWhile_imp hc)
  · cases hrest : cs.dropWhile isNameChar with
    | nil => simp
    | cons d rest =>
      have hd : isNameChar d = false := by
        have hhead := List.head?_dropWhile_not isNameChar cs
        rw [hrest] at hhead
        simpa using hhead
      rw [hrest] at h
      rw [fill_of_none h, List.takeWhile_cons_of_neg (by simp [hd])]

/-- A plain reference is read in the same way after the first round. -/
theorem Detached.bound?_plain (h : Detached lookup ('$' :: cs)) :
    plain.bound? lookup ('$' :: interpolation.fill lookup cs) =
      (plain.bound? lookup ('$' :: cs)).map fun found => (found.1, interpolation.fill lookup found.2) := by
  obtain ⟨hname, hends⟩ :=
    Form.fill_name (fun c hc => interpolation?_of_ne (isNameChar_ne hc).2) (h cs (List.suffix_refl _))
  have hread := name?_map (interpolation.fill lookup) cs hends
  rw [← hname] at hread
  exact Form.bound?_map hread

theorem interpolation_fill_dollar (lookup : Lookup) (cs : List Char) :
    interpolation.fill lookup ('$' :: cs) = '$' :: interpolation.fill lookup cs := by
  have hskip : interpolation? ('$' :: cs) = none := interpolation?_of_ne (by decide) cs
  exact Form.fill_of_none (Form.bound?_of_read?_none hskip)

theorem bound?_either_dollar (lookup : Lookup) (cs : List Char) :
    either.bound? lookup ('$' :: cs) = plain.bound? lookup ('$' :: cs) :=
  Form.bound?_congr (read?_either_dollar cs)

theorem plain_fill_interpolation_fill (hvalues : ∀ name value, lookup name = some value → '$' ∉ value.toList)
    (hdetached : Detached lookup cs) :
    plain.fill lookup (interpolation.fill lookup cs) = either.fill lookup cs := by
  -- the induction follows the single scan
  induction cs using Form.fill.induct either lookup with
  | case1 => simp
  | case2 c cs hnone ih =>
    have hcs := ih (hdetached.suffix (List.suffix_cons c cs))
    rw [Form.fill_of_none hnone]
    by_cases hdollar : c = '$'
    · subst hdollar
      have hbound := hdetached.bound?_plain
      rw [bound?_either_dollar] at hnone
      rw [hnone] at hbound
      rw [interpolation_fill_dollar, Form.fill_of_none hbound, hcs]
    · rw [bound?_either_of_ne lookup hdollar] at hnone
      rw [Form.fill_of_none hnone, Form.fill_of_none (Form.bound?_of_read?_none (plain?_of_ne hdollar _)), hcs]
  | case3 c cs value rest hsome ih =>
    have hrest := ih (hdetached.suffix (bound?_either_suffix hsome))
    rw [Form.fill_of_some hsome]
    by_cases hdollar : c = '$'
    · subst hdollar
      have hbound := hdetached.bound?_plain
      rw [bound?_either_dollar] at hsome
      rw [hsome] at hbound
      rw [interpolation_fill_dollar, Form.fill_of_some hbound, hrest]
    · rw [bound?_either_of_ne lookup hdollar] at hsome
      obtain ⟨name, v, -, hv, rfl⟩ := Form.bound?_eq_some_iff.1 hsome
      rw [Form.fill_of_some hsome, plain_fill_append (hvalues _ v hv), hrest]

/-- Where nothing can merge, substitution is one scan. -/
theorem substitute_eq_fill_either (hvalues : ∀ name value, lookup name = some value → '$' ∉ value.toList)
    {text : String} (hdetached : Detached lookup text.toList) :
    substitute lookup text = String.ofList (either.fill lookup text.toList) := by
  rw [substitute_eq_fill_fill, plain_fill_interpolation_fill hvalues hdetached]

end NestedStyles.Reference
