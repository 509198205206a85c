import NestedStyles.Proofs.Reference.Scanning

/-!
# The text around an interpolation

Filling a text in two parts gives the two parts filled, unless a reference starts in the first one and goes on in the
second one (`Form.fill_append`). Nothing that is read in the first round goes on with a `#`, so the text before an
interpolation and the text behind it are read apart from it and from each other. In the second round the value stands in
its place. If a `$` and characters of a name come to stand before it, and it or what follows it starts with more of them,
these are read as one reference (`Joins`). Otherwise the interpolation is a boundary (`substitute_around`).
-/

namespace NestedStyles.Reference

open Text

variable {form : Form} {lookup : Lookup} {before after : List Char}

/-- A text ends in a `$` and characters of a name. -/
def EndsOpen (cs : List Char) : Prop := (cs.reverse.dropWhile isNameChar).head? = some '$'

instance (cs : List Char) : Decidable (EndsOpen cs) := inferInstanceAs (Decidable (_ = _))

/-- The end of the first text and the start of the second one are characters of one name behind a `$`. -/
def Joins (before after : List Char) : Prop := EndsOpen before ∧ ¬ Stops after

instance (before after : List Char) : Decidable (Joins before after) := inferInstanceAs (Decidable (_ ∧ _))

theorem endsOpen_iff {cs : List Char} :
    EndsOpen cs ↔ ∃ lead word, cs = lead ++ '$' :: word ∧ ∀ c ∈ word, isNameChar c = true := by
  constructor
  · intro h
    obtain ⟨rest, hrest⟩ := List.head?_eq_some_iff.1 h
    have hsplit : cs.reverse = cs.reverse.takeWhile isNameChar ++ '$' :: rest := by
      rw [← hrest, List.takeWhile_append_dropWhile]
    refine ⟨rest.reverse, (cs.reverse.takeWhile isNameChar).reverse, ?_, ?_⟩
    · have hcs := congrArg List.reverse hsplit
      simpa using hcs
    · intro c hc
      exact List.mem_takeWhile_imp (List.mem_reverse.1 hc)
  · rintro ⟨lead, word, rfl, hword⟩
    have hrev : ∀ c ∈ word.reverse, isNameChar c = true := fun c hc => hword c (List.mem_reverse.1 hc)
    rw [EndsOpen, List.reverse_append, List.reverse_cons, List.append_assoc, List.dropWhile_append_of_pos hrev]
    rfl

theorem EndsOpen.of_suffix {cs t : List Char} (h : EndsOpen t) (ht : t <:+ cs) : EndsOpen cs := by
  obtain ⟨lead, word, rfl, hword⟩ := endsOpen_iff.1 h
  obtain ⟨front, rfl⟩ := ht
  exact endsOpen_iff.2 ⟨front ++ lead, word, (List.append_assoc ..).symm, hword⟩

/-! ### Filling a text in two parts -/

/-- Filling goes over an append if whatever starts in the first text is read there as it is read in both. -/
theorem Form.fill_append (hsuffix : ∀ {cs name rest}, form.read? cs = some (name, rest) → rest <:+ cs)
    (h : ∀ c t, c :: t <:+ before →
      form.read? (c :: t ++ after) = (form.read? (c :: t)).map fun found => (found.1, found.2 ++ after)) :
    form.fill lookup (before ++ after) = form.fill lookup before ++ form.fill lookup after := by
  have hbound : ∀ c t, c :: t <:+ before → form.bound? lookup (c :: t ++ after) =
      (form.bound? lookup (c :: t)).map fun found => (found.1, found.2 ++ after) :=
    fun c t ht => bound?_map (g := (· ++ after)) (h c t ht)
  clear h
  induction before using Form.fill.induct form lookup with
  | case1 => simp
  | case2 c cs hnone ih =>
    have hboth := hbound c cs (List.suffix_refl _)
    rw [hnone, Option.map_none, List.cons_append] at hboth
    rw [List.cons_append, fill_of_none hboth, fill_of_none hnone, List.cons_append,
      ih fun d t ht => hbound d t (ht.trans (List.suffix_cons c cs))]
  | case3 c cs value rest hsome ih =>
    have hboth := hbound c cs (List.suffix_refl _)
    rw [hsome, Option.map_some] at hboth
    obtain ⟨name, v, hread, -, -⟩ := bound?_eq_some_iff.1 hsome
    rw [fill_of_some hboth, fill_of_some hsome, List.append_assoc,
      ih fun d t ht => hbound d t (ht.trans (hsuffix hread))]

/-- What is read at the start of a text does not reach over its end, unless a name can go on there. -/
theorem plain?_append {cs : List Char} (hne : cs ≠ []) (h : ¬ Joins cs after) :
    plain? (cs ++ after) = (plain? cs).map fun found => (found.1, found.2 ++ after) := by
  cases cs with
  | nil => exact absurd rfl hne
  | cons c cs =>
    by_cases hdollar : c = '$'
    · subst hdollar
      have hends : (cs.dropWhile isNameChar ++ after).takeWhile isNameChar = [] := by
        cases hdrop : cs.dropWhile isNameChar with
        | nil =>
          have hopen : EndsOpen ('$' :: cs) := endsOpen_iff.2 ⟨[], cs, rfl, List.dropWhile_eq_nil_iff.1 hdrop⟩
          exact stops_iff.1 (Decidable.not_not.1 fun hgoes => h ⟨hopen, hgoes⟩)
        | cons d rest =>
          have hstops := stops_dropWhile cs
          rw [hdrop, stops_cons] at hstops
          exact stops_iff.1 (stops_cons.2 hstops)
      have hread := name?_map (· ++ after) cs hends
      rw [← List.append_assoc, List.takeWhile_append_dropWhile] at hread
      exact hread
    · rw [List.cons_append, plain?_of_ne hdollar, plain?_of_ne hdollar]
      rfl

theorem plain_fill_append_of_not_joins (h : ¬ Joins before after) :
    plain.fill lookup (before ++ after) = plain.fill lookup before ++ plain.fill lookup after := by
  apply Form.fill_append plain?_suffix
  intro c t ht
  exact plain?_append (List.cons_ne_nil c t) fun hjoins => h ⟨hjoins.1.of_suffix ht, hjoins.2⟩

/-- An interpolation ends before the next `#`. -/
theorem interpolation?_append {cs : List Char} (hne : cs ≠ []) (tail : List Char) :
    interpolation? (cs ++ '#' :: tail) = (interpolation? cs).map fun found => (found.1, found.2 ++ '#' :: tail) := by
  apply Option.ext
  rintro ⟨name, rest⟩
  rw [interpolation?_eq_some_iff, Option.map_eq_some_iff]
  constructor
  · rintro ⟨written, hwritten, heq⟩
    rcases List.append_eq_append_iff.1 heq with ⟨more, hmore, htail⟩ | ⟨rest', hrest', rfl⟩
    · cases more with
      | nil =>
        rw [List.nil_append] at htail
        exact ⟨(name, []), interpolation?_eq_some_iff.2 ⟨written, hwritten, by rw [hmore]; simp⟩, by rw [htail]; rfl⟩
      | cons d more =>
        -- the interpolation would have a second `#` in it
        exfalso
        obtain ⟨rfl, -⟩ := List.cons.inj htail
        obtain ⟨c, cs, rfl⟩ := List.exists_cons_of_ne_nil hne
        apply hwritten.not_mem_tail
        rw [hmore, List.cons_append, List.tail_cons]
        exact List.mem_append_right _ List.mem_cons_self
    · exact ⟨(name, rest'), interpolation?_eq_some_iff.2 ⟨written, hwritten, hrest'⟩, rfl⟩
  · rintro ⟨⟨name', rest'⟩, hread, hpair⟩
    obtain ⟨rfl, rfl⟩ := Prod.mk.inj hpair
    obtain ⟨written, hwritten, rfl⟩ := interpolation?_eq_some_iff.1 hread
    exact ⟨written, hwritten, List.append_assoc ..⟩

theorem interpolation?_suffix {cs name rest : List Char} (h : interpolation? cs = some (name, rest)) : rest <:+ cs := by
  obtain ⟨written, -, rfl⟩ := interpolation?_eq_some_iff.1 h
  exact List.suffix_append written rest

theorem interpolation_fill_append (before tail : List Char) :
    interpolation.fill lookup (before ++ '#' :: tail) =
      interpolation.fill lookup before ++ interpolation.fill lookup ('#' :: tail) := by
  apply Form.fill_append interpolation?_suffix
  intro c t _
  exact interpolation?_append (List.cons_ne_nil c t) tail

/-! ### Around an interpolation -/

/-- The text that the second round reads has the value in the place of the interpolation. -/
theorem Referable.interpolation_fill_around {name value : String} (hname : Referable name)
    (hvalue : lookup name = some value) (pre post : List Char) :
    interpolation.fill lookup (pre ++ ('#' :: '\x7b' :: '$' :: (name.toList ++ ['\x7d']) ++ post)) =
      interpolation.fill lookup pre ++ (value.toList ++ interpolation.fill lookup post) := by
  have hwritten : Interpolates name ('#' :: '\x7b' :: '$' :: (name.toList ++ ['\x7d'])) :=
    @Interpolates.intro name [] [] hname (by simp) (by simp)
  rw [List.cons_append, interpolation_fill_append, ← List.cons_append,
    Form.fill_of_some (bound?_interpolation_of_interpolates hwritten hvalue post)]

/-- An interpolation whose value has no `$` in it is a boundary: the texts on both sides of it are substituted as if each
stood alone, unless they join. If the first round leaves a `$` and characters of a name before the value, then the parts
are others: the text up to this `$`, a reference to the name as far as it goes on behind it, and the rest. -/
theorem substitute_around (lookup : Lookup) (pre post name value : String) (hname : Referable name)
    (hvalue : lookup name = some value) (hdollar : '$' ∉ value.toList) :
    (¬ Joins (interpolation.fill lookup pre.toList) (value.toList ++ interpolation.fill lookup post.toList) →
      substitute lookup (pre ++ ("#\x7b$" ++ name ++ "\x7d") ++ post) =
        substitute lookup pre ++ value ++ substitute lookup post) ∧
    ∀ lead word after, interpolation.fill lookup pre.toList = lead ++ '$' :: word →
      (∀ c ∈ word, isNameChar c = true) → value.toList ++ interpolation.fill lookup post.toList = after →
      substitute lookup (pre ++ ("#\x7b$" ++ name ++ "\x7d") ++ post) =
        String.ofList (plain.fill lookup lead) ++
          String.ofList (plain.fill lookup ('$' :: (word ++ after.takeWhile isNameChar))) ++
          String.ofList (plain.fill lookup (after.dropWhile isNameChar)) := by
  have htext : (pre ++ ("#\x7b$" ++ name ++ "\x7d") ++ post).toList =
      pre.toList ++ ('#' :: '\x7b' :: '$' :: (name.toList ++ ['\x7d']) ++ post.toList) := by
    simp
  rw [substitute_eq_fill_fill, htext, hname.interpolation_fill_around hvalue]
  constructor
  · intro hjoins
    rw [plain_fill_append_of_not_joins hjoins, plain_fill_append hdollar, substitute_eq_fill_fill,
      substitute_eq_fill_fill, String.ofList_append, String.ofList_append, String.ofList_toList, String.append_assoc]
  · intro lead word after hpre hword hafter
    have hlead : ¬ Joins lead ('$' :: (word ++ after)) := fun hjoins => hjoins.2 (stops_cons.2 (by decide))
    have hbehind : ¬ Joins ('$' :: (word ++ after.takeWhile isNameChar)) (after.dropWhile isNameChar) :=
      fun hjoins => hjoins.2 (stops_dropWhile after)
    have hsplit : '$' :: (word ++ after) =
        '$' :: (word ++ after.takeWhile isNameChar) ++ after.dropWhile isNameChar := by
      rw [List.cons_append, List.append_assoc, List.takeWhile_append_dropWhile]
    rw [hpre, hafter, List.append_assoc, List.cons_append, plain_fill_append_of_not_joins hlead, hsplit,
      plain_fill_append_of_not_joins hbehind, String.ofList_append, String.ofList_append, String.append_assoc]

/-- A number and a letter. -/
def pair : Lookup := fun name => if name = "a" then some "1" else if name = "n" then some "b" else none

theorem substitute_around_pair :
    substitute pair "$a-x $a #\x7b$n\x7d$a" = substitute pair "$a-x $a " ++ "b" ++ substitute pair "$a" ∧
      substitute pair "$a-x $a " ++ "b" ++ substitute pair "$a" = "$a-x 1 b1" := by
  have hname : Referable "n" := ⟨by decide, List.all_eq_true.1 (by decide)⟩
  have haround := substitute_around pair "$a-x $a " "$a" "n" "b" hname rfl (by decide)
  exact ⟨haround.1 (by decide +kernel), by decide +kernel⟩

/-- A reference right before an interpolation takes the value for a part of its name, and is lost. -/
theorem substitute_merged :
    substitute pair "$a#\x7b$n\x7d" = "$ab" ∧ substitute pair "$a" ++ "b" ++ substitute pair "" = "1b" ∧
      pair "n" = some "b" ∧ '$' ∉ "b".toList := by
  decide +kernel

end NestedStyles.Reference
