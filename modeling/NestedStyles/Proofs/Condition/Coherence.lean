import NestedStyles.Condition
import NestedStyles.Proofs.Text.Cutting

/-!
# Negation and comparison

A `not` in front of a condition negates it, and `!=` says the opposite of `==`. Both hold of the text as a whole: of a
`not` with nothing behind it, and of a comparison behind any number of `not`s, each with any white space after it.

An operator is looked for only once the `not`s are off. So a comparison is taken apart where it is written, provided
that what stands left of the operator has no operator in it and does not make another one with it (`Unambiguous`).
-/

namespace NestedStyles.Condition

open Text

variable {cs rest a b : List Char}

/-! ### Leading `not`s -/

theorem holdsTrimmed_of_not (h : trimStart cs = 'n' :: 'o' :: 't' :: ' ' :: rest) :
    holdsTrimmed cs = !holdsTrimmed rest := by
  rw [holdsTrimmed]
  split
  · next h' =>
    rw [h] at h'
    obtain rfl : rest = _ := by simpa using h'
    rfl
  · next h' => exact absurd h (h' rest)

theorem holdsTrimmed_of_ne (h : ∀ rest, trimStart cs ≠ 'n' :: 'o' :: 't' :: ' ' :: rest) :
    holdsTrimmed cs = compares (trimStart cs) := by
  rw [holdsTrimmed]
  split
  · next h' => exact absurd h' (h _)
  · rfl

theorem holds_not (condition : String) : holds ("not " ++ condition) = !holds condition := by
  have hlist : ("not " ++ condition).toList = "not ".toList ++ condition.toList := by simp
  rw [holds, holds, hlist, trimEnd_append]
  split
  · next hblank =>
    -- without its blank this `not` is a word like any other, and a blank condition does not hold
    rw [hblank]
    decide +kernel
  · exact holdsTrimmed_of_not rfl

/-- A `not` in front of an operator belongs to what stands left of it. -/
theorem holdsTrimmed_append_of_not {op : Char} (hop : isBlank op = false)
    (h : trimStart a = 'n' :: 'o' :: 't' :: ' ' :: rest) (ds : List Char) :
    holdsTrimmed (a ++ op :: ds) = !holdsTrimmed (rest ++ op :: ds) := by
  have hstart : trimStart (a ++ op :: ds) = trimStart a ++ op :: ds := trimStart_append (by simpa using hop)
  rw [h] at hstart
  exact holdsTrimmed_of_not hstart

theorem holdsTrimmed_append_of_ne {op : Char} (hop : isBlank op = false) (hletter : op ∉ "not".toList)
    (h : ∀ rest, trimStart a ≠ 'n' :: 'o' :: 't' :: ' ' :: rest) (ds : List Char) :
    holdsTrimmed (a ++ op :: ds) = compares (trimStart a ++ op :: ds) := by
  have hstart : trimStart (a ++ op :: ds) = trimStart a ++ op :: ds := trimStart_append (by simpa using hop)
  have hne : ∀ rest, trimStart a ++ op :: ds ≠ "not ".toList ++ rest := by
    intro rest heq
    have hblank : op ≠ ' ' := by
      rintro rfl
      exact absurd hop (by decide)
    rcases List.append_eq_append_iff.1 heq with ⟨middle, hnot, hds⟩ | ⟨middle, hnot, -⟩
    · cases middle with
      | nil => exact h [] (by simpa using hnot.symm)
      | cons c middle =>
        obtain ⟨rfl, -⟩ := List.cons.inj hds
        have hmem : op ∈ "not ".toList := by
          rw [hnot]
          simp
        simp_all
    · exact h middle hnot
  rw [holdsTrimmed_of_ne (by rw [hstart]; exact hne), hstart]

/-! ### Comparisons -/

/-- There is no operator in the text, and its last character is not the first one of an operator. -/
structure Unambiguous (a : List Char) : Prop where
  unequal : ¬ ['!', '='] <:+: a
  equal : ¬ ['=', '='] <:+: a
  last_ne : ∀ c ∈ a.getLast?, c ≠ '!' ∧ c ≠ '='

theorem Unambiguous.suffix (h : Unambiguous a) (hsuffix : rest <:+ a) : Unambiguous rest where
  unequal := fun hoccurs => h.unequal (hoccurs.trans hsuffix.isInfix)
  equal := fun hoccurs => h.equal (hoccurs.trans hsuffix.isInfix)
  last_ne := by
    intro c hc
    obtain ⟨front, rfl⟩ := hsuffix
    apply h.last_ne c
    rw [List.getLast?_append, Option.mem_def.1 hc]
    rfl

theorem compares_unequal (h : Unambiguous a) (b : List Char) :
    compares (a ++ '!' :: '=' :: b) = (operand a != operand b) := by
  have hfirst : ¬ ['!', '='] <:+: a ++ ['!'] := by
    rw [pair_infix_append_iff]
    simp [h.unequal, List.infix_cons_iff]
  have hcut := cut?_append (by simp) hfirst b
  simp only [List.cons_append, List.nil_append] at hcut
  rw [compares, hcut]

/-- The operator `!=` is looked for first, so it must not stand in the right operand either. -/
theorem compares_equal (h : Unambiguous a) (hb : ¬ ['!', '='] <:+: b) :
    compares (a ++ '=' :: '=' :: b) = (operand a == operand b) := by
  have hnone : cut? ['!', '='] (a ++ '=' :: '=' :: b) = none := by
    have hlast : a.getLast? ≠ some '!' := fun hc => (h.last_ne _ hc).1 rfl
    have hnot : ¬ ['!', '='] <:+: a ++ (['=', '='] ++ b) := by
      rw [pair_infix_append_iff, pair_infix_append_iff]
      simp [h.unequal, hb, hlast, List.infix_cons_iff]
    rw [← occurs_iff_infix] at hnot
    simpa [occurs] using hnot
  have hfirst : ¬ ['=', '='] <:+: a ++ ['='] := by
    have hlast : a.getLast? ≠ some '=' := fun hc => (h.last_ne _ hc).2 rfl
    rw [pair_infix_append_iff]
    simp [h.equal, hlast, List.infix_cons_iff]
  have hcut := cut?_append (by simp) hfirst b
  simp only [List.cons_append, List.nil_append] at hcut
  rw [compares, hnone]
  simp only [hcut]

/-- The induction takes the `not`s off the left operand, one after the other. -/
theorem holdsTrimmed_unequal (h : Unambiguous a) (hb : ¬ ['!', '='] <:+: b) :
    holdsTrimmed (a ++ '!' :: '=' :: b) = !holdsTrimmed (a ++ '=' :: '=' :: b) := by
  have hblank : isBlank '!' = false ∧ isBlank '=' = false := by decide
  fun_induction holdsTrimmed a with
  | case1 a rest hnot ih =>
    have hstart : trimStart a <:+ a := List.dropWhile_suffix isBlank
    rw [hnot] at hstart
    have hsuffix : rest <:+ a := (List.suffix_append "not ".toList rest).trans hstart
    rw [holdsTrimmed_append_of_not hblank.1 hnot, holdsTrimmed_append_of_not hblank.2 hnot, ih (h.suffix hsuffix)]
  | case2 a hne =>
    have hstart : trimStart a <:+ a := List.dropWhile_suffix isBlank
    have hleft := h.suffix hstart
    rw [holdsTrimmed_append_of_ne hblank.1 (by decide) hne, holdsTrimmed_append_of_ne hblank.2 (by decide) hne,
      compares_unequal hleft, compares_equal hleft hb]
    rfl

theorem holds_unequal (a b : String) (h : Unambiguous a.toList) (hb : ¬ ['!', '='] <:+: b.toList) :
    holds (a ++ "!=" ++ b) = !holds (a ++ "==" ++ b) := by
  have htrim : ∀ op : Char,
      trimEnd (a.toList ++ op :: '=' :: b.toList) = a.toList ++ op :: '=' :: trimEnd b.toList := by
    intro op
    have hlast : ∀ c ∈ (a.toList ++ [op, '=']).getLast?, isBlank c = false := by
      rw [List.getLast?_append_of_ne_nil _ (by simp)]
      simpa using (by decide)
    simpa using trimEnd_append_of_last hlast b.toList
  have hright : ¬ ['!', '='] <:+: trimEnd b.toList := fun hoccurs => hb (hoccurs.trans (trimEnd_isPrefix _).isInfix)
  have hunequal : (a ++ "!=" ++ b).toList = a.toList ++ '!' :: '=' :: b.toList := by simp
  have hequal : (a ++ "==" ++ b).toList = a.toList ++ '=' :: '=' :: b.toList := by simp
  rw [holds, holds, hunequal, hequal, htrim, htrim, holdsTrimmed_unequal h hright]

/-- A `not` in front of any condition negates it, and the two operators say the opposite of each other between any two
operands that leave no doubt where the operator is. -/
theorem holds_coherent :
    (∀ condition : String, holds ("not " ++ condition) = !holds condition) ∧
      ∀ a b : String, Unambiguous a.toList → ¬ ['!', '='] <:+: b.toList →
        holds (a ++ "!=" ++ b) = !holds (a ++ "==" ++ b) := by
  refine ⟨holds_not, ?_⟩
  intro a b ha hb
  exact holds_unequal a b ha hb

/-- Two `not`s with an ideographic space between them, quotes of both kinds, and single characters of operators. -/
theorem holds_coherent_stacked :
    holds ("not \u3000not '=dark!' " ++ "!=" ++ "\t\"=dark!\"\u00a0") =
        !holds ("not \u3000not '=dark!' " ++ "==" ++ "\t\"=dark!\"\u00a0") ∧
      holds ("not \u3000not '=dark!' " ++ "==" ++ "\t\"=dark!\"\u00a0") = true ∧
      holds ("not " ++ "\u2003") = !holds "\u2003" := by
  have hleft : Unambiguous "not \u3000not '=dark!' ".toList :=
    { unequal := by decide +kernel
      equal := by decide +kernel
      last_ne := by simp }
  have hright : ¬ ['!', '='] <:+: "\t\"=dark!\"\u00a0".toList := by decide +kernel
  exact ⟨holds_coherent.2 _ _ hleft hright, by decide +kernel, holds_coherent.1 "\u2003"⟩

end NestedStyles.Condition
