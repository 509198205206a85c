import NestedStyles.Proofs.Text.Cutting
import NestedStyles.Selector

/-!
# Combining selectors

A selector is printed as a list of alternatives and read again when the next one is nested in it. What is printed is
read as the same list (`alternatives_intercalate`), because nesting one alternative in another gives an alternative:
a text that is not empty, has no comma, and neither starts nor ends with white space (`IsAlternative.nest`). So the
selectors of several levels may be combined from either end, as long as the innermost one does not refer to the outer
ones (`nest_nest`).
-/

namespace NestedStyles

namespace Selector

open Text

/-- What can be an alternative of a selector. -/
structure IsAlternative (text : List Char) : Prop where
  ne_nil : text ≠ []
  no_comma : ',' ∉ text
  trimmed : Trimmed text

variable {selector outer inner innermost : List Char}

/-! ### Printing and reading lists -/

theorem exists_piece_of_mem_alternatives {text : List Char} (h : text ∈ alternatives selector) :
    ∃ piece ∈ pieces ',' selector, trim piece = text ∧ text ≠ [] := by
  obtain ⟨hmem, hne⟩ := List.mem_filter.1 h
  obtain ⟨piece, hpiece, htrim⟩ := List.mem_map.1 hmem
  exact ⟨piece, hpiece, htrim, by simpa using hne⟩

theorem isAlternative_of_mem {text : List Char} (h : text ∈ alternatives selector) : IsAlternative text := by
  obtain ⟨piece, hpiece, htrim, hne⟩ := exists_piece_of_mem_alternatives h
  refine ⟨hne, ?_, ?_⟩
  · intro hcomma
    rw [← htrim] at hcomma
    exact not_mem_of_mem_pieces hpiece (mem_of_mem_trim hcomma)
  · rw [← htrim]
    exact trimmed_trim piece

theorem mem_of_mem_alternatives {text : List Char} (h : text ∈ alternatives selector) {c : Char} (hc : c ∈ text) :
    c ∈ selector := by
  obtain ⟨piece, hpiece, htrim, -⟩ := exists_piece_of_mem_alternatives h
  rw [← htrim] at hc
  exact (mem_of_mem_pieces hpiece (mem_of_mem_trim hc)).1

theorem alternatives_append (selector more : List Char) :
    alternatives (selector ++ ',' :: more) = alternatives selector ++ alternatives more := by
  simp only [alternatives, pieces_eq_splitOn, List.splitOn_append_cons_self, List.map_append, List.filter_append]

theorem alternatives_space_cons (selector : List Char) : alternatives (' ' :: selector) = alternatives selector := by
  obtain ⟨first, rest, hp, hcons⟩ := pieces_cons_of_ne (show ' ' ≠ ',' by decide) selector
  have htrim : trim (' ' :: first) = trim first := trim_blank_cons (by decide) first
  unfold alternatives
  rw [hcons, hp, List.map_cons, List.map_cons, htrim]

theorem IsAlternative.alternatives_eq {text : List Char} (h : IsAlternative text) : alternatives text = [text] := by
  have hpieces : pieces ',' text = [text] := by
    rw [pieces_eq_splitOn, List.splitOn_eq_singleton h.no_comma]
  unfold alternatives
  rw [hpieces, List.map_singleton, h.trimmed.trim_eq]
  simp [h.ne_nil]

/-- A printed list of alternatives is read as that list. -/
theorem alternatives_intercalate {texts : List (List Char)} (h : ∀ text ∈ texts, IsAlternative text) :
    alternatives (List.intercalate [',', ' '] texts) = texts := by
  induction texts with
  | nil => rfl
  | cons text texts ih =>
    have htext := (h text List.mem_cons_self).alternatives_eq
    have hrest := ih fun t ht => h t (List.mem_cons_of_mem text ht)
    cases texts with
    | nil => rw [List.intercalate_singleton, htext]
    | cons next texts =>
      have hprint : List.intercalate [',', ' '] (text :: next :: texts) =
          text ++ ',' :: ' ' :: List.intercalate [',', ' '] (next :: texts) := by
        rw [List.intercalate_cons_cons]
        simp
      rw [hprint, alternatives_append, alternatives_space_cons, htext, hrest]
      rfl

/-! ### Nesting alternatives -/

/-- What a character of the inner alternative stands for. -/
def standIn (outer : List Char) (c : Char) : List Char := if c = '&' then outer else [c]

theorem nest_of_mem (h : '&' ∈ inner) : nest outer inner = inner.flatMap (standIn outer) := if_pos h

theorem nest_of_not_mem (h : '&' ∉ inner) : nest outer inner = outer ++ ' ' :: inner := if_neg h

theorem flatMap_standIn (h : '&' ∉ inner) : inner.flatMap (standIn outer) = inner := by
  have hkept : ∀ c ∈ inner, standIn outer c = [c] := by
    intro c hc
    have hne : c ≠ '&' := by
      intro heq
      exact h (heq ▸ hc)
    rw [standIn, if_neg hne]
  rw [List.flatMap_congr hkept, List.flatMap_singleton']

theorem IsAlternative.trimmed_standIn (h : IsAlternative outer) {c : Char} (hc : isBlank c = false) :
    Trimmed (standIn outer c) := by
  unfold standIn
  split
  · exact h.trimmed
  · constructor <;> simp [hc]

theorem IsAlternative.standIn_ne_nil (h : IsAlternative outer) (c : Char) : standIn outer c ≠ [] := by
  unfold standIn
  split
  · exact h.ne_nil
  · simp

theorem IsAlternative.no_comma_standIn (h : IsAlternative outer) {c : Char} (hc : c ≠ ',') :
    ',' ∉ standIn outer c := by
  unfold standIn
  split
  · exact h.no_comma
  · simp [Ne.symm hc]

/-- The ends of the inner alternative stay what they are, or are replaced by alternatives. -/
theorem IsAlternative.trimmed_flatMap (ho : IsAlternative outer) (hi : IsAlternative inner) :
    Trimmed (inner.flatMap (standIn outer)) := by
  constructor
  · intro c hc
    cases inner with
    | nil => exact absurd rfl hi.ne_nil
    | cons d ds =>
      have hd : isBlank d = false := hi.trimmed.head d rfl
      rw [List.flatMap_cons, List.head?_append_of_ne_nil _ (ho.standIn_ne_nil d)] at hc
      exact (ho.trimmed_standIn hd).head c hc
  · intro c hc
    obtain ⟨ds, d, rfl⟩ := (List.eq_nil_or_concat' inner).resolve_left hi.ne_nil
    have hd : isBlank d = false := hi.trimmed.last d (by simp)
    rw [List.flatMap_append, List.flatMap_singleton, List.getLast?_append_of_ne_nil _ (ho.standIn_ne_nil d)] at hc
    exact (ho.trimmed_standIn hd).last c hc

theorem IsAlternative.nest (ho : IsAlternative outer) (hi : IsAlternative inner) :
    IsAlternative (nest outer inner) := by
  by_cases hmem : '&' ∈ inner
  · rw [nest_of_mem hmem]
    refine ⟨?_, ?_, ho.trimmed_flatMap hi⟩
    · intro hnil
      have hreplaced := List.flatMap_eq_nil_iff.1 hnil '&' hmem
      exact ho.standIn_ne_nil '&' hreplaced
    · intro hcomma
      obtain ⟨c, hc, hcomma⟩ := List.mem_flatMap.1 hcomma
      have hne : c ≠ ',' := by
        intro heq
        exact hi.no_comma (heq ▸ hc)
      exact ho.no_comma_standIn hne hcomma
  · rw [nest_of_not_mem hmem]
    refine ⟨?_, ?_, ?_⟩
    · simp [ho.ne_nil]
    · have hcomma := ho.no_comma
      have hcomma' := hi.no_comma
      simp [hcomma, hcomma']
    · have hends := ho.trimmed.between hi.trimmed ho.ne_nil hi.ne_nil [' ']
      simpa using hends

/-- An innermost alternative without a reference goes to the end, however the others are nested. -/
theorem nest_nest (h : '&' ∉ innermost) : nest (nest outer inner) innermost = nest outer (nest inner innermost) := by
  rw [nest_of_not_mem h, nest_of_not_mem h]
  by_cases hmem : '&' ∈ inner
  · have hmem' : '&' ∈ inner ++ ' ' :: innermost := List.mem_append_left _ hmem
    have hspace : standIn outer ' ' = [' '] := rfl
    rw [nest_of_mem hmem, nest_of_mem hmem', List.flatMap_append, List.flatMap_cons, hspace, flatMap_standIn h]
    rfl
  · have hmem' : '&' ∉ inner ++ ' ' :: innermost := by simp [hmem, h]
    rw [nest_of_not_mem hmem, nest_of_not_mem hmem']
    simp

/-! ### Combining lists -/

/-- A combined selector has all combinations as its alternatives. -/
theorem alternatives_combine (outer inner : String) :
    alternatives (combine outer inner).toList = combinations outer.toList inner.toList := by
  rw [combine, String.toList_ofList]
  apply alternatives_intercalate
  intro text htext
  obtain ⟨o, ho, htext⟩ := List.mem_flatMap.1 htext
  obtain ⟨i, hi, rfl⟩ := List.mem_map.1 htext
  exact (isAlternative_of_mem ho).nest (isAlternative_of_mem hi)

/-- The same combinations come about from either end. -/
theorem combinations_combine (outer inner : String) {innermost : String} (h : '&' ∉ innermost.toList) :
    combinations (combine outer inner).toList innermost.toList =
      combinations outer.toList (combine inner innermost).toList := by
  have hnest : ∀ o i, ∀ text ∈ alternatives innermost.toList, nest (nest o i) text = nest o (nest i text) := by
    intro o i text htext
    exact nest_nest fun hmem => h (mem_of_mem_alternatives htext hmem)
  unfold combinations
  rw [alternatives_combine, alternatives_combine]
  unfold combinations
  simp only [List.flatMap_assoc, List.flatMap_map, List.map_flatMap, List.map_map]
  refine List.flatMap_congr fun o _ => List.flatMap_congr fun i _ => List.map_congr_left fun text htext => ?_
  exact hnest o i text htext

/-- A combined selector consists of every outer alternative with every inner one, the inner ones of one outer
alternative standing together. The outer one stands for each `&` of the inner one, and comes before it if there is none.
Three selectors can be combined from either end if the innermost one has no `&`. -/
theorem combine_product :
    (∀ outer inner : String, alternatives (combine outer inner).toList =
      (alternatives outer.toList).flatMap fun o => (alternatives inner.toList).map fun i =>
        if '&' ∈ i then i.flatMap fun c => if c = '&' then o else [c] else o ++ ' ' :: i) ∧
    ∀ outer inner innermost : String, '&' ∉ innermost.toList →
      combine (combine outer inner) innermost = combine outer (combine inner innermost) := by
  constructor
  · intro outer inner
    exact alternatives_combine outer inner
  · intro outer inner innermost h
    exact congrArg (fun texts => String.ofList (List.intercalate [',', ' '] texts)) (combinations_combine outer inner h)

/-- Empty alternatives and white space of several kinds are passed over, and an outer alternative may take the place of
a single character. -/
theorem combine_menu :
    combine (combine ".a,,\x09.b " "&:hover &, p\u00a0q") " li ,\n" =
        ".a:hover .a li, .a p\u00a0q li, .b:hover .b li, .b p\u00a0q li" ∧
      combine ".a,,\x09.b " (combine "&:hover &, p\u00a0q" " li ,\n") =
        ".a:hover .a li, .a p\u00a0q li, .b:hover .b li, .b p\u00a0q li" ∧
      alternatives (combine ".a,,\x09.b " "&:hover &, p\u00a0q").toList =
        [".a:hover .a".toList, ".a p\u00a0q".toList, ".b:hover .b".toList, ".b p\u00a0q".toList] := by
  have hleft : combine (combine ".a,,\x09.b " "&:hover &, p\u00a0q") " li ,\n" =
      ".a:hover .a li, .a p\u00a0q li, .b:hover .b li, .b p\u00a0q li" := by decide +kernel
  refine ⟨hleft, ?_, ?_⟩
  · rw [← combine_product.2 _ _ " li ,\n" (by decide), hleft]
  · rw [combine_product.1]
    decide +kernel

end Selector

end NestedStyles
