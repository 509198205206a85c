import Mathlib.Data.List.Basic
import NestedStyles.Text.Blank
import NestedStyles.Text.Pieces

/-!
# Trimming and cutting texts

Trimming leaves a text with no white space at its ends, and such texts as they are. The pieces of a text are those of
the list operation `splitOn`: they do not hold the separator, and hold nothing that the text does not. A pattern occurs
in a text just when it stands there in one piece.
-/

namespace NestedStyles.Text

variable {cs ds : List Char}

/-- There is no white space at either end of the text. -/
structure Trimmed (cs : List Char) : Prop where
  head : ∀ c ∈ cs.head?, isBlank c = false
  last : ∀ c ∈ cs.getLast?, isBlank c = false

theorem dropWhile_isBlank_of_head (h : ∀ c ∈ cs.head?, isBlank c = false) : cs.dropWhile isBlank = cs := by
  cases cs with
  | nil => rfl
  | cons c cs =>
    have hc : isBlank c = false := h c rfl
    exact List.dropWhile_cons_of_neg (by simp [hc])

theorem isBlank_head_dropWhile : ∀ c ∈ (cs.dropWhile isBlank).head?, isBlank c = false := by
  intro c hc
  have hnot := List.head?_dropWhile_not isBlank cs
  rw [Option.mem_def.1 hc] at hnot
  exact hnot

theorem Trimmed.trim_eq (h : Trimmed cs) : trim cs = cs := by
  have hend : ∀ c ∈ cs.reverse.head?, isBlank c = false := by
    rw [List.head?_reverse]
    exact h.last
  unfold trim trimEnd trimStart
  rw [dropWhile_isBlank_of_head h.head, dropWhile_isBlank_of_head hend, List.reverse_reverse]

theorem trim_eq_self (h : ∀ c ∈ cs, isBlank c = false) : trim cs = cs := by
  have htrimmed : Trimmed cs := ⟨fun c hc => h c (List.mem_of_head? hc), fun c hc => h c (List.mem_of_getLast? hc)⟩
  exact htrimmed.trim_eq

theorem trimEnd_isPrefix (cs : List Char) : trimEnd cs <+: cs := by
  have hsuffix := List.dropWhile_suffix (l := cs.reverse) isBlank
  have hreverse := List.reverse_prefix.2 hsuffix
  rwa [List.reverse_reverse] at hreverse

theorem trimmed_trim (cs : List Char) : Trimmed (trim cs) := by
  constructor
  · intro c hc
    obtain ⟨rest, hrest⟩ : trim cs <+: trimStart cs := trimEnd_isPrefix (trimStart cs)
    have hstart : c ∈ (trimStart cs).head? := by
      rw [← hrest, List.head?_append, Option.mem_def.1 hc]
      rfl
    exact isBlank_head_dropWhile c hstart
  · intro c hc
    unfold trim trimEnd at hc
    rw [List.getLast?_reverse] at hc
    exact isBlank_head_dropWhile c hc

theorem mem_of_mem_trim {c : Char} (h : c ∈ trim cs) : c ∈ cs := by
  unfold trim trimEnd at h
  rw [List.mem_reverse] at h
  have hstart := List.mem_reverse.1 ((List.dropWhile_sublist _).subset h)
  exact (List.dropWhile_sublist _).subset hstart

theorem trim_blank_cons {c : Char} (h : isBlank c = true) (cs : List Char) : trim (c :: cs) = trim cs := by
  have hstart : trimStart (c :: cs) = trimStart cs := List.dropWhile_cons_of_pos h
  unfold trim
  rw [hstart]

/-- A text keeps its ends when something is put between them. -/
theorem Trimmed.between (hcs : Trimmed cs) (hds : Trimmed ds) (hcs' : cs ≠ []) (hds' : ds ≠ []) (mid : List Char) :
    Trimmed (cs ++ mid ++ ds) := by
  constructor
  · intro c hc
    rw [List.append_assoc, List.head?_append_of_ne_nil _ hcs'] at hc
    exact hcs.head c hc
  · intro c hc
    rw [List.getLast?_append_of_ne_nil _ hds'] at hc
    exact hds.last c hc

theorem trimStart_append (h : ∀ c ∈ ds.head?, isBlank c = false) : trimStart (cs ++ ds) = trimStart cs ++ ds := by
  rw [trimStart, List.dropWhile_append]
  split
  · next hblank =>
    rw [trimStart, List.isEmpty_iff.1 hblank, dropWhile_isBlank_of_head h, List.nil_append]
  · rfl

/-- What is blank at the end goes, and then the white space before it. -/
theorem trimEnd_append (cs ds : List Char) :
    trimEnd (cs ++ ds) = if trimEnd ds = [] then trimEnd cs else cs ++ trimEnd ds := by
  unfold trimEnd
  rw [List.reverse_append, List.dropWhile_append]
  by_cases hblank : ds.reverse.dropWhile isBlank = []
  · simp [hblank]
  · simp [hblank]

theorem trimEnd_append_of_last (h : ∀ c ∈ cs.getLast?, isBlank c = false) (ds : List Char) :
    trimEnd (cs ++ ds) = cs ++ trimEnd ds := by
  have hkept : trimEnd cs = cs := by
    rw [trimEnd, dropWhile_isBlank_of_head (by rwa [List.head?_reverse]), List.reverse_reverse]
  rw [trimEnd_append, hkept]
  split
  · next hblank => rw [hblank, List.append_nil]
  · rfl

/-! ### Pieces -/

/-- A character that does not separate goes to the first piece. -/
theorem pieces_cons_of_ne {sep c : Char} (h : c ≠ sep) (cs : List Char) :
    ∃ first rest, pieces sep cs = first :: rest ∧ pieces sep (c :: cs) = (c :: first) :: rest := by
  rw [pieces, if_neg h]
  cases hp : pieces sep cs with
  | nil => exact absurd hp (pieces_ne_nil sep cs)
  | cons first rest => exact ⟨first, rest, rfl, rfl⟩

theorem pieces_eq_splitOn (sep : Char) (cs : List Char) : pieces sep cs = cs.splitOn sep := by
  induction cs with
  | nil => rfl
  | cons c cs ih =>
    rw [List.splitOn_cons_eq_if_modifyHead, ← ih]
    by_cases h : c = sep
    · simp [pieces, h]
    · obtain ⟨first, rest, hp, hcons⟩ := pieces_cons_of_ne h cs
      simp [hp, hcons, h]

theorem mem_of_mem_pieces {sep c : Char} {piece : List Char} (hpiece : piece ∈ pieces sep cs) (hc : c ∈ piece) :
    c ∈ cs ∧ c ≠ sep := by
  induction cs generalizing piece with
  | nil => simp_all [pieces]
  | cons d cs ih =>
    by_cases hd : d = sep
    · rw [pieces, if_pos hd, List.mem_cons] at hpiece
      rcases hpiece with rfl | hpiece
      · simp at hc
      · have hmem := ih hpiece hc
        exact ⟨List.mem_cons_of_mem d hmem.1, hmem.2⟩
    · obtain ⟨first, rest, hp, hcons⟩ := pieces_cons_of_ne hd cs
      rw [hcons, List.mem_cons] at hpiece
      rw [hp] at ih
      -- the piece is one of the rest of the text, but for a character in front of the first one
      have hor : c = d ∨ ∃ piece ∈ first :: rest, c ∈ piece := by
        rcases hpiece with rfl | hpiece
        · exact (List.mem_cons.1 hc).imp_right fun hc => ⟨first, List.mem_cons_self, hc⟩
        · exact .inr ⟨piece, List.mem_cons_of_mem first hpiece, hc⟩
      rcases hor with rfl | ⟨piece', hpiece', hc'⟩
      · exact ⟨List.mem_cons_self, hd⟩
      · have hmem := ih hpiece' hc'
        exact ⟨List.mem_cons_of_mem d hmem.1, hmem.2⟩

theorem not_mem_of_mem_pieces {sep : Char} {piece : List Char} (h : piece ∈ pieces sep cs) : sep ∉ piece := by
  intro hmem
  exact (mem_of_mem_pieces h hmem).2 rfl

theorem cut?_eq_none {c : Char} {cs : List Char} (h : c ∉ cs) : cut? [c] cs = none := by
  induction cs with
  | nil => rfl
  | cons d cs ih =>
    rw [List.mem_cons, not_or] at h
    have hne : (c == d) = false := by simpa using h.1
    rw [cut?]
    simp [List.isPrefixOf?, hne, ih h.2]

theorem occurs_iff_infix (pattern cs : List Char) : occurs pattern cs = true ↔ pattern <:+: cs := by
  rw [occurs]
  induction cs with
  | nil => simp [cut?]
  | cons c cs ih =>
    rw [List.infix_cons_iff, ← ih, cut?]
    cases hprefix : pattern.isPrefixOf? (c :: cs) with
    | none =>
      have hnot : ¬ pattern <+: c :: cs := by
        rw [← List.isPrefixOf_iff_prefix, ← List.isSome_isPrefixOf?_eq_isPrefixOf, hprefix]
        simp
      simp [hnot]
    | some rest =>
      have hstarts : pattern <+: c :: cs := ⟨rest, List.isPrefixOf?_eq_some_iff_append_eq.1 hprefix⟩
      simp [hstarts]

/-- A pair of characters stands in one of two texts, or where they meet. -/
theorem pair_infix_append_iff {x y : Char} : [x, y] <:+: cs ++ ds ↔
    [x, y] <:+: cs ∨ [x, y] <:+: ds ∨ (cs.getLast? = some x ∧ ds.head? = some y) := by
  induction cs with
  | nil => simp
  | cons c cs ih =>
    rw [List.cons_append, List.infix_cons_iff, ih, List.infix_cons_iff]
    cases cs with
    | nil =>
      cases ds with
      | nil => simp
      | cons d ds =>
        have hmeet : [x, y] <+: c :: d :: ds ↔ c = x ∧ d = y := by simp [List.cons_prefix_cons, eq_comm]
        simpa [hmeet] using or_comm
    | cons d cs => simp [List.cons_prefix_cons, or_assoc]

/-- A text is cut where a pattern is written in it, unless one starts before. -/
theorem cut?_append {pattern : List Char} (hne : pattern ≠ []) (h : ¬ pattern <:+: cs ++ pattern.dropLast)
    (ds : List Char) : cut? pattern (cs ++ (pattern ++ ds)) = some (cs, ds) := by
  induction cs with
  | nil =>
    obtain ⟨p, rest, rfl⟩ := List.exists_cons_of_ne_nil hne
    have hprefix : (p :: rest).isPrefixOf? (p :: rest ++ ds) = some ds := List.isPrefixOf?_eq_some_iff_append_eq.2 rfl
    rw [List.cons_append] at hprefix
    rw [List.nil_append, List.cons_append, cut?, hprefix]
  | cons c cs ih =>
    have hrest : ¬ pattern <:+: cs ++ pattern.dropLast := by
      intro hoccurs
      exact h (hoccurs.trans (List.suffix_cons c _).isInfix)
    have hprefix : pattern.isPrefixOf? (c :: (cs ++ (pattern ++ ds))) = none := by
      cases hfound : pattern.isPrefixOf? (c :: (cs ++ (pattern ++ ds))) with
      | none => rfl
      | some rest =>
        have hlong : pattern <+: c :: (cs ++ (pattern ++ ds)) :=
          ⟨rest, List.isPrefixOf?_eq_some_iff_append_eq.1 hfound⟩
        have hshort : c :: (cs ++ pattern.dropLast) <+: c :: (cs ++ (pattern ++ ds)) := by
          rw [List.cons_prefix_cons, List.prefix_append_right_inj]
          exact ⟨rfl, (List.dropLast_prefix pattern).trans (List.prefix_append pattern ds)⟩
        have hlength : pattern.length ≤ (c :: (cs ++ pattern.dropLast)).length := by
          simp
          omega
        exact absurd (List.prefix_of_prefix_length_le hlong hshort hlength).isInfix h
    rw [List.cons_append, cut?, hprefix, ih hrest]
    rfl

end NestedStyles.Text
