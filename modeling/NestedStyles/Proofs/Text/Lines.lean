import NestedStyles.Proofs.Text.Cutting

/-!
# Lines and paragraphs

A text is split into paragraphs at every blank line. Texts without empty lines (`Compact`) are the ones that stay whole:
joined by blank lines they are the paragraphs of what results (`paragraphs_intercalate`). None of their lines gets lost
or empty when they are taken line by line (`Compact.lines`), so that more of them can be built from their lines.
-/

namespace NestedStyles.Text

/-- The parts of a text between the blank lines, found from left to right. There is one part more than there are blank
lines. -/
def paragraphs : List Char → List (List Char)
  | [] => [[]]
  | '\n' :: '\n' :: cs => [] :: paragraphs cs
  | c :: cs =>
    match paragraphs cs with
    | [] => [[c]]
    | first :: rest => (c :: first) :: rest

/-- A text of lines that are not empty. A return at the end of a line goes with the line's end, so that there may be
nothing else in the last line only. -/
inductive Compact : List Char → Prop
  | last {line : List Char} (hne : line ≠ []) (hline : '\n' ∉ line) : Compact line
  | line {line rest : List Char} (hne : line ≠ []) (hline : '\n' ∉ line) (hreturn : line ≠ ['\r'])
      (hrest : Compact rest) : Compact (line ++ '\n' :: rest)

variable {cs ds line rest : List Char}

/-! ### Lines -/

theorem lines_of_not_mem (hne : line ≠ []) (h : '\n' ∉ line) : lines line = [line] := by
  rw [lines, pieces_eq_splitOn, List.splitOn_eq_singleton h]
  simp [hne]

theorem lines_append (h : '\n' ∉ line) (rest : List Char) :
    lines (line ++ '\n' :: rest) = dropReturn line :: lines rest := by
  have hpieces : pieces '\n' (line ++ '\n' :: rest) = line :: pieces '\n' rest := by
    rw [pieces_eq_splitOn, List.splitOn_append_cons_self, List.splitOn_eq_singleton h, ← pieces_eq_splitOn]
    rfl
  rw [lines, hpieces, lines]
  cases hrest : pieces '\n' rest with
  | nil => exact absurd hrest (pieces_ne_nil '\n' rest)
  | cons first others => simp

theorem mem_of_mem_dropReturn {c : Char} (h : c ∈ dropReturn line) : c ∈ line := by
  unfold dropReturn at h
  split at h
  · exact List.dropLast_subset line h
  · exact h

theorem dropReturn_ne_nil (hne : line ≠ []) (hreturn : line ≠ ['\r']) : dropReturn line ≠ [] := by
  unfold dropReturn
  split
  · next hlast =>
    intro hnil
    have hline := List.dropLast_append_getLast? _ hlast
    rw [hnil] at hline
    exact hreturn hline.symm
  · exact hne

namespace Compact

theorem ne_nil (h : Compact cs) : cs ≠ [] := by
  cases h with
  | last hne _ => exact hne
  | line _ _ _ _ => simp

theorem lines (h : Compact cs) : ∀ line ∈ lines cs, line ≠ [] ∧ '\n' ∉ line := by
  induction h with
  | last hne hline =>
    rw [lines_of_not_mem hne hline]
    simpa using ⟨hne, hline⟩
  | line hne hline hreturn _ ih =>
    rw [lines_append hline, List.forall_mem_cons]
    exact ⟨⟨dropReturn_ne_nil hne hreturn, fun hmem => hline (mem_of_mem_dropReturn hmem)⟩, ih⟩

/-- A first line can be made longer at its start. -/
theorem cons {c : Char} (hc : c ≠ '\n') (h : Compact cs) : Compact (c :: cs) := by
  cases h with
  | last hne hline => exact .last (by simp) (by simp [hline, hc.symm])
  | @line first rest hne hline _ hrest =>
    have hlong : c :: first ≠ ['\r'] := by simp [hne]
    rw [← List.cons_append]
    exact .line (by simp) (by simp [hline, hc.symm]) hlong hrest

/-- More lines in front of a text. -/
theorem append_lines {lines : List (List Char)} (hne : line ≠ []) (hline : '\n' ∉ line) (hreturn : line ≠ ['\r'])
    (hlines : ∀ l ∈ lines, l ≠ [] ∧ '\n' ∉ l ∧ l ≠ ['\r']) (h : Compact rest) :
    Compact (line ++ lines.flatMap (fun l => '\n' :: l) ++ '\n' :: rest) := by
  induction lines generalizing line with
  | nil => simpa using Compact.line hne hline hreturn h
  | cons l lines ih =>
    obtain ⟨⟨hne', hline', hreturn'⟩, hothers⟩ := List.forall_mem_cons.1 hlines
    have hrest := ih hne' hline' hreturn' hothers
    simpa using Compact.line hne hline hreturn hrest

theorem head?_ne (h : Compact cs) : cs.head? ≠ some '\n' := by
  cases h with
  | last hne hline => exact fun hhead => hline (List.mem_of_head? hhead)
  | line hne hline _ _ =>
    rw [List.head?_append_of_ne_nil _ hne]
    exact fun hhead => hline (List.mem_of_head? hhead)

theorem getLast?_ne (h : Compact cs) : cs.getLast? ≠ some '\n' := by
  induction h with
  | last hne hline => exact fun hlast => hline (List.mem_of_getLast? hlast)
  | line hne hline hreturn hrest ih =>
    rw [List.getLast?_append_of_ne_nil _ (by simp), List.getLast?_cons_of_ne_nil hrest.ne_nil]
    exact ih

theorem not_blank_infix (h : Compact cs) : ¬ ['\n', '\n'] <:+: cs := by
  induction h with
  | last hne hline => exact fun hblank => hline (hblank.subset (by simp))
  | @line line rest hne hline hreturn hrest ih =>
    have hhead := hrest.head?_ne
    rw [pair_infix_append_iff, List.infix_cons_iff]
    rintro (hblank | (hfirst | hblank) | ⟨hlast, -⟩)
    · exact hline (hblank.subset (by simp))
    · obtain ⟨after, hafter⟩ := hfirst
      obtain rfl : '\n' :: after = rest := by simpa using hafter
      exact hhead rfl
    · exact ih hblank
    · exact hline (List.mem_of_getLast? hlast)

end Compact

/-! ### Paragraphs -/

theorem paragraphs_ne_nil (cs : List Char) : paragraphs cs ≠ [] := by
  fun_cases paragraphs cs <;> simp_all

/-- A character that is not the start of a blank line goes to the first part. -/
theorem paragraphs_cons {c : Char} (h : ¬ ['\n', '\n'] <+: c :: cs) :
    ∃ first rest, paragraphs cs = first :: rest ∧ paragraphs (c :: cs) = (c :: first) :: rest := by
  obtain ⟨first, rest, hcs⟩ := List.exists_cons_of_ne_nil (paragraphs_ne_nil cs)
  refine ⟨first, rest, hcs, ?_⟩
  rw [paragraphs]
  · rw [hcs]
  · rintro ds rfl rfl
    exact h (by simp)

theorem paragraphs_append (h : ¬ ['\n', '\n'] <:+: cs) (hlast : cs.getLast? ≠ some '\n') (ds : List Char) :
    paragraphs (cs ++ '\n' :: '\n' :: ds) = cs :: paragraphs ds := by
  induction cs with
  | nil => rfl
  | cons c cs ih =>
    have hrest : ¬ ['\n', '\n'] <:+: cs := fun hblank => h (hblank.trans (List.suffix_cons c cs).isInfix)
    have hlast' : cs.getLast? ≠ some '\n' := by
      cases cs with
      | nil => simp
      | cons d cs => simpa using hlast
    have hstart : ¬ ['\n', '\n'] <+: c :: (cs ++ '\n' :: '\n' :: ds) := by
      cases cs with
      | nil =>
        intro hblank
        exact hlast (by simpa [List.cons_prefix_cons, eq_comm] using hblank)
      | cons d cs =>
        intro hblank
        have hpair : '\n' = c ∧ '\n' = d := by simpa [List.cons_prefix_cons] using hblank
        obtain ⟨rfl, rfl⟩ := hpair
        exact h ⟨[], cs, rfl⟩
    obtain ⟨first, rest, hfirst, hcons⟩ := paragraphs_cons hstart
    rw [ih hrest hlast'] at hfirst
    obtain ⟨rfl, rfl⟩ := List.cons.inj hfirst
    exact hcons

theorem paragraphs_eq_singleton (h : ¬ ['\n', '\n'] <:+: cs) : paragraphs cs = [cs] := by
  induction cs with
  | nil => rfl
  | cons c cs ih =>
    rw [List.infix_cons_iff, not_or] at h
    obtain ⟨first, rest, hfirst, hcons⟩ := paragraphs_cons h.1
    rw [ih h.2] at hfirst
    obtain ⟨rfl, rfl⟩ := List.cons.inj hfirst
    exact hcons

theorem paragraphs_intercalate {texts : List (List Char)} (hne : texts ≠ []) (h : ∀ text ∈ texts, Compact text) :
    paragraphs (List.intercalate ['\n', '\n'] texts) = texts := by
  induction texts with
  | nil => exact absurd rfl hne
  | cons text texts ih =>
    obtain ⟨htext, htexts⟩ := List.forall_mem_cons.1 h
    cases texts with
    | nil => rw [List.intercalate_singleton, paragraphs_eq_singleton htext.not_blank_infix]
    | cons next texts =>
      have hrest := ih (by simp) htexts
      rw [List.intercalate_cons_cons, List.append_assoc, List.cons_append, List.cons_append, List.nil_append,
        paragraphs_append htext.not_blank_infix htext.getLast?_ne, hrest]

end NestedStyles.Text
