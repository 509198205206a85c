import Mathlib.Data.List.Basic
import NestedStyles.Path
import NestedStyles.Proofs.Text.Cutting

/-!
# The segments of a path

Segments never hold a slash, a slash puts the segments of two texts one after the other, and segments without slashes
are the segments of the path they make up. A path has a file name, which is its last segment, and a lead, which is empty
or ends with a slash; another file name after the same lead changes the last segment only. A relative path below another
one comes after it and one slash (`exists_join_eq`).
-/

namespace NestedStyles

namespace Path

open Text

/-- What an entry of a directory may be called. Only such segments lead down. -/
structure IsName (segment : List Char) : Prop where
  ne_nil : segment ≠ []
  ne_dot : segment ≠ ['.']
  ne_upward : segment ≠ upward
  no_slash : '/' ∉ segment

instance (segment : List Char) : Decidable (IsName segment) :=
  decidable_of_iff (segment ≠ [] ∧ segment ≠ ['.'] ∧ segment ≠ upward ∧ '/' ∉ segment)
    ⟨fun ⟨h₁, h₂, h₃, h₄⟩ => ⟨h₁, h₂, h₃, h₄⟩, fun ⟨h₁, h₂, h₃, h₄⟩ => ⟨h₁, h₂, h₃, h₄⟩⟩

theorem IsName.isIdle_eq {segment : List Char} (h : IsName segment) : isIdle segment = false := by
  simp [isIdle, h.ne_nil, h.ne_dot]

theorem IsName.of_no_slash {segment : List Char} (hidle : isIdle segment = false) (hup : segment ≠ upward)
    (hslash : '/' ∉ segment) : IsName segment := by
  simp only [isIdle, Bool.or_eq_false_iff, decide_eq_false_iff_not] at hidle
  exact ⟨hidle.1, hidle.2, hup, hslash⟩

theorem no_slash_of_mem_segments {path segment : List Char} (h : segment ∈ segments path) : '/' ∉ segment :=
  not_mem_of_mem_pieces h

theorem segments_ne_nil (path : List Char) : segments path ≠ [] := pieces_ne_nil '/' path

theorem segments_append (path more : List Char) : segments (path ++ '/' :: more) = segments path ++ segments more := by
  simp only [segments, pieces_eq_splitOn, List.splitOn_append_cons_self]

theorem segments_of_no_slash {path : List Char} (h : '/' ∉ path) : segments path = [path] := by
  rw [segments, pieces_eq_splitOn, List.splitOn_eq_singleton h]

theorem segments_ofSegments {segs : List (List Char)} (h : ∀ s ∈ segs, '/' ∉ s) (hne : segs ≠ []) :
    segments (ofSegments segs) = segs := by
  rw [segments, pieces_eq_splitOn, ofSegments, List.splitOn_intercalate '/' h hne]

theorem ofSegments_segments (path : List Char) : ofSegments (segments path) = path := intercalate_pieces '/' path

/-- An absolute path starts with an empty segment. -/
theorem isAbsolute_eq_false {path : List Char} (h : [] ∉ segments path) : isAbsolute path = false := by
  cases path with
  | nil => rfl
  | cons c path =>
    refine decide_eq_false fun hc => h ?_
    obtain rfl : c = '/' := Option.some.inj hc
    simp [segments, pieces]

theorem isAbsolute_append {path : List Char} (h : path ≠ []) (more : List Char) :
    isAbsolute (path ++ more) = isAbsolute path := by
  rw [isAbsolute, isAbsolute, List.head?_append_of_ne_nil _ h]

/-! ### Length -/

theorem bytes_append (path more : List Char) : bytes (path ++ more) = bytes path + bytes more := by
  rw [bytes, bytes, bytes, String.ofList_append, String.utf8ByteSize_append]

theorem bytes_mono {path longer : List Char} (h : path <+: longer) : bytes path ≤ bytes longer := by
  obtain ⟨more, rfl⟩ := h
  rw [bytes_append]
  exact Nat.le_add_right _ _

/-- A path of characters with a single byte has as many bytes as characters. -/
theorem bytes_eq_length {path : List Char} (h : path.all (·.utf8Size == 1) = true) : bytes path = path.length := by
  induction path with
  | nil => rfl
  | cons c path ih =>
    rw [List.all_cons, Bool.and_eq_true, beq_iff_eq] at h
    have hbytes : bytes (c :: path) = bytes [c] + bytes path := bytes_append [c] path
    have hfirst : bytes [c] = 1 := by simpa [bytes] using h.1
    rw [hbytes, hfirst, ih h.2, List.length_cons, Nat.add_comm]

theorem ofSegments_append {segs more : List (List Char)} (hsegs : segs ≠ []) (hmore : more ≠ []) :
    ofSegments (segs ++ more) = ofSegments segs ++ '/' :: ofSegments more := by
  obtain ⟨first, rest, rfl⟩ := List.exists_cons_of_ne_nil hmore
  induction segs with
  | nil => exact absurd rfl hsegs
  | cons segment segs ih =>
    cases segs with
    | nil => simp [ofSegments]
    | cons second segs =>
      have := ih (List.cons_ne_nil _ _)
      simp only [ofSegments, List.cons_append, List.intercalate_cons_cons] at this ⊢
      simp [this]

/-! ### One path below another -/

/-- Below a base that is there, a path stands after a slash. The base may end with that slash already. -/
theorem exists_join_eq {base path : List Char} (hbase : base ≠ []) (hpath : isAbsolute path = false) :
    ∃ above, join base path = above ++ '/' :: path ∧ (base = above ∨ base = above ++ ['/']) := by
  obtain ⟨above, last, rfl⟩ := (List.eq_nil_or_concat' base).resolve_left hbase
  by_cases hlast : last = '/'
  · subst hlast
    exact ⟨above, by simp [join, hpath], .inr rfl⟩
  · exact ⟨above ++ [last], by simp [join, hpath], .inl rfl⟩

theorem isAbsolute_join (base : List Char) {path : List Char} (hpath : isAbsolute path = false) :
    isAbsolute (join base path) = isAbsolute base := by
  by_cases hbase : base = []
  · subst hbase
    have hjoin : join [] path = path := by simp [join, hpath]
    rw [hjoin, hpath]
    rfl
  · obtain ⟨above, hjoin, rfl | rfl⟩ := exists_join_eq hbase hpath
    · rw [hjoin, isAbsolute_append hbase]
    · rw [hjoin, List.append_cons, isAbsolute_append hbase]

/-! ### File names -/

/-- What may stand before a file name: nothing, or a path and a slash. -/
def IsLead (lead : List Char) : Prop := lead = [] ∨ ∃ above, lead = above ++ ['/']

theorem exists_lead (path : List Char) : ∃ lead file, path = lead ++ file ∧ IsLead lead ∧ '/' ∉ file := by
  induction path with
  | nil => exact ⟨[], [], rfl, .inl rfl, List.not_mem_nil⟩
  | cons c path ih =>
    obtain ⟨lead, file, rfl, hlead, hfile⟩ := ih
    obtain rfl | ⟨above, rfl⟩ := hlead
    · by_cases hc : c = '/'
      · exact ⟨[c], file, rfl, .inr ⟨[], by rw [hc]; rfl⟩, hfile⟩
      · exact ⟨[], c :: file, rfl, .inl rfl, List.not_mem_cons_of_ne_of_not_mem (Ne.symm hc) hfile⟩
    · exact ⟨c :: (above ++ ['/']), file, rfl, .inr ⟨c :: above, rfl⟩, hfile⟩

/-- The file name after a lead is the last segment; the others come from the lead alone. -/
theorem IsLead.segments_append {lead : List Char} (h : IsLead lead) :
    ∃ above, ∀ file, '/' ∉ file → segments (lead ++ file) = above ++ [file] := by
  obtain rfl | ⟨above, rfl⟩ := h
  · exact ⟨[], fun file hfile => segments_of_no_slash hfile⟩
  · refine ⟨segments above, fun file hfile => ?_⟩
    rw [List.append_assoc, List.singleton_append, Path.segments_append, segments_of_no_slash hfile]

/-- An ending without a slash is one of the file name. -/
theorem IsLead.suffix_of_append {lead : List Char} (h : IsLead lead) {file ending : List Char} (hslash : '/' ∉ ending)
    (hsuffix : ending <:+ lead ++ file) : ending <:+ file := by
  obtain rfl | ⟨above, rfl⟩ := h
  · exact hsuffix
  · have hfile : '/' :: file <:+ above ++ ['/'] ++ file := by
      rw [List.append_assoc]
      exact List.suffix_append above _
    have hnot : ¬ '/' :: file <:+ ending := fun hmem => hslash (hmem.subset List.mem_cons_self)
    rcases List.suffix_cons_iff.1 ((List.suffix_or_suffix_of_suffix hsuffix hfile).resolve_right hnot) with rfl | hshort
    · exact absurd List.mem_cons_self hslash
    · exact hshort

/-- Going back from the end of a path to a slash gives its file name. -/
theorem IsLead.takeWhile_reverse {lead : List Char} (h : IsLead lead) {file : List Char} (hfile : '/' ∉ file) :
    (lead ++ file).reverse.takeWhile (· ≠ '/') = file.reverse := by
  have hall : ∀ c ∈ file.reverse, decide (c ≠ '/') = true := by
    intro c hc
    exact decide_eq_true fun heq => hfile (heq ▸ List.mem_reverse.1 hc)
  rw [List.reverse_append, List.takeWhile_append_of_pos hall]
  obtain rfl | ⟨above, rfl⟩ := h <;> simp

end Path

end NestedStyles
