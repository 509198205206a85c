import Mathlib.Data.List.DropRight
import NestedStyles.Import
import NestedStyles.Proofs.Path.Normalization

/-!
# What references stand for

A reference stands for a path below the directory of the stylesheet that it is written in, in normal form. Going there
in two steps or in one makes no difference (`normalize_canonical`). The directory of a source is its path without the
file name, up to idle segments, so that a reference in it stands for the file of that name beside it (`resolve_beside`).
-/

namespace NestedStyles

namespace Path

variable {path file first start body : List Char} {rest above : List (List Char)}

/-! ### The directory of a file -/

theorem ofSegments_cons (hrest : rest ≠ []) : ofSegments (first :: rest) = first ++ '/' :: ofSegments rest := by
  obtain ⟨second, rest, rfl⟩ := List.exists_cons_of_ne_nil hrest
  simp [ofSegments, List.intercalate]

theorem exists_ofSegments_cons (first : List Char) (rest : List (List Char)) :
    ∃ more, ofSegments (first :: rest) = first ++ more := by
  by_cases hrest : rest = []
  · subst hrest
    exact ⟨[], by simp [ofSegments]⟩
  · exact ⟨_, ofSegments_cons hrest⟩

/-- What comes after a slash leaves the first segment of a path as it is. -/
theorem append_eq_of_segments (h : segments path = first :: rest) (more : List Char) :
    path ++ '/' :: more = first ++ '/' :: ofSegments (rest ++ segments more) := by
  rw [← ofSegments_cons (by simp [segments_ne_nil]), ← List.cons_append, ← h, ← segments_append, ofSegments_segments]

theorem isAbsolute_of_no_slash (h : '/' ∉ path) : isAbsolute path = false :=
  decide_eq_false fun hhead => h (List.mem_of_head? hhead)

theorem isAbsolute_append_slash (h : segments path = first :: rest) (more : List Char) :
    isAbsolute (path ++ '/' :: more) = decide (first = []) := by
  rw [append_eq_of_segments h]
  by_cases hempty : first = []
  · subst hempty
    rfl
  · have hslash : '/' ∉ first := no_slash_of_mem_segments (h ▸ List.mem_cons_self)
    rw [isAbsolute_append hempty, isAbsolute_of_no_slash hslash, decide_eq_false hempty]

/-- Of a relative path only a dot that is its first segment is an anchor. -/
theorem anchor_append (hfirst : '/' ∉ first) (hne : first ≠ []) (body : List Char) :
    anchor (first ++ '/' :: body) = if first = ['.'] then (['.'], '/' :: body) else ([], first ++ '/' :: body) := by
  rcases first with _ | ⟨c, _ | ⟨d, first⟩⟩
  · exact absurd rfl hne
  · by_cases hdot : c = '.'
    · subst hdot
      rfl
    · have hc : c ≠ '/' := by simpa [eq_comm] using hfirst
      simp [anchor, hdot, hc]
  · have hcd : c ≠ '/' ∧ d ≠ '/' := by simp_all [eq_comm]
    simp [anchor, hcd]

private theorem rdropWhile_cons (p : List Char → Bool) (segment : List Char) (segs : List (List Char)) :
    (segment :: segs).rdropWhile p =
      if segs.rdropWhile p = [] ∧ p segment = true then [] else segment :: segs.rdropWhile p := by
  simp only [List.rdropWhile, List.reverse_cons, List.dropWhile_append]
  by_cases hnil : segs.reverse.dropWhile p = []
  · by_cases hp : p segment = true
    · simp [hnil, hp]
    · simp [hnil, hp]
  · simp [hnil]

theorem parent?_of_anchor (hanchor : anchor path = (start, body)) (hbody : segments body = above ++ [file])
    (hfile : isIdle file = false) : parent? path = some (start ++ ofSegments (above.rdropWhile isIdle)) := by
  rw [parent?, hanchor]
  simp [hbody, hfile, List.rdropWhile]

/-- The path without its file name, and without the idle segments before it. The first segment is kept. -/
theorem parent?_append (hfile : IsName file) (h : segments path = first :: rest) :
    parent? (path ++ '/' :: file) =
      some (if first = [] then '/' :: ofSegments (rest.rdropWhile isIdle)
        else ofSegments (first :: rest.rdropWhile isIdle)) := by
  have hslash : ∀ s ∈ first :: rest, '/' ∉ s := fun s hs => no_slash_of_mem_segments (h ▸ hs)
  have hbody : segments (ofSegments (rest ++ [file])) = rest ++ [file] := by
    refine segments_ofSegments (fun s hs => ?_) (by simp)
    rcases List.mem_append.1 hs with hs | hs
    · exact hslash s (List.mem_cons_of_mem _ hs)
    · rw [List.mem_singleton.1 hs]
      exact hfile.no_slash
  rw [append_eq_of_segments h, segments_of_no_slash hfile.no_slash]
  by_cases hempty : first = []
  · subst hempty
    exact parent?_of_anchor rfl hbody hfile.isIdle_eq
  · have hfirst := hslash first List.mem_cons_self
    have hanchor := anchor_append hfirst hempty (ofSegments (rest ++ [file]))
    rw [if_neg hempty]
    by_cases hdot : first = ['.']
    · -- what follows the dot starts with an empty segment, which goes if all that is left is idle
      have hsegments : segments ('/' :: ofSegments (rest ++ [file])) = [] :: rest ++ [file] := by
        rw [← List.nil_append ('/' :: _), segments_append, hbody]
        rfl
      rw [if_pos hdot] at hanchor
      rw [parent?_of_anchor hanchor hsegments hfile.isIdle_eq, rdropWhile_cons, hdot]
      by_cases hnil : rest.rdropWhile isIdle = []
      · simp [hnil, isIdle, ofSegments]
      · simp [hnil, ofSegments_cons hnil]
    · have hidle : isIdle first = false := by simp [isIdle, hempty, hdot]
      have hsegments : segments (first ++ '/' :: ofSegments (rest ++ [file])) = first :: rest ++ [file] := by
        rw [segments_append, hbody, segments_of_no_slash hfirst]
        rfl
      rw [if_neg hdot] at hanchor
      rw [parent?_of_anchor hanchor hsegments hfile.isIdle_eq, rdropWhile_cons]
      simp [hidle]

/-- Without the idle segments at its end a path has the same steps. -/
theorem filter_rdropWhile (segs : List (List Char)) :
    ((segs.rdropWhile isIdle).filter fun s => !isIdle s) = segs.filter fun s => !isIdle s := by
  have hidle : ((segs.rtakeWhile isIdle).filter fun s => !isIdle s) = [] := by
    rw [List.filter_eq_nil_iff]
    intro s hs
    simp [List.mem_rtakeWhile_imp hs]
  rw [← List.append_nil (List.filter _ (List.rdropWhile _ _)), ← hidle, ← List.filter_append,
    List.rdropWhile_append_rtakeWhile]

/-- A file has a directory, which starts where the path of the file starts and has the same steps up to the file. -/
theorem exists_parent?_eq (path : List Char) (hfile : IsName file) :
    ∃ directory, parent? (path ++ '/' :: file) = some directory ∧ directory ≠ [] ∧ steps directory = steps path ∧
      ∀ more, isAbsolute (path ++ '/' :: more) = isAbsolute directory := by
  obtain ⟨first, rest, h⟩ := List.exists_cons_of_ne_nil (segments_ne_nil path)
  have hfirst : '/' ∉ first := no_slash_of_mem_segments (h ▸ List.mem_cons_self)
  have hrest : ∀ s ∈ rest.rdropWhile isIdle, '/' ∉ s := by
    intro s hs
    have hmem := List.mem_cons_of_mem first ((List.rdropWhile_prefix isIdle rest).subset hs)
    exact no_slash_of_mem_segments (h ▸ hmem)
  have hsteps : steps path = (first :: rest).filter fun s => !isIdle s := by rw [steps, h]
  simp only [isAbsolute_append_slash h]
  refine ⟨_, parent?_append hfile h, ?_⟩
  by_cases hempty : first = []
  · subst hempty
    rw [if_pos rfl, steps_slash_cons, steps_ofSegments hrest, filter_rdropWhile, hsteps]
    exact ⟨List.cons_ne_nil _ _, rfl, fun _ => rfl⟩
  · obtain ⟨more, hmore⟩ := exists_ofSegments_cons first (rest.rdropWhile isIdle)
    have habsolute : isAbsolute (ofSegments (first :: rest.rdropWhile isIdle)) = false := by
      rw [hmore, isAbsolute_append hempty, isAbsolute_of_no_slash hfirst]
    rw [if_neg hempty, habsolute, decide_eq_false hempty]
    refine ⟨by simp [hmore, hempty], ?_, fun _ => rfl⟩
    rw [steps_ofSegments (List.forall_mem_cons.2 ⟨hfirst, hrest⟩), hsteps, List.filter_cons, List.filter_cons,
      filter_rdropWhile]

/-- The directory of a bare file name is not written. -/
theorem parent?_of_no_slash (h : '/' ∉ path) : parent? path = none ∨ parent? path = some [] := by
  by_cases hidle : isIdle path = true
  · simp only [isIdle, Bool.or_eq_true, decide_eq_true_eq] at hidle
    rcases hidle with rfl | rfl
    · exact .inl rfl
    · exact .inr rfl
  · have hanchor : anchor path = ([], path) := by
      unfold anchor
      split <;> simp_all [isIdle]
    have hsegments : segments path = [] ++ [path] := segments_of_no_slash h
    exact .inr (parent?_of_anchor hanchor hsegments (by simpa using hidle))

end Path

namespace Import

open NestedStyles.Path

theorem resolve_eq {href : String} (h : isAbsolute href.toList = false) (hlocal : ¬ "://".toList <:+: href.toList)
    (directory : String) :
    resolve href (some directory) = String.ofList (normalize (join directory.toList href.toList)) := by
  have hoccurs : Text.occurs "://".toList href.toList = false := by
    rwa [← Bool.not_eq_true, Text.occurs_iff_infix]
  rw [resolve, h, hoccurs]
  rfl

theorem resolve_none (href : String) : resolve href none = href := by
  simp [resolve]

/-- A normal form is a path of names, with upward segments in front if it is relative, that starts and leads where the
path does. Paths that do so have the same normal form. What a reference below another one stands for can be found in two
steps or in one. -/
theorem normalize_canonical :
    (∀ path, IsNormal (normalize path) ∧ isAbsolute (normalize path) = isAbsolute path ∧
      normalize (normalize path) = normalize path ∧
      ∀ start, destination start (normalize path) = destination start path) ∧
    (∀ path other, normalize path = normalize other ↔
      isAbsolute path = isAbsolute other ∧ ∀ start, destination start path = destination start other) ∧
    ∀ href below base : String, href ≠ "" → isAbsolute href.toList = false → isAbsolute below.toList = false →
      ¬ "://".toList <:+: (href ++ "/" ++ below).toList →
      resolve below (some (resolve href (some base))) = resolve (href ++ "/" ++ below) (some base) := by
  refine ⟨?_, normalize_eq_iff, ?_⟩
  · intro path
    exact ⟨isNormal_normalize path, isAbsolute_normalize path, normalize_normalize path,
      fun start => destination_normalize start path⟩
  · intro href below base hne hhref hbelow hlocal
    have hne' : href.toList ≠ [] := by simpa using hne
    have hlist : (href ++ "/" ++ below).toList = href.toList ++ '/' :: below.toList := by simp
    have hboth : isAbsolute (href ++ "/" ++ below).toList = false := by rw [hlist, isAbsolute_append hne', hhref]
    have hhref' : ¬ "://".toList <:+: href.toList := by
      intro hmem
      exact hlocal (hlist ▸ hmem.trans (List.prefix_append _ _).isInfix)
    have hbelow' : ¬ "://".toList <:+: below.toList := by
      intro hmem
      exact hlocal (hlist ▸ hmem.trans ((List.suffix_cons _ _).trans (List.suffix_append _ _)).isInfix)
    rw [resolve_eq hbelow hbelow', resolve_eq hhref hhref', resolve_eq hboth hlocal, String.toList_ofList, hlist,
      normalize_join_join _ hhref hne' hbelow]

/-- References with idle and upward segments, from a directory that they leave. -/
theorem normalize_rambling :
    normalize "a/./..//../b/".toList = "../b".toList ∧ normalize "/a/./..//../b/".toList = "/b".toList ∧
      destination ["lib".toList] "../b".toList = ["b".toList] ∧
      destination ["lib".toList] "a/./..//../b/".toList = ["b".toList] ∧
      resolve "../../b" (some (resolve ".//..//a" (some "lib/"))) = "../b" ∧
      resolve ".//..//a/../../b" (some "lib/") = "../b" := by
  have hnormal : normalize "a/./..//../b/".toList = "../b".toList := by decide +kernel
  have hleads := (normalize_canonical.1 "a/./..//../b/".toList).2.2.2 ["lib".toList]
  have hdestination : destination ["lib".toList] "../b".toList = ["b".toList] := by decide +kernel
  have hsteps := normalize_canonical.2.2 ".//..//a" "../../b" "lib/"
    (by decide +kernel) (by decide +kernel) (by decide +kernel) (by decide +kernel)
  have honce : resolve ".//..//a/../../b" (some "lib/") = "../b" := by decide +kernel
  refine ⟨hnormal, by decide +kernel, hdestination, ?_, ?_, honce⟩
  · rw [← hleads, hnormal, hdestination]
  · rw [hsteps]
    exact honce

/-- In a source with a path, a reference stands for the path with the reference in the place of the file name, in normal
form. In a source with a bare name it stands for itself. -/
theorem resolve_beside :
    (∀ above file contents href : String, IsName file.toList → isAbsolute href.toList = false →
      ¬ "://".toList <:+: href.toList →
      resolve href (Source.directory? ⟨above ++ "/" ++ file, contents⟩) =
        String.ofList (normalize (above ++ "/" ++ href).toList)) ∧
    ∀ uri contents href : String, '/' ∉ uri.toList →
      Source.directory? ⟨uri, contents⟩ = none ∧ resolve href (Source.directory? ⟨uri, contents⟩) = href := by
  constructor
  · intro above file contents href hfile hhref hlocal
    obtain ⟨directory, hparent, hne, hsteps, habsolute⟩ := exists_parent?_eq above.toList hfile
    have hdirectory : Source.directory? ⟨above ++ "/" ++ file, contents⟩ = some (String.ofList directory) := by
      have hlist : (above ++ "/" ++ file).toList = above.toList ++ '/' :: file.toList := by simp
      rw [Source.directory?, Source.directoryOf?, hlist, hparent]
      obtain ⟨c, directory, rfl⟩ := List.exists_cons_of_ne_nil hne
      rfl
    have hlist : (above ++ "/" ++ href).toList = above.toList ++ '/' :: href.toList := by simp
    rw [hdirectory, resolve_eq hhref hlocal, String.toList_ofList, hlist]
    refine congrArg String.ofList (normalize_congr ?_ ?_)
    · rw [isAbsolute_join _ hhref, habsolute]
    · rw [steps_join _ hhref, steps_append, hsteps]
  · intro uri contents href huri
    have hdirectory : Source.directory? ⟨uri, contents⟩ = none := by
      rw [Source.directory?, Source.directoryOf?]
      rcases parent?_of_no_slash huri with hparent | hparent
      · rw [hparent]
      · rw [hparent]
    rw [hdirectory]
    exact ⟨rfl, resolve_none href⟩

/-- A source whose path goes up, stands still and repeats a slash. -/
theorem resolve_beside_wandering :
    Source.directory? ⟨"./a/..//./b.scss", ""⟩ = some "./a/.." ∧
      resolve "../c" (Source.directory? ⟨"./a/..//./b.scss", ""⟩) = "../c" ∧
      Source.directory? ⟨"/b.scss", ""⟩ = some "/" ∧ resolve "../c" (Source.directory? ⟨"/b.scss", ""⟩) = "/c" ∧
      Source.directory? ⟨"..", ""⟩ = none := by
  have hfile : IsName "b.scss".toList := by decide +kernel
  have hhref : isAbsolute "../c".toList = false := by decide +kernel
  have hlocal : ¬ "://".toList <:+: "../c".toList := by decide +kernel
  have hnested := resolve_beside.1 "./a/..//." "b.scss" "" "../c" hfile hhref hlocal
  have htop := resolve_beside.1 "" "b.scss" "" "../c" hfile hhref hlocal
  have hbare := resolve_beside.2 ".." "" "../c" (by decide +kernel)
  refine ⟨by decide +kernel, hnested.trans ?_, by decide +kernel, htop.trans ?_, hbare.1⟩
  · decide +kernel
  · decide +kernel

end Import

end NestedStyles
