import NestedStyles.Compiler
import NestedStyles.Proofs.Document.Traversal
import NestedStyles.Proofs.Fragment.Interchange

/-!
# Writing a document and reading it back

The text of a document is read back as a document with the same fragment at its root, hence with the same directory,
the same style text and the same written form, and with its nodes numbered in pre-order. The text is refused, as a
malformed one, exactly when its arrays and objects nest deeper than the reader allows.
-/

namespace NestedStyles.Document

/-- Reading the text of a fragment is making a document from the fragment, unless the text nests too deep. -/
theorem read_print (f : Fragment) :
    read f.toJson.print = if f.toJson.depth ≤ Json.maxDepth then ofFragment f else .error .malformed := by
  rw [read, Json.read?_print f.textual_toJson]
  by_cases hdepth : f.toJson.depth ≤ Json.maxDepth
  · simp only [if_pos hdepth, Option.bind_some, f.ofJson?_toJson]
  · simp only [if_neg hdepth, Option.bind_none]

theorem exists_ofFragment {doc : Document} (hwf : doc.WellFormed) {directory : Option String}
    (hroot : doc.kind root = .stylesheet directory) : ∃ doc', ofFragment (doc.fragment root) = .ok doc' := by
  rw [hwf.fragment_eq, hroot, ofFragment]
  exact ⟨_, rfl⟩

/-- The directory of a document can be told from the fragment at its root. -/
theorem directory?_eq_of_fragment_eq {doc doc' : Document} (hwf : doc.WellFormed) (hwf' : doc'.WellFormed)
    (h : doc'.fragment root = doc.fragment root) : doc'.directory? = doc.directory? := by
  have hkind : doc'.kind root = doc.kind root := by rw [← hwf.kind_fragment, ← hwf'.kind_fragment, h]
  rw [directory?, directory?, hkind]

/-- The text of a document with a stylesheet at its root can be read just when it nests at most 127 containers deep.
What is read has the same content, and its nodes are numbered in pre-order. -/
theorem read_write {doc : Document} (hwf : doc.WellFormed) {directory : Option String}
    (hroot : doc.kind root = .stylesheet directory) :
    ((∃ doc', read doc.write = .ok doc') ↔ (doc.fragment root).toJson.depth ≤ 127) ∧
      (∀ doc', read doc.write = .ok doc' →
        doc'.WellFormed ∧ doc'.fragment root = doc.fragment root ∧ doc'.directory? = doc.directory? ∧
          doc'.css = doc.css ∧ doc'.write = doc.write ∧ doc'.descendants root = List.range doc'.size) ∧
      (∀ error, read doc.write = .error error → error = .malformed) := by
  obtain ⟨doc', hdoc'⟩ := exists_ofFragment hwf hroot
  have hread : read doc.write =
      if (doc.fragment root).toJson.depth ≤ 127 then .ok doc' else .error .malformed := by
    rw [write, read_print, hdoc']
    rfl
  by_cases hdepth : (doc.fragment root).toJson.depth ≤ 127
  · rw [if_pos hdepth] at hread
    refine ⟨⟨fun _ => hdepth, fun _ => ⟨doc', hread⟩⟩, ?_, by simp [hread]⟩
    intro doc'' hread'
    obtain rfl : doc' = doc'' := by simpa [hread] using hread'
    obtain ⟨hwf', hfragment⟩ := ofFragment_spec hdoc'
    have hids := descendants_ofFragment hdoc'
    refine ⟨hwf', hfragment, directory?_eq_of_fragment_eq hwf hwf' hfragment, ?_, ?_, ?_⟩
    · rw [css, css, hfragment]
    · rw [write, write, hfragment]
    · rw [size, hids, List.length_range]
  · rw [if_neg hdepth] at hread
    exact ⟨by simp [hread, hdepth], by simp [hread], by simp [hread]⟩

/-- A comment below some nested rules. Its text needs every way of escaping. -/
def nestedRules : Nat → Fragment
  | 0 => ⟨.comment "a \"quoted\" back\\slash,\ttab,\nline and \x01 control: é, 😀", []⟩
  | levels + 1 => ⟨.rule "a", [nestedRules levels]⟩

/-- A stylesheet of nested rules. -/
def tower (levels : Nat) : Fragment := ⟨.stylesheet (some "lib"), [nestedRules levels]⟩

private theorem exists_tower (levels : Nat) : ∃ doc : Document, doc.WellFormed ∧ doc.fragment root = tower levels ∧
    doc.kind root = .stylesheet (some "lib") := by
  obtain ⟨doc, hdoc⟩ : ∃ doc, ofFragment (tower levels) = .ok doc := ⟨_, rfl⟩
  obtain ⟨hwf, hfragment⟩ := ofFragment_spec hdoc
  exact ⟨doc, hwf, hfragment, by rw [← hwf.kind_fragment, hfragment, tower]⟩

/-- The deepest tower of rules that is read back, and the next one. -/
theorem read_write_tower :
    (∃ doc doc' : Document, doc.fragment root = tower 62 ∧ read doc.write = .ok doc' ∧
      doc'.fragment root = tower 62 ∧ doc'.directory? = some "lib" ∧ doc'.descendants root = List.range doc'.size) ∧
    ∃ doc : Document, doc.fragment root = tower 63 ∧ read doc.write = .error .malformed := by
  constructor
  · obtain ⟨doc, hwf, hfragment, hroot⟩ := exists_tower 62
    obtain ⟨hiff, hok, _⟩ := read_write hwf hroot
    have hdepth : (doc.fragment root).toJson.depth ≤ 127 := by rw [hfragment]; decide +kernel
    obtain ⟨doc', hread⟩ := hiff.2 hdepth
    obtain ⟨_, hfragment', hdirectory, _, _, hids⟩ := hok doc' hread
    refine ⟨doc, doc', hfragment, hread, hfragment'.trans hfragment, ?_, hids⟩
    rw [hdirectory, directory?, hroot]
  · obtain ⟨doc, hwf, hfragment, hroot⟩ := exists_tower 63
    obtain ⟨hiff, _, herror⟩ := read_write hwf hroot
    have hdepth : ¬ (doc.fragment root).toJson.depth ≤ 127 := by rw [hfragment]; decide +kernel
    refine ⟨doc, hfragment, ?_⟩
    cases hread : read doc.write with
    | ok doc' => exact absurd (hiff.1 ⟨doc', hread⟩) hdepth
    | error error => rw [herror error hread]

end NestedStyles.Document
