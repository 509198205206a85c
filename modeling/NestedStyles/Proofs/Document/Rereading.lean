import NestedStyles.Proofs.Document.Interchange
import NestedStyles.Proofs.Fragment.Nesting
import NestedStyles.Proofs.Json.Recognition

/-!
# Writing what was read

A text may be shorter than what is written for the document that it holds. In particular the parameters of a mixin and
the arguments of an inclusion may be left out, but are written as an empty list. This list nests one level deeper than
anything in the text, if the node is in one of the innermost objects that the reader goes into, which are those of the
nodes 63 levels below the root. For such a node the written text is refused. In all other cases it is read as the same
document (`read_write_of_read`).
-/

namespace NestedStyles.Document

variable {doc : Document} {text : String}

theorem WellFormed.height_fragment_le (hwf : doc.WellFormed) (weight : Kind → Nat) (id bound : Nat) :
    (doc.fragment id).height weight ≤ bound ↔
      weight (doc.kind id) + 1 ≤ bound ∧ ∀ child ∈ doc.children id, (doc.fragment child).height weight + 2 ≤ bound := by
  rw [hwf.fragment_eq, Fragment.height]
  constructor
  · intro h
    have hle : Fragment.heightAll weight ((doc.children id).map doc.fragment) ≤ bound - 1 := by omega
    have hall := List.forall_mem_map.1 (Fragment.heightAll_le.1 hle)
    refine ⟨by omega, ?_⟩
    intro child hchild
    have := hall child hchild
    omega
  · intro ⟨hself, hbelow⟩
    have hle : Fragment.heightAll weight ((doc.children id).map doc.fragment) ≤ bound - 1 := by
      rw [Fragment.heightAll_le, List.forall_mem_map]
      intro child hchild
      have := hbelow child hchild
      omega
    omega

theorem WellFormed.length_lineage_child (hwf : doc.WellFormed) {id child : Nat} (h : child ∈ doc.children id) :
    (doc.lineage child).length = (doc.lineage id).length + 1 := by
  rw [hwf.lineage_eq child, hwf.mem_children_iff.1 h]
  simp

/-- How deep a fragment nests can be told node by node. The level of a node is the length of its lineage. -/
theorem WellFormed.height_fragment_le_iff (hwf : doc.WellFormed) (weight : Kind → Nat) (id bound : Nat) :
    (doc.fragment id).height weight ≤ bound ↔ ∀ x, doc.Spans id x →
      weight (doc.kind x) + 2 * (doc.lineage x).length + 1 ≤ bound + 2 * (doc.lineage id).length := by
  induction id using hwf.children_induction generalizing bound with
  | step id ih =>
    rw [hwf.height_fragment_le]
    constructor
    · intro ⟨hself, hbelow⟩ x hx
      rcases hwf.spans_iff.1 hx with rfl | ⟨child, hchild, hx⟩
      · omega
      · have hlen := hwf.length_lineage_child hchild
        have hle := hbelow child hchild
        have := (ih child hchild (bound - 2)).1 (by omega) x hx
        omega
    · intro hnodes
      have hself := hnodes id (Spans.refl doc id)
      refine ⟨by omega, ?_⟩
      intro child hchild
      have hlen := hwf.length_lineage_child hchild
      have hfirst := hnodes child (Spans.of_parent (hwf.mem_children_iff.1 hchild))
      have hle : (doc.fragment child).height weight ≤ bound - 2 := by
        rw [ih child hchild]
        intro x hx
        have := hnodes x (hwf.spans_iff.2 (.inr ⟨child, hchild, hx⟩))
        omega
      omega

theorem exists_of_read (h : read text = .ok doc) :
    ∃ v f, Json.read? text = some v ∧ Fragment.ofJson? v = some f ∧ ofFragment f = .ok doc := by
  rw [read] at h
  split at h
  · simp at h
  · next f hf =>
    obtain ⟨v, hv, hf⟩ := Option.bind_eq_some_iff.1 hf
    exact ⟨v, f, hv, hf, h⟩

/-- The document that was read can be made from its own fragment. -/
theorem ofFragment_of_read (h : read text = .ok doc) : ofFragment (doc.fragment root) = .ok doc := by
  obtain ⟨v, f, -, -, hdoc⟩ := exists_of_read h
  rw [(ofFragment_spec hdoc).2, hdoc]

theorem wellFormed_of_read (h : read text = .ok doc) : doc.WellFormed := by
  obtain ⟨v, f, -, -, hdoc⟩ := exists_of_read h
  exact (ofFragment_spec hdoc).1

theorem WellFormed.lineage_root (hwf : doc.WellFormed) : doc.lineage root = [root] := by
  rw [hwf.lineage_eq, hwf.parent_root]

/-- No node is deeper than the objects that the reader goes into. -/
theorem length_lineage_le_of_read (h : read text = .ok doc) {x : Nat} (hx : doc.Spans root x) :
    (doc.lineage x).length ≤ 64 := by
  have hwf := wellFormed_of_read h
  obtain ⟨v, f, hv, hf, hdoc⟩ := exists_of_read h
  have hdepth : v.depth ≤ 127 := Json.depth_le_of_read? hv
  have hheight := Fragment.height_le_of_ofJson? v hf
  rw [← (ofFragment_spec hdoc).2] at hheight
  have hnodes := (hwf.height_fragment_le_iff (fun _ => 0) root v.depth).1 hheight x hx
  rw [hwf.lineage_root, List.length_singleton] at hnodes
  omega

/-- In a document that was read only lists at the deepest level can be too deep. -/
theorem depth_le_iff_of_read (h : read text = .ok doc) : (doc.fragment root).toJson.depth ≤ 127 ↔
    ∀ node, doc.Spans root node → (doc.kind node).isListed = true → (doc.lineage node).length ≠ 64 := by
  have hwf := wellFormed_of_read h
  rw [Fragment.depth_toJson, hwf.height_fragment_le_iff, hwf.lineage_root, List.length_singleton]
  constructor
  · intro hnodes node hnode hlisted
    have hle := hnodes node hnode
    have hpos := Kind.memberDepth_pos hlisted
    omega
  · intro hlists node hnode
    have hlevel := length_lineage_le_of_read h hnode
    by_cases hlisted : (doc.kind node).isListed
    · have hne := hlists node hnode hlisted
      have hle := Kind.memberDepth_le (doc.kind node)
      omega
    · have hzero := Kind.memberDepth_of_not_listed (eq_false_of_ne_true hlisted)
      omega

/-- What is written for a document that was read is read as the same document, unless there is a mixin definition or an
inclusion 63 levels below the root. Then it is malformed. -/
theorem read_write_of_read {text : String} {doc : Document} (h : read text = .ok doc) :
    ((∃ doc', read doc.write = .ok doc') ↔
      ∀ node, doc.Spans root node → (doc.kind node).isListed = true → (doc.lineage node).length ≠ 64) ∧
    (∀ doc', read doc.write = .ok doc' →
      doc' = doc ∧ doc'.fragment root = doc.fragment root ∧ doc'.write = doc.write) ∧
    ∀ error, read doc.write = .error error → error = .malformed := by
  have hread : read doc.write = if (doc.fragment root).toJson.depth ≤ 127 then .ok doc else .error .malformed := by
    rw [write, read_print, ofFragment_of_read h]
    rfl
  rw [← depth_le_iff_of_read h, hread]
  by_cases hdepth : (doc.fragment root).toJson.depth ≤ 127
  · simp only [if_pos hdepth]
    refine ⟨⟨fun _ => hdepth, fun _ => ⟨doc, rfl⟩⟩, ?_, by simp⟩
    intro doc' hdoc'
    obtain rfl : doc = doc' := by simpa using hdoc'
    exact ⟨rfl, rfl, rfl⟩
  · simp [hdepth]

/-- Parameters in both forms, a kind by its number, and an unknown member. Members that need not be there are missing or
`null`, and the `type` comes last. -/
def casual : String :=
  "\x7b\"children\":[\x7b\"name\":\"m\",\"params\":[[\"p\",null],\x7b\"default\":\"1\",\"name\":\"q\"\x7d]," ++
    "\"type\":4\x7d,\x7b\"name\":\"m\",\"x\":[1e2],\"type\":\"MixinInclude\"\x7d]," ++
    "\"file_name\":null,\"type\":\"Stylesheet\"\x7d"

def casualContent : Fragment :=
  ⟨.stylesheet none,
    [⟨.mixin "m" [{ name := "p" }, { name := "q", fallback := some "1" }], []⟩, ⟨.inclusion "m" [], []⟩]⟩

/-- What is written differs from the text, and is read as the same document. -/
theorem read_write_casual : ∃ doc, read casual = .ok doc ∧ doc.fragment root = casualContent ∧ doc.write ≠ casual ∧
    read doc.write = .ok doc := by
  have hcontent : (Json.read? casual).bind Fragment.ofJson? = some casualContent := by decide +kernel
  obtain ⟨doc, hdoc⟩ : ∃ doc, ofFragment casualContent = .ok doc := ⟨_, rfl⟩
  have hread : read casual = .ok doc := by
    rw [read, hcontent]
    exact hdoc
  obtain ⟨hwf, hfragment⟩ := ofFragment_spec hdoc
  obtain ⟨hiff, hsame, -⟩ := read_write_of_read hread
  have hshallow : ∀ node, doc.Spans root node → (doc.kind node).isListed = true → (doc.lineage node).length ≠ 64 := by
    intro node _ _
    have hnext : doc.next = 3 := (laid_ofFragment hdoc).1
    have hle := hwf.length_lineage_le node
    omega
  obtain ⟨doc', hdoc'⟩ := hiff.2 hshallow
  obtain ⟨rfl, -⟩ := hsame doc' hdoc'
  refine ⟨doc', hread, hfragment, ?_, hdoc'⟩
  rw [write, hfragment]
  decide +kernel

/-- The value of an inclusion without arguments inside of some nested rules, with the arguments left out. -/
def bareInclusion : Nat → Json
  | 0 => .object [("type", .string "MixinInclude"), ("name", .string "m")]
  | levels + 1 =>
    .object [("type", .string "Rule"), ("selector", .string "a"), ("children", .array [bareInclusion levels])]

/-- The text of a stylesheet with such an inclusion. -/
def bare (levels : Nat) : Json :=
  .object [("type", .string "Stylesheet"), ("children", .array [bareInclusion levels])]

/-- What the value of the inclusion is read as. -/
def includedBelow : Nat → Fragment
  | 0 => ⟨.inclusion "m" [], []⟩
  | levels + 1 => ⟨.rule "a", [includedBelow levels]⟩

theorem textual_bareInclusion (levels : Nat) : (bareInclusion levels).Textual := by
  induction levels with
  | zero => exact .object (by simp [Json.Textual.string])
  | succ levels ih =>
    have hchildren : (Json.array [bareInclusion levels]).Textual := .array (by simpa using ih)
    exact .object (by simp [Json.Textual.string, hchildren])

theorem ofJson?_bareInclusion (levels : Nat) :
    Fragment.ofJson? (bareInclusion levels) = some (includedBelow levels) := by
  induction levels with
  | zero => rfl
  | succ levels ih =>
    simp [bareInclusion, includedBelow, Fragment.ofJson?, Fragment.childLists?, Fragment.items?, Fragment.ofItems?, ih,
      Json.field?, Json.textField?, Json.text?, Kind.labelOf?, Kind.ofMembers?]

theorem read_bare {levels : Nat} (h : (bare levels).depth ≤ Json.maxDepth) :
    read (bare levels).print = ofFragment ⟨.stylesheet none, [includedBelow levels]⟩ := by
  have htextual : (bare levels).Textual := by
    have hchildren : (Json.array [bareInclusion levels]).Textual := .array (by simpa using textual_bareInclusion levels)
    exact .object (by simp [Json.Textual.string, hchildren])
  have hfragment : Fragment.ofJson? (bare levels) = some ⟨.stylesheet none, [includedBelow levels]⟩ := by
    simp [bare, Fragment.ofJson?, Fragment.childLists?, Fragment.items?, Fragment.ofItems?, ofJson?_bareInclusion,
      Json.field?, Json.optionalTextField?, Json.optionalText?, Kind.labelOf?, Kind.ofMembers?]
  rw [read, Json.read?_print htextual, if_pos h, Option.bind_some, hfragment]

theorem exists_included (levels : Nat) : ∃ doc, ofFragment ⟨.stylesheet none, [includedBelow levels]⟩ = .ok doc :=
  ⟨_, rfl⟩

/-- An inclusion 63 levels below the root. -/
theorem read_write_bare : ∃ doc, read (bare 62).print = .ok doc ∧ read doc.write = .error .malformed := by
  obtain ⟨doc, hdoc⟩ := exists_included 62
  have hread : read (bare 62).print = .ok doc := (read_bare (by decide +kernel)).trans hdoc
  have hdeep : ¬ (doc.fragment root).toJson.depth ≤ Json.maxDepth := by
    rw [(ofFragment_spec hdoc).2]
    decide +kernel
  refine ⟨doc, hread, ?_⟩
  rw [write, read_print, if_neg hdeep]

end NestedStyles.Document
