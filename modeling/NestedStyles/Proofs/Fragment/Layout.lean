import NestedStyles.Compiler
import NestedStyles.Proofs.Document.Traversal
import NestedStyles.Proofs.Text.Lines

/-!
# Blank lines in the text of a stylesheet

A block is written around the lines of its parts, each of them indented. If the texts in the nodes have no line feeds in
them, no block has an empty line in it, however deep it nests (`Fragment.Inline.text`). So the blank lines in the text
of a stylesheet are those between its parts, and the parts can be told from the text (`Document.paragraphs_css`).
-/

namespace NestedStyles

open Text

/-- The texts that a kind of node has. -/
def Kind.fields : Kind → List String
  | stylesheet directory => directory.toList
  | rule selector => [selector]
  | declaration property value => [property, value]
  | assignment name value _ => [name, value]
  | mixin name params => name :: params.flatMap fun param => param.name :: param.fallback.toList
  | inclusion name args => name :: args
  | conditional => []
  | branch condition => condition.toList
  | importRule href media => href :: media.toList
  | comment text => [text]
  | raw text => [text]

/-- The node is no stylesheet, and there is no line feed in its texts. -/
structure Kind.Inline (kind : Kind) : Prop where
  ne_stylesheet : ∀ directory, kind ≠ .stylesheet directory
  not_mem : ∀ text ∈ kind.fields, '\n' ∉ text.toList

instance (kind : Kind) : Decidable kind.Inline :=
  decidable_of_iff (kind.label ≠ "Stylesheet" ∧ ∀ text ∈ kind.fields, '\n' ∉ text.toList) <| by
    constructor
    · rintro ⟨hlabel, htexts⟩
      exact ⟨fun directory heq => hlabel (by rw [heq, Kind.label]), htexts⟩
    · rintro ⟨hne, htexts⟩
      refine ⟨fun hlabel => ?_, htexts⟩
      cases kind with
      | stylesheet directory => exact hne directory rfl
      | _ => simp [Kind.label] at hlabel

namespace Fragment

/-- All nodes of the fragment are written in line. -/
inductive Inline : Fragment → Prop
  | intro {kind : Kind} {children : List Fragment} (hkind : kind.Inline) (hchildren : ∀ f ∈ children, Inline f) :
      Inline ⟨kind, children⟩

theorem Inline.kind {f : Fragment} (h : f.Inline) : f.kind.Inline := by
  obtain ⟨hkind, -⟩ := h
  exact hkind

theorem texts_eq_map (fs : List Fragment) : texts fs = fs.map text := by
  induction fs with
  | nil => rfl
  | cons f fs ih => rw [texts, ih, List.map_cons]

/-! ### Headers -/

theorem not_mem_intercalate {c : Char} {sep : List Char} {parts : List (List Char)} (hsep : c ∉ sep)
    (hparts : ∀ part ∈ parts, c ∉ part) : c ∉ List.intercalate sep parts := by
  induction parts with
  | nil => simp
  | cons part parts ih =>
    obtain ⟨hpart, hothers⟩ := List.forall_mem_cons.1 hparts
    cases parts with
    | nil => simpa using hpart
    | cons next parts =>
      rw [List.intercalate_cons_cons]
      simp [hpart, hsep, ih hothers]

theorem not_mem_listed {parts : List (List Char)} (hparts : ∀ part ∈ parts, '\n' ∉ part) : '\n' ∉ listed parts := by
  have hjoined : '\n' ∉ List.intercalate [',', ' '] parts := not_mem_intercalate (by decide) hparts
  unfold listed
  split
  · simp
  · simp [hjoined]

theorem not_mem_paramText {param : Param} (h : ∀ text ∈ param.name :: param.fallback.toList, '\n' ∉ text.toList) :
    '\n' ∉ paramText param := by
  obtain ⟨hname, hfallback⟩ := List.forall_mem_cons.1 h
  unfold paramText
  cases hparam : param.fallback with
  | none => simp [hname]
  | some fallback => simp [hname, hfallback fallback (by simp [hparam])]

theorem not_mem_importTarget {href : List Char} (h : '\n' ∉ href) : '\n' ∉ importTarget href := by
  unfold importTarget
  split
  · exact h
  · simp [h]

theorem not_mem_branchHeader {kind : Kind} (h : kind.Inline) (first : Bool) : '\n' ∉ branchHeader first kind := by
  unfold branchHeader
  split
  · next condition =>
    have hcondition : '\n' ∉ condition.toList := h.not_mem condition (by simp [Kind.fields])
    cases first with
    | true => simp [hcondition]
    | false => simp [hcondition]
  · decide

/-! ### Blocks -/

/-- The text of a part of a block. -/
def Tight (part : List Char) : Prop := part = [] ∨ Compact part

theorem Tight.lines {part : List Char} (h : Tight part) : ∀ line ∈ Text.lines part, line ≠ [] ∧ '\n' ∉ line := by
  rcases h with rfl | h
  · simp [Text.lines, pieces]
  · exact h.lines

/-- Lines that are indented are neither empty nor a lone return. -/
theorem compact_body {first rest : List Char} {parts : List (List Char)} (hne : first ≠ []) (hline : '\n' ∉ first)
    (hreturn : first ≠ ['\r']) (hparts : ∀ part ∈ parts, Tight part) (hrest : Compact rest) :
    Compact (first ++ parts.flatMap (fun part => (lines part).flatMap indented) ++ '\n' :: rest) := by
  have hbody : parts.flatMap (fun part => (lines part).flatMap indented) =
      ((parts.flatMap lines).map fun line => ' ' :: ' ' :: line).flatMap fun line => '\n' :: line := by
    rw [List.flatMap_map, List.flatMap_assoc]
    apply List.flatMap_congr
    intro part hpart
    apply List.flatMap_congr
    intro line hline
    simp [indented, ((hparts part hpart).lines line hline).1]
  rw [hbody]
  apply Compact.append_lines hne hline hreturn _ hrest
  intro line hmem
  obtain ⟨inner, hinner, rfl⟩ := List.mem_map.1 hmem
  obtain ⟨part, hpart, hinner⟩ := List.mem_flatMap.1 hinner
  simp [((hparts part hpart).lines inner hinner).2]

theorem compact_block_append {header tail : List Char} {parts : List (List Char)} (hheader : '\n' ∉ header)
    (hparts : ∀ part ∈ parts, Tight part) (htail : Compact ('\x7d' :: tail)) :
    Compact (block header parts ++ tail) := by
  have hfirst : header ++ " \x7b".toList ≠ ['\r'] := by
    intro heq
    simpa using congrArg List.length heq
  have hblock := compact_body (by simp) (by simp [hheader]) hfirst hparts htail
  simpa [block] using hblock

theorem compact_block {header : List Char} {parts : List (List Char)} (hheader : '\n' ∉ header)
    (hparts : ∀ part ∈ parts, Tight part) : Compact (block header parts) := by
  have hbrace : Compact ['\x7d'] := .last (by simp) (by simp)
  simpa using compact_block_append hheader hparts hbrace

/-- A block without a header starts with its brace. -/
theorem compact_trimStart_block {parts : List (List Char)} (hparts : ∀ part ∈ parts, Tight part) :
    Compact (trimStart (block [] parts)) := by
  have htext : trimStart (block [] parts) =
      ['\x7b'] ++ parts.flatMap (fun part => (lines part).flatMap indented) ++ '\n' :: ['\x7d'] := by
    have hspace : isBlank ' ' = true := by decide
    have hbrace : isBlank '\x7b' = false := by decide
    simp [block, trimStart, hspace, hbrace]
  rw [htext]
  exact compact_body (by simp) (by simp) (by simp) hparts (.last (by simp) (by simp))

/-- The blocks of a conditional follow each other in one line. -/
theorem compact_branches {fs : List Fragment} (hne : fs ≠ []) (first : Bool)
    (h : ∀ f ∈ fs, f.kind.Inline ∧ ∀ part ∈ texts f.children, Tight part) :
    Compact (List.intercalate [' '] (branches first fs)) := by
  induction fs generalizing first with
  | nil => exact absurd rfl hne
  | cons f fs ih =>
    obtain ⟨kind, children⟩ := f
    obtain ⟨⟨hkind, hparts⟩, hothers⟩ := List.forall_mem_cons.1 h
    have hheader := not_mem_branchHeader hkind first
    rw [branches]
    cases fs with
    | nil => simpa [branches] using compact_block hheader hparts
    | cons g fs =>
      have hrest := ih (by simp) false hothers
      obtain ⟨kind', children'⟩ := g
      have htail := (hrest.cons (show ' ' ≠ '\n' by decide)).cons (show '\x7d' ≠ '\n' by decide)
      rw [branches] at htail ⊢
      rw [List.intercalate_cons_cons, List.append_assoc]
      exact compact_block_append hheader hparts htail

/-! ### Fragments -/

theorem tight_of_not_mem {part : List Char} (h : '\n' ∉ part) : Tight part := by
  by_cases hnil : part = []
  · exact .inl hnil
  · exact .inr (.last hnil h)

/-- One node: what is below a node has to be known for one level, and for two below a conditional, which writes the
blocks of its branches itself. -/
theorem tight_text {kind : Kind} {children : List Fragment} (hkind : kind.Inline)
    (hparts : ∀ part ∈ texts children, Tight part)
    (hbranches : ∀ f ∈ children, f.kind.Inline ∧ ∀ part ∈ texts f.children, Tight part) :
    Tight (text ⟨kind, children⟩) := by
  have hfields := hkind.not_mem
  unfold text
  cases kind with
  | stylesheet directory => exact absurd rfl (hkind.ne_stylesheet directory)
  | rule selector => exact .inr (compact_block (hfields selector (by simp [Kind.fields])) hparts)
  | declaration property value => exact tight_of_not_mem (by simp_all [Kind.fields])
  | assignment name value guarded => exact tight_of_not_mem (by cases guarded <;> simp_all [Kind.fields])
  | mixin name params =>
    have hname : '\n' ∉ name.toList := hfields name (by simp [Kind.fields])
    have hparams : '\n' ∉ listed (params.map paramText) := by
      apply not_mem_listed
      rw [List.forall_mem_map]
      intro param hparam
      apply not_mem_paramText
      intro text htext
      exact hfields text (.tail name (List.mem_flatMap.2 ⟨param, hparam, htext⟩))
    exact .inr (compact_block (by simp [hname, hparams]) hparts)
  | inclusion name args =>
    have hname : '\n' ∉ name.toList := hfields name (by simp [Kind.fields])
    have hargs : '\n' ∉ listed (args.map String.toList) := by
      apply not_mem_listed
      rw [List.forall_mem_map]
      intro arg harg
      exact hfields arg (.tail name harg)
    exact tight_of_not_mem (by simp [hname, hargs])
  | conditional =>
    by_cases hnone : children = []
    · exact .inl (by simp [hnone, branches])
    · exact .inr (compact_branches hnone true hbranches)
  | branch condition => exact .inr (compact_trimStart_block hparts)
  | importRule href media =>
    have htarget := not_mem_importTarget (hfields href (by simp [Kind.fields]))
    cases media with
    | none => exact tight_of_not_mem (by simp [htarget])
    | some media =>
      have hmedia : '\n' ∉ media.toList := hfields media (by simp [Kind.fields])
      exact tight_of_not_mem (by simp [htarget, hmedia])
  | comment text => exact tight_of_not_mem (hfields text (by simp [Kind.fields]))
  | raw text => exact tight_of_not_mem (hfields text (by simp [Kind.fields]))

/-- The text of a fragment is empty or has no empty lines, and so are the texts of the fragments below it. -/
theorem Inline.text {f : Fragment} (h : f.Inline) : Tight f.text ∧ ∀ part ∈ texts f.children, Tight part := by
  induction h with
  | @intro kind children hkind hchildren ih =>
    have hparts : ∀ part ∈ texts children, Tight part := by
      rw [texts_eq_map, List.forall_mem_map]
      intro f hf
      exact (ih f hf).1
    refine ⟨tight_text hkind hparts ?_, hparts⟩
    intro f hf
    exact ⟨(hchildren f hf).kind, (ih f hf).2⟩

theorem text_stylesheet (directory : Option String) (children : List Fragment) :
    text ⟨.stylesheet directory, children⟩ =
      List.intercalate ['\n', '\n'] ((children.map text).filter fun part => !part.isEmpty) := by
  rw [← texts_eq_map]
  unfold text
  rfl

theorem paragraphs_text {children : List Fragment} (h : ∀ f ∈ children, f.Inline) (hne : ∃ f ∈ children, f.text ≠ [])
    (directory : Option String) :
    paragraphs (text ⟨.stylesheet directory, children⟩) = (children.map text).filter fun part => !part.isEmpty := by
  rw [text_stylesheet]
  apply paragraphs_intercalate
  · obtain ⟨f, hf, htext⟩ := hne
    exact List.ne_nil_of_mem (List.mem_filter.2 ⟨List.mem_map_of_mem hf, by simpa using htext⟩)
  · intro part hpart
    obtain ⟨hmem, hempty⟩ := List.mem_filter.1 hpart
    obtain ⟨f, hf, rfl⟩ := List.mem_map.1 hmem
    rcases (h f hf).text.1 with hnil | hcompact
    · simp [hnil] at hempty
    · exact hcompact

end Fragment

namespace Document

variable {doc : Document}

theorem WellFormed.inline_fragment (hwf : doc.WellFormed) {id : Nat} (h : ∀ x, doc.Spans id x → (doc.kind x).Inline) :
    (doc.fragment id).Inline := by
  induction id using hwf.children_induction with
  | step id ih =>
    rw [hwf.fragment_eq]
    refine .intro (h id (Spans.refl doc id)) ?_
    rw [List.forall_mem_map]
    intro child hchild
    apply ih child hchild
    intro x hx
    exact h x ((Spans.of_parent (hwf.mem_children_iff.1 hchild)).trans hx)

/-- The paragraphs of a stylesheet are what is written for the nodes at its top level, as far as anything is. -/
theorem paragraphs_css (hwf : doc.WellFormed) {directory : Option String}
    (hroot : doc.kind root = .stylesheet directory)
    (hinline : ∀ x ∈ doc.descendants root, x ≠ root → (doc.kind x).Inline)
    (hne : ∃ child ∈ doc.children root, (doc.fragment child).css ≠ "") :
    (paragraphs doc.css.toList).map String.ofList =
      ((doc.children root).map fun child => (doc.fragment child).css).filter (· ≠ "") := by
  have hchildren : ∀ f ∈ (doc.children root).map doc.fragment, f.Inline := by
    rw [List.forall_mem_map]
    intro child hchild
    have hparent := hwf.mem_children_iff.1 hchild
    apply hwf.inline_fragment
    intro x hx
    apply hinline x (hwf.mem_descendants.2 ((Spans.of_parent hparent).trans hx))
    rintro rfl
    exact hwf.not_spans_parent hparent hx
  have hsome : ∃ f ∈ (doc.children root).map doc.fragment, f.text ≠ [] := by
    obtain ⟨child, hchild, hcss⟩ := hne
    refine ⟨doc.fragment child, List.mem_map_of_mem hchild, ?_⟩
    simpa [Fragment.css] using hcss
  have hparts := Fragment.paragraphs_text hchildren hsome directory
  rw [← hroot, ← hwf.fragment_eq] at hparts
  rw [css, Fragment.css, String.toList_ofList, hparts, List.map_map, List.filter_map, List.filter_map, List.map_map]
  -- a text is empty as a string just when it has no characters
  have hfilter : (doc.children root).filter ((fun part => !part.isEmpty) ∘ Fragment.text ∘ doc.fragment) =
      (doc.children root).filter ((· ≠ "") ∘ fun child => (doc.fragment child).css) := by
    apply List.filter_congr
    intro child _
    cases htext : (doc.fragment child).text <;> simp [Fragment.css, htext]
  rw [hfilter]
  rfl

/-- A stylesheet with nodes that have no text, blocks with nothing in them, and lone returns at two depths. -/
def layered : Fragment :=
  ⟨.stylesheet (some "lib"),
    [⟨.raw "", []⟩,
     ⟨.rule ".a", [⟨.rule "", [⟨.comment "\r", []⟩, ⟨.conditional, []⟩]⟩,
       ⟨.conditional, [⟨.branch (some "$x"), []⟩, ⟨.branch none, [⟨.raw "", []⟩, ⟨.declaration "p" "1", []⟩]⟩]⟩]⟩,
     ⟨.conditional, []⟩,
     ⟨.branch none, [⟨.raw "\r", []⟩]⟩,
     ⟨.mixin "m" [{ name := "p", fallback := some "1" }], []⟩]⟩

def layeredDocument : Document := (ofFragment layered).toOption.getD (blank none)

theorem paragraphs_css_layered :
    (paragraphs layeredDocument.css.toList).map String.ofList =
      [".a \x7b\n   \x7b\n    \n  \x7d\n  @if $x \x7b\n  \x7d @else \x7b\n    p: 1;\n  \x7d\n\x7d",
       "\x7b\n  \r\n\x7d", "@mixin m($p: 1) \x7b\n\x7d"] := by
  have hdoc : ofFragment layered = .ok layeredDocument := rfl
  have hinline : ∀ x ∈ layeredDocument.descendants root, x ≠ root → (layeredDocument.kind x).Inline := by decide +kernel
  have hne : ∃ child ∈ layeredDocument.children root, (layeredDocument.fragment child).css ≠ "" := by decide +kernel
  rw [paragraphs_css (ofFragment_spec hdoc).1 (show layeredDocument.kind root = .stylesheet (some "lib") from rfl)
    hinline hne]
  decide +kernel

end Document

end NestedStyles
