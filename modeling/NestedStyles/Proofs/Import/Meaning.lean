import NestedStyles.Import
import NestedStyles.Proofs.Document.Content

/-!
# The meaning of imports

Expanding imports by value: every import in a list of fragments is replaced by the content of the stylesheet that it
names, in which the imports are expanded already. `spliceAll` does the replacing, depth first and from left to right,
and `Library.content` finds the content. The two return how many imports they have replaced as well. Nothing that is
left afterwards is an import to be expanded (`spliceAll_expanded`), and splicing fails only where an import does
(`spliceAll_error`).
-/

namespace NestedStyles.Import

/-- Fragments in which the imports are expanded, and how many imports there were. -/
abbrev Expansion := Except CompileError (List Fragment × Nat)

/-- Fragments in front of others, with the number of imports that they came from. -/
def prepend (fs : List Fragment) (count : Nat) : Expansion → Expansion
  | .error e => .error e
  | .ok (rest, more) => .ok (fs ++ rest, count + more)

/-- The same fragments, from one more import. -/
def oneMore : Expansion → Expansion
  | .error e => .error e
  | .ok (fs, count) => .ok (fs, count + 1)

mutual

/-- What takes the place of a fragment when `content` is what takes the place of an import. -/
def splice (content : String → Expansion) : Fragment → Expansion
  | ⟨kind, children⟩ =>
    match reference? kind with
    | some href => content href
    | none =>
      match spliceAll content children with
      | .error e => .error e
      | .ok (below, count) => .ok ([⟨kind, below⟩], count)

def spliceAll (content : String → Expansion) : List Fragment → Expansion
  | [] => .ok ([], 0)
  | f :: fs =>
    match splice content f with
    | .error e => .error e
    | .ok (first, count) => prepend first count (spliceAll content fs)

end

namespace Library

/-- The source that a reference stands for in a stylesheet of the given directory, and the document in it, unless the
source is one of those under way. -/
def lookup (library : Library) (underway : List String) (directory : Option String) (href : String) :
    Except CompileError (Source × Document) :=
  let identifier := resolve href directory
  match ((library.chain.getD library.fallback).find identifier).1 with
  | none => .error (.importNotFound href identifier)
  | some source =>
    if underway.contains source.uri then .error (.circularImport source.uri)
    else match library.parse source with
      | .error error => .error (.parse error)
      | .ok doc => .ok (source, doc)

/-- The directory from which the imports in a document start that was read from a source. -/
def directoryIn (source : Source) (doc : Document) : Option String :=
  match doc.kind Document.root with
  | .stylesheet _ => source.directory?
  | _ => none

/-- The content that a reference stands for in a stylesheet of the given directory, if imports may nest `levels`
deep. -/
def content (library : Library) : (levels : Nat) → (underway : List String) → (directory : Option String) →
    (href : String) → Expansion
  | 0, _, _, href => .error (.importDepth href library.maxDepth)
  | levels + 1, underway, directory, href =>
    match library.lookup underway directory href with
    | .error e => .error e
    | .ok (source, doc) =>
      oneMore (spliceAll (library.content levels (source.uri :: underway) (directoryIn source doc))
        (doc.fragment Document.root).children)

end Library

/-! ### What is left -/

mutual

/-- No node of the fragment is an import to be expanded. -/
def Expanded : Fragment → Prop
  | ⟨kind, children⟩ => reference? kind = none ∧ ExpandedAll children

def ExpandedAll : List Fragment → Prop
  | [] => True
  | f :: fs => Expanded f ∧ ExpandedAll fs

end

theorem expandedAll_iff {fs : List Fragment} : ExpandedAll fs ↔ ∀ f ∈ fs, Expanded f := by
  induction fs with
  | nil => simp [ExpandedAll]
  | cons f fs ih => simp [ExpandedAll, ih]

mutual

private theorem splice_expanded {content : String → Expansion}
    (h : ∀ {href fs n}, content href = .ok (fs, n) → ExpandedAll fs) :
    ∀ {f fs n}, splice content f = .ok (fs, n) → ExpandedAll fs
  | ⟨kind, children⟩, fs, n, hsplice => by
    rw [splice] at hsplice
    split at hsplice
    · exact h hsplice
    · next hkind =>
      split at hsplice
      · simp at hsplice
      · next below count hbelow =>
        simp only [Except.ok.injEq, Prod.mk.injEq] at hsplice
        rw [← hsplice.1]
        exact ⟨⟨hkind, spliceAll_expanded h hbelow⟩, trivial⟩

theorem spliceAll_expanded {content : String → Expansion}
    (h : ∀ {href fs n}, content href = .ok (fs, n) → ExpandedAll fs) :
    ∀ {gs fs n}, spliceAll content gs = .ok (fs, n) → ExpandedAll fs
  | [], fs, n, hsplice => by
    simp only [spliceAll, Except.ok.injEq, Prod.mk.injEq] at hsplice
    rw [← hsplice.1]
    trivial
  | g :: gs, fs, n, hsplice => by
    rw [spliceAll] at hsplice
    split at hsplice
    · simp at hsplice
    · next first count hfirst =>
      unfold prepend at hsplice
      split at hsplice
      · simp at hsplice
      · next rest more hrest =>
        simp only [Except.ok.injEq, Prod.mk.injEq] at hsplice
        rw [← hsplice.1, expandedAll_iff]
        intro f hf
        rcases List.mem_append.1 hf with hf | hf
        · exact expandedAll_iff.1 (splice_expanded h hfirst) f hf
        · exact expandedAll_iff.1 (spliceAll_expanded h hrest) f hf

end

theorem Library.content_expanded (library : Library) {levels : Nat} {underway : List String}
    {directory : Option String} {href : String} {fs : List Fragment} {n : Nat}
    (h : library.content levels underway directory href = .ok (fs, n)) : ExpandedAll fs := by
  induction levels generalizing underway directory href fs n with
  | zero => simp [content] at h
  | succ levels ih =>
    rw [content] at h
    split at h
    · simp at h
    · unfold oneMore at h
      split at h
      · simp at h
      · next source doc _ _ fragments count hsplice =>
        simp only [Except.ok.injEq, Prod.mk.injEq] at h
        rw [← h.1]
        exact spliceAll_expanded ih hsplice

/-! ### What can go wrong -/

mutual

private theorem splice_error {content : String → Expansion} {P : CompileError → Prop}
    (h : ∀ {href e}, content href = .error e → P e) : ∀ {f e}, splice content f = .error e → P e
  | ⟨kind, children⟩, e, hsplice => by
    rw [splice] at hsplice
    split at hsplice
    · exact h hsplice
    · split at hsplice
      · next hbelow =>
        obtain rfl := Except.error.inj hsplice
        exact spliceAll_error h hbelow
      · simp at hsplice

/-- Splicing fails only where an import does. -/
theorem spliceAll_error {content : String → Expansion} {P : CompileError → Prop}
    (h : ∀ {href e}, content href = .error e → P e) : ∀ {fs e}, spliceAll content fs = .error e → P e
  | [], e, hsplice => by simp [spliceAll] at hsplice
  | f :: fs, e, hsplice => by
    rw [spliceAll] at hsplice
    split at hsplice
    · next hfirst =>
      obtain rfl := Except.error.inj hsplice
      exact splice_error h hfirst
    · unfold prepend at hsplice
      split at hsplice
      · next hrest =>
        obtain rfl := Except.error.inj hsplice
        exact spliceAll_error h hrest
      · simp at hsplice

end

theorem Library.lookup_error (library : Library) {underway : List String} {directory : Option String} {href : String}
    {e : CompileError} (h : library.lookup underway directory href = .error e) : e.isInternal = false := by
  unfold lookup at h
  simp only at h
  split at h
  · obtain rfl := Except.error.inj h
    rfl
  · split at h
    · obtain rfl := Except.error.inj h
      rfl
    · split at h
      · obtain rfl := Except.error.inj h
        rfl
      · simp at h

/-- An import fails only for what the stylesheet or its source says. -/
theorem Library.content_error (library : Library) {levels : Nat} {underway : List String} {directory : Option String}
    {href : String} {e : CompileError} (h : library.content levels underway directory href = .error e) :
    e.isInternal = false := by
  induction levels generalizing underway directory href e with
  | zero =>
    obtain rfl := Except.error.inj h
    rfl
  | succ levels ih =>
    rw [content] at h
    split at h
    · next hlookup =>
      obtain rfl := Except.error.inj h
      exact library.lookup_error hlookup
    · unfold oneMore at h
      split at h
      · next hsplice =>
        obtain rfl := Except.error.inj h
        exact spliceAll_error (P := fun e => e.isInternal = false) ih hsplice
      · simp at h

end NestedStyles.Import
