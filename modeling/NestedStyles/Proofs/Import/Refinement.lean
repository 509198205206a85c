import NestedStyles.Source.Memory
import NestedStyles.Proofs.Import.Loop

/-!
# Expanding in place refines expanding by value

The import pass on a document does what `spliceAll` says of the fragment at its root, with the content of an import as
`Library.content` has it. The proof goes by induction on how deep imports may still nest. Parsers are taken to return
well-formed documents.
-/

namespace NestedStyles.Import

open Document Pass

/-- What a library parses is well-formed. -/
def Library.Regular (library : Library) : Prop :=
  ∀ source doc, library.parse source = .ok doc → doc.WellFormed

variable {library : Library} {underway : List String} {directory : Option String} {w : Workspace}

theorem Library.Regular.lookup_wf (h : library.Regular) {href : String} {source : Source} {doc : Document}
    (hlookup : library.lookup underway directory href = .ok (source, doc)) : doc.WellFormed := by
  unfold Library.lookup at hlookup
  simp only at hlookup
  split at hlookup
  · simp at hlookup
  · split at hlookup
    · simp at hlookup
    · split at hlookup
      · simp at hlookup
      · next hparse =>
        simp only [Except.ok.injEq, Prod.mk.injEq] at hlookup
        obtain ⟨rfl, rfl⟩ := hlookup
        exact h _ _ hparse

/-- The expected outcome of expanding the imports of the document at hand. -/
def Library.expected (library : Library) (levels : Nat) (underway : List String) (doc : Document) : Expansion :=
  spliceAll (library.content levels underway doc.directory?) ((doc.children root).map doc.fragment)

/-- What is known once a source has been fetched. -/
private theorem fetched (hregular : library.Regular) (levels : Nat) {w₁ : Workspace} {href : String} {source : Source}
    {doc : Document} (hdirectory : w.doc.directory? = directory)
    (hfetch : fetch library underway href w = .ok (source, doc) w₁) :
    w₁.doc = w.doc ∧ w₁.run = w.run ∧ doc.WellFormed ∧
      library.content (levels + 1) underway directory href =
        oneMore (library.expected levels (source.uri :: underway) doc) := by
  obtain ⟨installed, log, hrun⟩ := fetch_run library underway href w
  rw [hdirectory, hfetch] at hrun
  cases hlookup : library.lookup underway directory href with
  | error e => simp [hlookup] at hrun
  | ok found =>
    obtain ⟨source', doc'⟩ := found
    simp only [hlookup, EStateM.Result.ok.injEq, Prod.mk.injEq] at hrun
    obtain ⟨⟨rfl, rfl⟩, rfl⟩ := hrun
    have hwf := hregular.lookup_wf hlookup
    refine ⟨rfl, rfl, hwf.setDirectory _, ?_⟩
    rw [Library.content, Library.expected, directory?_setDirectory hwf, ← (hwf.setDirectory _).children_fragment,
      children_fragment_setDirectory hwf]
    simp only [hlookup]

/-- If the imports of documents are expanded as expected, then so is a single import. -/
theorem exact_replaces (hregular : library.Regular) {levels : Nat}
    {nested : List String → Workspace → Outcome Nat → Prop}
    (hnested : ∀ {underway w outcome}, w.doc.WellFormed → nested underway w outcome →
      Agrees root [] (w.doc.children root) w (library.expected levels underway w.doc) outcome) :
    Exact (Replaces library underway nested) (library.content (levels + 1) underway directory) directory := by
  intro w node child href pre post outcome hwf hdirectory hlist h
  cases h with
  | unavailable hfetch =>
    obtain ⟨installed, log, hrun⟩ := fetch_run library underway href w
    rw [hdirectory, hfetch] at hrun
    rw [Library.content]
    cases hlookup : library.lookup underway directory href with
    | error e =>
      simp only [hlookup, EStateM.Result.error.injEq] at hrun
      obtain ⟨rfl, rfl⟩ := hrun
      exact ⟨rfl, rfl, rfl⟩
    | ok found => simp [hlookup] at hrun
  | stopped hfetch hn =>
    obtain ⟨hdoc, hrun, hwfdoc, hcontent⟩ := fetched hregular levels hdirectory hfetch
    obtain ⟨hexpected, -, hrun₂⟩ := hnested hwfdoc hn
    refine ⟨?_, hdoc, hrun₂.trans hrun⟩
    rw [hcontent, hexpected, oneMore]
  | @misplaced source doc count e w₁ w₂ w' hfetch hn hreplace =>
    obtain ⟨hdoc, -, -, -⟩ := fetched hregular levels hdirectory hfetch
    obtain ⟨_, _, hreplaced, _⟩ := replace_run (w := { w₂ with doc := w₁.doc }) (hdoc ▸ hwf) (hdoc ▸ hlist) w₂.doc
    simp [hreplace] at hreplaced
  | @done source doc count nodes w₁ w₂ w' hfetch hn hreplace =>
    obtain ⟨hdoc, hrun, hwfdoc, hcontent⟩ := fetched hregular levels hdirectory hfetch
    obtain ⟨fs, new, hexpected, -, hrun₂, -, hnew, hfragments⟩ := hnested hwfdoc hn
    obtain ⟨doc', copies, hreplaced, hexchanged, hcontents⟩ :=
      replace_run (w := { w₂ with doc := w₁.doc }) (hdoc ▸ hwf) (hdoc ▸ hlist) w₂.doc
    rw [hreplace] at hreplaced
    obtain ⟨rfl, rfl⟩ := EStateM.Result.ok.inj hreplaced
    refine ⟨copies, ?_, ?_, hdoc ▸ hexchanged, hrun₂.trans hrun⟩
    · rw [hcontent, hexpected, oneMore, hcontents, hnew, List.nil_append, hfragments]
    · simpa using congrArg List.length hcontents

theorem exact_refused (underway : List String) :
    Exact (fun _ _ href w outcome => outcome = .error (.importDepth href library.maxDepth) w)
      (library.content 0 underway directory) directory := by
  rintro w node child href pre post outcome - - - rfl
  exact ⟨rfl, rfl, rfl⟩

/-- The imports of a document are expanded as expected. -/
theorem Expands.agrees (hregular : library.Regular) {levels : Nat} {outcome : Outcome Nat}
    (h : Expands library levels underway w outcome) (hwf : w.doc.WellFormed) :
    Agrees root [] (w.doc.children root) w (library.expected levels underway w.doc) outcome := by
  induction levels generalizing underway w outcome with
  | zero => exact Sweeps.agrees h (exact_refused underway).sound hwf rfl (List.nil_append _).symm rfl
  | succ levels ih =>
    refine Sweeps.agrees h (exact_replaces hregular ?_).sound hwf rfl (List.nil_append _).symm rfl
    exact fun hwf hn => ih hn hwf

/-! ### Expansions end -/

/-- The steps of replacing an import end if the expansion of the source does. -/
private theorem replaces_steps (hregular : library.Regular) {nested : List String → Workspace → Outcome Nat → Prop}
    {expandAll : List String → Pass Nat}
    (hnested : ∀ {underway w}, w.doc.WellFormed → nested underway w (expandAll underway w)) (parent node : Nat)
    (href : String) (w : Workspace) :
    Replaces library underway nested parent node href w
      ((do
        let (source, doc) ← fetch library underway href
        let (count, content) ← onDocument doc (expandAll (source.uri :: underway))
        let nodes ← replace parent node content
        pure (nodes, count + 1)) w) := by
  simp only [run_bind]
  cases hfetch : fetch library underway href w with
  | error e w' => exact Replaces.unavailable hfetch
  | ok found w₁ =>
    obtain ⟨source, doc⟩ := found
    obtain ⟨-, -, hwf, -⟩ := fetched hregular 0 rfl hfetch
    have hn : nested (source.uri :: underway) { w₁ with doc } (expandAll (source.uri :: underway) { w₁ with doc }) :=
      hnested hwf
    simp only [onDocument]
    generalize expandAll (source.uri :: underway) { w₁ with doc } = outcome at hn ⊢
    cases outcome with
    | error e w₂ => exact Replaces.stopped hfetch hn
    | ok count w₂ =>
      simp only
      cases hreplace : replace parent node w₂.doc { w₂ with doc := w₁.doc } with
      | error e w' => exact Replaces.misplaced hfetch hn hreplace
      | ok nodes w' => exact Replaces.done hfetch hn hreplace

/-- The expansion of the imports of a document comes to an end of its own. -/
theorem expands_expandWithin (hregular : library.Regular) (levels : Nat) (underway : List String)
    (hwf : w.doc.WellFormed) : Expands library levels underway w (expandWithin library levels underway w) := by
  induction levels generalizing underway w with
  | zero =>
    rw [expandWithin]
    simp only [run_bind, run_view]
    refine sweeps_sweep (exact_refused underway).sound ?_ hwf rfl (List.nil_append _).symm rfl
      (hwf.sizeAll_children_lt hwf.root_lt_next)
    exact fun _ _ _ => rfl
  | succ levels ih =>
    rw [expandWithin]
    simp only [run_bind, run_view]
    refine sweeps_sweep (exact_replaces hregular fun hwf hn => Expands.agrees hregular hn hwf).sound ?_ hwf rfl
      (List.nil_append _).symm rfl (hwf.sizeAll_children_lt hwf.root_lt_next)
    intro w' node child href pre post _ _ _
    exact replaces_steps hregular (fun hwf => ih _ hwf) node child href w'

/-! ### Whole documents -/

theorem expandWithin_agrees (hregular : library.Regular) (levels : Nat) (underway : List String)
    (hwf : w.doc.WellFormed) :
    Agrees root [] (w.doc.children root) w (library.expected levels underway w.doc)
      (expandWithin library levels underway w) :=
  (expands_expandWithin hregular levels underway hwf).agrees hregular hwf

/-- What the pass comes to, in terms of the content of the document. -/
theorem expected_of_expandImports (hregular : library.Regular) (hwf : w.doc.WellFormed) :
    match expandImports library w with
    | .ok n _ => ∃ fs, library.expected library.maxDepth [] w.doc = .ok (fs, n)
    | .error e _ => library.expected library.maxDepth [] w.doc = .error e := by
  have hagrees := expandWithin_agrees hregular library.maxDepth [] hwf
  unfold expandImports
  simp only [run_bind]
  generalize expandWithin library library.maxDepth [] w = outcome at hagrees ⊢
  cases outcome with
  | ok n w' =>
    obtain ⟨fs, -, hexpected, -⟩ := hagrees
    exact ⟨fs, hexpected⟩
  | error e w' => exact hagrees.1

/-- What an expansion that succeeds leaves behind. Of the run only the count of imports has changed. -/
theorem expanded_of_expandImports (hregular : library.Regular) (hwf : w.doc.WellFormed) {w' : Workspace} {n : Nat}
    (hrun : expandImports library w = .ok n w') :
    library.expected library.maxDepth [] w.doc = .ok ((w'.doc.children root).map w'.doc.fragment, n) ∧
      w'.doc.WellFormed ∧ Frame w.doc w'.doc (w.doc.children root) (some root) ∧
      w'.run = { w.run with stats := { w.run.stats with imports := w.run.stats.imports + n } } := by
  have hagrees := expandWithin_agrees hregular library.maxDepth [] hwf
  rw [expandImports, run_bind] at hrun
  generalize expandWithin library library.maxDepth [] w = outcome at hagrees hrun
  cases outcome with
  | error e w₁ => cases hrun
  | ok count w₁ =>
    obtain ⟨fs, new, hexpected, hwf₁, hrun₁, hframe, hnew, rfl⟩ := hagrees
    obtain ⟨⟩ := hrun
    refine ⟨?_, hwf₁, hframe, ?_⟩
    · simpa [hnew] using hexpected
    · simp only [hrun₁]

/-- If the fragment at the root is expanded below it, then so is every node in the tree. -/
theorem reference?_eq_none_of_isAttached {doc : Document} (hwf : doc.WellFormed)
    (h : ExpandedAll (doc.fragment root).children) {x : Nat} (hx : doc.isAttached x = true) (hne : x ≠ root) :
    reference? (doc.kind x) = none := by
  have hbelow : ∀ {p c}, ExpandedAll (doc.fragment p).children → doc.parent c = some p → Expanded (doc.fragment c) := by
    intro p c hp hc
    rw [hwf.children_fragment, expandedAll_iff] at hp
    exact hp _ (List.mem_map_of_mem (hwf.mem_children_iff.2 hc))
  have hexpanded : x = root ∨ Expanded (doc.fragment x) := by
    refine Spans.climb (motive := fun x => x = root ∨ Expanded (doc.fragment x)) (Or.inl rfl) ?_
      (hwf.isAttached_iff.1 hx)
    rintro c p hp - (rfl | ih)
    · exact Or.inr (hbelow h hp)
    · rw [hwf.fragment_eq, Expanded] at ih
      exact Or.inr (hbelow (by rw [hwf.children_fragment]; exact ih.2) hp)
  have hx := hexpanded.resolve_left hne
  rw [hwf.fragment_eq, Expanded] at hx
  exact hx.1

/-- Expanding the imports of a document agrees with expanding those of the content of its root by value: it fails with
the same error, or the root has the same content afterwards, as many imports are counted, and none to be expanded is
left in the tree. -/
theorem expandImports_refines_spliceAll (library : Library) (w : Workspace) (hregular : library.Regular)
    (hwf : w.doc.WellFormed) :
    match spliceAll (library.content library.maxDepth [] w.doc.directory?) (w.doc.fragment root).children with
    | .error e => ∃ w', expandImports library w = .error e w'
    | .ok (fs, n) => ∃ w', expandImports library w = .ok n w' ∧
        w'.doc.fragment root = ⟨w.doc.kind root, fs⟩ ∧ w'.run.stats.imports = w.run.stats.imports + n ∧
        ∀ x, w'.doc.isAttached x = true → x ≠ root → reference? (w'.doc.kind x) = none := by
  have hagrees := expandWithin_agrees hregular library.maxDepth [] hwf
  unfold expandImports
  simp only [run_bind]
  rw [hwf.children_fragment]
  change Agrees _ _ _ _ (spliceAll _ _) _ at hagrees
  generalize expandWithin library library.maxDepth [] w = outcome at hagrees ⊢
  cases outcome with
  | error e w' =>
    rw [hagrees.1]
    exact ⟨w', rfl⟩
  | ok n w' =>
    obtain ⟨fs, new, hexpected, hwf', hrun, hframe, hnew, hfragments⟩ := hagrees
    rw [hexpected]
    have hkind : w'.doc.kind root = w.doc.kind root := by
      apply hframe.kind_eq
      exact ⟨hwf.root_lt_next, fun t ht => hwf.not_spans_parent (hwf.mem_children_iff.1 ht)⟩
    have hfragment : w'.doc.fragment root = ⟨w.doc.kind root, fs⟩ := by
      rw [hwf'.fragment_eq, hkind, hnew, List.nil_append, hfragments]
    refine ⟨_, rfl, hfragment, by rw [← hrun], ?_⟩
    intro x hx hne
    refine reference?_eq_none_of_isAttached hwf' ?_ hx hne
    rw [hfragment]
    exact spliceAll_expanded (fun h => library.content_expanded h) hexpected

/-- Two stylesheets in one directory, the first of which imports the second and a plain CSS file. -/
def shelf : Library where
  chain := some [((MemoryStore.mk ∅).add "lib/a.scss" "outer" |>.add "lib/_b.scss" "inner").provider]
  fallback := []
  parse source := .ok <|
    if source.contents = "outer" then
      ⟨#[{ kind := .stylesheet none, slots := #[1, 2] }, { kind := .importRule "b" none, parent := some 0 },
         { kind := .importRule "b.css" none, parent := some 0 }]⟩
    else ⟨#[{ kind := .stylesheet none, slots := #[1] }, { kind := .raw "x", parent := some 0 }]⟩
  maxDepth := 2

/-- A stylesheet that imports the first of these inside of a rule. -/
def page : Workspace where
  doc := ⟨#[{ kind := .stylesheet none, slots := #[1, 3] }, { kind := .rule ".a", parent := some 0, slots := #[2] },
            { kind := .importRule "lib/a" none, parent := some 1 }, { kind := .raw "y", parent := some 0 }]⟩

theorem expandImports_page :
    ∃ w', expandImports shelf page = .ok 2 w' ∧
      w'.doc.fragment root = ⟨.stylesheet none,
        [⟨.rule ".a", [⟨.raw "x", []⟩, ⟨.importRule "b.css" none, []⟩]⟩, ⟨.raw "y", []⟩]⟩ ∧
      w'.run.stats.imports = 2 ∧
      ∀ x, w'.doc.isAttached x = true → x ≠ root → reference? (w'.doc.kind x) = none := by
  have hregular : shelf.Regular := by
    intro source doc h
    obtain rfl := Except.ok.inj h
    split
    · exact (ofFragment_spec (f := ⟨.stylesheet none, [⟨.importRule "b" none, []⟩, ⟨.importRule "b.css" none, []⟩]⟩)
        rfl).1
    · exact (ofFragment_spec (f := ⟨.stylesheet none, [⟨.raw "x", []⟩]⟩) rfl).1
  have hwf : page.doc.WellFormed :=
    (ofFragment_spec (f := ⟨.stylesheet none, [⟨.rule ".a", [⟨.importRule "lib/a" none, []⟩]⟩, ⟨.raw "y", []⟩]⟩) rfl).1
  have hvalue : spliceAll (shelf.content shelf.maxDepth [] page.doc.directory?) (page.doc.fragment root).children =
      .ok ([⟨.rule ".a", [⟨.raw "x", []⟩, ⟨.importRule "b.css" none, []⟩]⟩, ⟨.raw "y", []⟩], 2) := by
    decide +kernel
  have h := expandImports_refines_spliceAll shelf page hregular hwf
  rw [hvalue] at h
  exact h

end NestedStyles.Import
