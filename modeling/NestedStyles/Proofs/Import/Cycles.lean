import Mathlib.Data.Finset.Card
import NestedStyles.Proofs.Import.Refinement

/-!
# Imports that go in circles

While the imports of a document are expanded, the expansion of one source runs inside that of another one, and so on
outwards (`Reached`). The names of these sources are all different, since a source that is under way already is refused.
So if only so many names occur, and imports may nest deeper than that, a chain of imports ends before it is too deep
(`Reached.length_le`). Conversely a source is refused as circular only where a chain of imports really leads from it
back to its own name. Every error comes from an import somewhere in such a chain (`exists_reached_of_error`), and where
all goes well no import in any of them fails (`Reached.expected_ok`).
-/

namespace NestedStyles

open Document

namespace Import

mutual

/-- The references of the imports to be expanded in a fragment, in document order. What is below such an import is not
looked at. -/
def references : Fragment → List String
  | ⟨kind, children⟩ =>
    match reference? kind with
    | some href => [href]
    | none => referencesAll children

def referencesAll : List Fragment → List String
  | [] => []
  | f :: fs => references f ++ referencesAll fs

end

/-- The references of the imports to be expanded in a document. -/
def referencesIn (doc : Document) : List String := referencesAll (doc.fragment root).children

namespace Library

/-- The source that a reference stands for in a stylesheet of the given directory. -/
def target? (library : Library) (directory : Option String) (href : String) : Option Source :=
  ((library.chain.getD library.fallback).find (resolve href directory)).1

/-- An import that is written in the first source names the second one. -/
def LeadsTo (library : Library) (source next : Source) : Prop :=
  ∃ doc href, library.parse source = .ok doc ∧ href ∈ referencesIn doc ∧
    library.target? (directoryIn source doc) href = some next

/-- No chain of imports leads from a source back to its own name. -/
def Acyclic (library : Library) : Prop :=
  ∀ first again, Relation.TransGen library.LeadsTo first again → first.uri ≠ again.uri

end Library

/-- In expanding the imports of `start` those of a document are to be expanded, when imports may nest so many more
levels deep and the given sources are under way, the innermost first. -/
inductive Reached (library : Library) (start : Document) : (levels : Nat) → List Source → Document → Prop
  | start : Reached library start library.maxDepth [] start
  | nested {levels : Nat} {sources : List Source} {outer inner : Document} {href : String} {source : Source}
      (h : Reached library start (levels + 1) sources outer) (hhref : href ∈ referencesIn outer)
      (hlookup : library.lookup (sources.map (·.uri)) outer.directory? href = .ok (source, inner)) :
      Reached library start levels (source :: sources) (inner.setDirectory source.directory?)

variable {library : Library} {start doc inner : Document} {levels : Nat} {sources : List Source} {href : String}
  {source : Source} {underway : List String} {directory : Option String}

/-! ### References -/

mutual

private theorem exists_of_splice_error {content : String → Expansion} : ∀ {f e}, splice content f = .error e →
    ∃ href ∈ references f, content href = .error e
  | ⟨kind, children⟩, e, h => by
    rw [splice] at h
    rw [references]
    cases hkind : reference? kind with
    | some href =>
      simp only [hkind] at h
      exact ⟨href, List.mem_singleton_self href, h⟩
    | none =>
      simp only [hkind] at h
      split at h
      · next hbelow =>
        obtain rfl := Except.error.inj h
        exact exists_of_spliceAll_error hbelow
      · simp at h

/-- Splicing fails where one of the imports does. -/
theorem exists_of_spliceAll_error {content : String → Expansion} : ∀ {fs e}, spliceAll content fs = .error e →
    ∃ href ∈ referencesAll fs, content href = .error e
  | [], e, h => by simp [spliceAll] at h
  | f :: fs, e, h => by
    rw [spliceAll] at h
    split at h
    · next hfirst =>
      obtain rfl := Except.error.inj h
      obtain ⟨href, hmem, hcontent⟩ := exists_of_splice_error hfirst
      exact ⟨href, List.mem_append_left _ hmem, hcontent⟩
    · unfold prepend at h
      split at h
      · next hrest =>
        obtain rfl := Except.error.inj h
        obtain ⟨href, hmem, hcontent⟩ := exists_of_spliceAll_error hrest
        exact ⟨href, List.mem_append_right _ hmem, hcontent⟩
      · simp at h

end

mutual

private theorem content_ok_of_splice {content : String → Expansion} : ∀ {f r}, splice content f = .ok r →
    ∀ href ∈ references f, ∃ r', content href = .ok r'
  | ⟨kind, children⟩, r, h => by
    rw [splice] at h
    rw [references]
    cases hkind : reference? kind with
    | some href =>
      simp only [hkind] at h
      intro href' hmem
      rw [List.mem_singleton.1 hmem]
      exact ⟨r, h⟩
    | none =>
      simp only [hkind] at h
      split at h
      · simp at h
      · next hbelow => exact content_ok_of_spliceAll hbelow

/-- Splicing succeeds only if all imports do. -/
theorem content_ok_of_spliceAll {content : String → Expansion} : ∀ {fs r}, spliceAll content fs = .ok r →
    ∀ href ∈ referencesAll fs, ∃ r', content href = .ok r'
  | [], r, _ => by simp [referencesAll]
  | f :: fs, r, h => by
    rw [spliceAll] at h
    intro href hmem
    rw [referencesAll, List.mem_append] at hmem
    split at h
    · simp at h
    · next hfirst =>
      unfold prepend at h
      split at h
      · simp at h
      · next hrest =>
        rcases hmem with hmem | hmem
        · exact content_ok_of_splice hfirst href hmem
        · exact content_ok_of_spliceAll hrest href hmem

end

/-! ### Looking a source up -/

/-- A lookup is the target of the reference, unless that is under way or cannot be parsed. -/
theorem Library.lookup_eq (library : Library) (underway : List String) (directory : Option String) (href : String) :
    library.lookup underway directory href = match library.target? directory href with
      | none => .error (.importNotFound href (resolve href directory))
      | some source =>
        if underway.contains source.uri then .error (.circularImport source.uri)
        else match library.parse source with
          | .error error => .error (.parse error)
          | .ok doc => .ok (source, doc) := rfl

theorem Library.lookup_ok (h : library.lookup underway directory href = .ok (source, doc)) :
    library.target? directory href = some source ∧ source.uri ∉ underway ∧ library.parse source = .ok doc := by
  rw [Library.lookup_eq] at h
  split at h
  · simp at h
  · next found htarget =>
    split at h
    · simp at h
    · next hnot =>
      split at h
      · simp at h
      · next hparse =>
        simp only [Except.ok.injEq, Prod.mk.injEq] at h
        obtain ⟨rfl, rfl⟩ := h
        exact ⟨htarget, by simpa using hnot, hparse⟩

/-- A source that is under way is refused. -/
theorem Library.lookup_underway (htarget : library.target? directory href = some source)
    (hmem : source.uri ∈ underway) : library.lookup underway directory href = .error (.circularImport source.uri) := by
  rw [Library.lookup_eq, htarget]
  simp only [List.contains_iff_mem.2 hmem, if_true]

/-- What can be wrong with a single import, when nesting is not. -/
theorem Library.lookup_error_cases {e : CompileError} (h : library.lookup underway directory href = .error e) :
    (∃ source, library.target? directory href = some source ∧ source.uri ∈ underway ∧
        e = .circularImport source.uri) ∨
      (∃ identifier, e = .importNotFound href identifier) ∨ ∃ error, e = .parse error := by
  rw [Library.lookup_eq] at h
  split at h
  · exact Or.inr (Or.inl ⟨_, (Except.error.inj h).symm⟩)
  · next found htarget =>
    split at h
    · next hmem => exact Or.inl ⟨found, htarget, by simpa using hmem, (Except.error.inj h).symm⟩
    · split at h
      · exact Or.inr (Or.inr ⟨_, (Except.error.inj h).symm⟩)
      · simp at h

/-- The content of an import is what its source holds, expanded one level deeper. -/
theorem Library.content_of_lookup (hregular : library.Regular) (levels : Nat)
    (hlookup : library.lookup underway directory href = .ok (source, inner)) :
    library.content (levels + 1) underway directory href =
      oneMore (library.expected levels (source.uri :: underway) (inner.setDirectory source.directory?)) := by
  have hwf := hregular.lookup_wf hlookup
  rw [Library.content, Library.expected, directory?_setDirectory hwf, ← (hwf.setDirectory _).children_fragment,
    children_fragment_setDirectory hwf]
  simp only [hlookup]

theorem Library.expected_eq (hwf : doc.WellFormed) (levels : Nat) (underway : List String) :
    library.expected levels underway doc =
      spliceAll (library.content levels underway doc.directory?) (doc.fragment root).children := by
  rw [Library.expected, hwf.children_fragment]

/-! ### Chains of imports -/

namespace Reached

theorem wf (h : Reached library start levels sources doc) (hregular : library.Regular) (hwf : start.WellFormed) :
    doc.WellFormed := by
  cases h with
  | start => exact hwf
  | nested _ _ hlookup => exact (hregular.lookup_wf hlookup).setDirectory _

/-- The names of the sources under way are different. -/
theorem nodup (h : Reached library start levels sources doc) : (sources.map (·.uri)).Nodup := by
  induction h with
  | start => exact List.nodup_nil
  | nested _ _ hlookup ih => exact List.nodup_cons.2 ⟨(Library.lookup_ok hlookup).2.1, ih⟩

/-- There are as many of them as the expansion is levels deep. -/
theorem length_add (h : Reached library start levels sources doc) : sources.length + levels = library.maxDepth := by
  induction h with
  | start => exact Nat.zero_add _
  | nested _ _ _ ih =>
    rw [List.length_cons]
    omega

/-- Their names are among those that occur at all. -/
theorem uris_subset {uris : Finset String} (h : Reached library start levels sources doc)
    (huris : ∀ directory href source, library.target? directory href = some source → source.uri ∈ uris) :
    (sources.map (·.uri)).toFinset ⊆ uris := by
  induction h with
  | start => simp
  | nested _ _ hlookup ih =>
    rw [List.map_cons, List.toFinset_cons]
    exact Finset.insert_subset (huris _ _ _ (Library.lookup_ok hlookup).1) ih

/-- So there are no more sources under way than there are names. -/
theorem length_le {uris : Finset String} (h : Reached library start levels sources doc)
    (huris : ∀ directory href source, library.target? directory href = some source → source.uri ∈ uris) :
    sources.length ≤ uris.card := by
  have hcard := Finset.card_le_card (h.uris_subset huris)
  rwa [List.toFinset_card_of_nodup h.nodup, List.length_map] at hcard

/-- Once all names are under way, whatever is found is under way. -/
theorem uri_underway {uris : Finset String} (h : Reached library start levels sources doc)
    (huris : ∀ directory href source, library.target? directory href = some source → source.uri ∈ uris)
    (hall : sources.length = uris.card) (htarget : library.target? directory href = some source) :
    source.uri ∈ sources.map (·.uri) := by
  have heq : (sources.map (·.uri)).toFinset = uris := by
    apply Finset.eq_of_subset_of_card_le (h.uris_subset huris)
    rw [List.toFinset_card_of_nodup h.nodup, List.length_map, hall]
  rw [← List.mem_toFinset, heq]
  exact huris _ _ _ htarget

/-- The document at hand is what was read from the innermost source. -/
theorem parse_head {rest : List Source} (h : Reached library start levels (source :: rest) doc) :
    ∃ inner, library.parse source = .ok inner ∧ doc = inner.setDirectory source.directory? := by
  cases h with
  | nested _ _ hlookup => exact ⟨_, (Library.lookup_ok hlookup).2.2, rfl⟩

/-- An import in the document at hand is one that is written in the innermost source. -/
theorem leadsTo {rest : List Source} {next : Source} (h : Reached library start levels (source :: rest) doc)
    (hregular : library.Regular) (hhref : href ∈ referencesIn doc)
    (htarget : library.target? doc.directory? href = some next) : library.LeadsTo source next := by
  obtain ⟨inner, hparse, rfl⟩ := h.parse_head
  have hwf := hregular source inner hparse
  rw [directory?_setDirectory hwf] at htarget
  rw [referencesIn, children_fragment_setDirectory hwf] at hhref
  exact ⟨inner, href, hparse, hhref, htarget⟩

/-- Each source under way leads to whatever the document at hand imports. -/
theorem transGen {first next : Source} (h : Reached library start levels sources doc) (hregular : library.Regular)
    (hfirst : first ∈ sources) (hhref : href ∈ referencesIn doc)
    (htarget : library.target? doc.directory? href = some next) : Relation.TransGen library.LeadsTo first next := by
  induction h generalizing href next with
  | start => simp at hfirst
  | @nested levels sources outer inner href' source h hhref' hlookup ih =>
    have hstep : library.LeadsTo source next := (Reached.nested h hhref' hlookup).leadsTo hregular hhref htarget
    rcases List.mem_cons.1 hfirst with rfl | hfirst
    · exact Relation.TransGen.single hstep
    · exact (ih hfirst hhref' (Library.lookup_ok hlookup).1).tail hstep

/-- If the whole expansion succeeds, then so does each expansion inside it. -/
theorem expected_ok (h : Reached library start levels sources doc) (hregular : library.Regular)
    (hwf : start.WellFormed) {r : List Fragment × Nat} (hstart : library.expected library.maxDepth [] start = .ok r) :
    ∃ r', library.expected levels (sources.map (·.uri)) doc = .ok r' := by
  induction h with
  | start => exact ⟨r, hstart⟩
  | @nested levels sources outer inner href source h hhref hlookup ih =>
    obtain ⟨outside, houtside⟩ := ih
    rw [Library.expected_eq (h.wf hregular hwf)] at houtside
    obtain ⟨content, hcontent⟩ := content_ok_of_spliceAll houtside href hhref
    rw [Library.content_of_lookup hregular levels hlookup] at hcontent
    unfold oneMore at hcontent
    split at hcontent
    · simp at hcontent
    · next inside hinside => exact ⟨_, hinside⟩

end Reached

/-- Every error comes from an import that was reached: it is nested too deep, or it cannot be looked up. -/
theorem exists_reached_of_error (hregular : library.Regular) (hwf : start.WellFormed) {e : CompileError}
    (h : Reached library start levels sources doc)
    (herror : library.expected levels (sources.map (·.uri)) doc = .error e) :
    ∃ levels' sources' doc', Reached library start levels' sources' doc' ∧ ∃ href ∈ referencesIn doc',
      levels' = 0 ∧ e = .importDepth href library.maxDepth ∨
        library.lookup (sources'.map (·.uri)) doc'.directory? href = .error e := by
  induction levels generalizing sources doc with
  | zero =>
    rw [Library.expected_eq (h.wf hregular hwf)] at herror
    obtain ⟨href, hhref, hcontent⟩ := exists_of_spliceAll_error herror
    exact ⟨0, sources, doc, h, href, hhref, Or.inl ⟨rfl, (Except.error.inj hcontent).symm⟩⟩
  | succ levels ih =>
    rw [Library.expected_eq (h.wf hregular hwf)] at herror
    obtain ⟨href, hhref, hcontent⟩ := exists_of_spliceAll_error herror
    cases hlookup : library.lookup (sources.map (·.uri)) doc.directory? href with
    | error e' =>
      simp only [Library.content, hlookup] at hcontent
      obtain rfl := Except.error.inj hcontent
      exact ⟨levels + 1, sources, doc, h, href, hhref, Or.inr hlookup⟩
    | ok found =>
      obtain ⟨source, inner⟩ := found
      rw [Library.content_of_lookup hregular levels hlookup] at hcontent
      unfold oneMore at hcontent
      split at hcontent
      · next hinside =>
        obtain rfl := Except.error.inj hcontent
        exact ih (Reached.nested h hhref hlookup) hinside
      · simp at hcontent

/-! ### Whole documents -/

open Pass

variable {w w' : Workspace}

/-- The pass fails at an import that it has reached. -/
private theorem exists_reached_of_failure {e : CompileError} (hregular : library.Regular) (hwf : w.doc.WellFormed)
    (hrun : expandImports library w = .error e w') :
    ∃ levels sources doc, Reached library w.doc levels sources doc ∧ ∃ href ∈ referencesIn doc,
      levels = 0 ∧ e = .importDepth href library.maxDepth ∨
        library.lookup (sources.map (·.uri)) doc.directory? href = .error e := by
  have hexpected := expected_of_expandImports hregular hwf
  rw [hrun] at hexpected
  exact exists_reached_of_error hregular hwf Reached.start hexpected

/-- Where a source that is under way is imported again, the pass does not succeed. -/
private theorem fails_of_underway (hregular : library.Regular) (hwf : w.doc.WellFormed)
    (h : Reached library w.doc levels sources doc) (hhref : href ∈ referencesIn doc)
    (htarget : library.target? doc.directory? href = some source) (hmem : source.uri ∈ sources.map (·.uri)) :
    ∃ e w', expandImports library w = .error e w' := by
  have hexpected := expected_of_expandImports hregular hwf
  cases hrun : expandImports library w with
  | error e w' => exact ⟨e, w', rfl⟩
  | ok n w' =>
    rw [hrun] at hexpected
    obtain ⟨fs, hexpected⟩ := hexpected
    obtain ⟨r, hinside⟩ := h.expected_ok hregular hwf hexpected
    rw [Library.expected_eq (h.wf hregular hwf)] at hinside
    obtain ⟨r', hcontent⟩ := content_ok_of_spliceAll hinside href hhref
    -- an import has no content if it is nested too deep or its source is under way
    cases levels with
    | zero => simp [Library.content] at hcontent
    | succ levels => simp [Library.content, Library.lookup_underway htarget hmem] at hcontent

/-- A source is refused as circular only if it leads back to its own name. -/
private theorem exists_cycle_of_circular {u : String} (hregular : library.Regular) (hwf : w.doc.WellFormed)
    (hrun : expandImports library w = .error (.circularImport u) w') :
    ∃ levels sources doc first again, Reached library w.doc levels sources doc ∧ first ∈ sources ∧
      first.uri = u ∧ again.uri = u ∧ Relation.TransGen library.LeadsTo first again := by
  obtain ⟨levels, sources, doc, h, href, hhref, ⟨-, he⟩ | hlookup⟩ := exists_reached_of_failure hregular hwf hrun
  · simp at he
  · rcases Library.lookup_error_cases hlookup with ⟨again, htarget, hmem, he⟩ | ⟨_, he⟩ | ⟨_, he⟩
    · obtain rfl := CompileError.circularImport.inj he
      obtain ⟨first, hfirst, huri⟩ := List.mem_map.1 hmem
      exact ⟨levels, sources, doc, first, again, h, hfirst, huri, rfl, h.transGen hregular hfirst hhref htarget⟩
    · simp at he
    · simp at he

/-- With fewer names than imports may nest deep, an import fails for any reason but its depth. -/
private theorem cause_of_failure {e : CompileError} (hregular : library.Regular) (hwf : w.doc.WellFormed)
    (hlevels : ∀ {levels sources doc}, Reached library w.doc levels sources doc → 0 < levels)
    (hrun : expandImports library w = .error e w') :
    (∃ u, e = .circularImport u) ∨ (∃ href identifier, e = .importNotFound href identifier) ∨
      ∃ error, e = .parse error := by
  obtain ⟨levels, sources, doc, h, href, -, ⟨hzero, -⟩ | hlookup⟩ := exists_reached_of_failure hregular hwf hrun
  · have hpos := hlevels h
    omega
  · rcases Library.lookup_error_cases hlookup with ⟨again, -, -, he⟩ | ⟨identifier, he⟩ | hparse
    · exact Or.inl ⟨again.uri, he⟩
    · exact Or.inr (Or.inl ⟨href, identifier, he⟩)
    · exact Or.inr (Or.inr hparse)

/-- Cycles are found as cycles. The sources under way at any time have different names, and are as many as imports are
nested deep. If there are fewer names than imports may nest deep, then nesting is never too deep. When all names are
under way, an import can only meet one of them again, where it is refused as circular, and the pass fails, for that
reason or because some import was not found or not parsed. Conversely an import is refused as circular only if a source
of that name was reached from which a chain of imports leads back to the name, so never where there is no such chain,
however often a source is imported. -/
theorem expandImports_finds_cycles (library : Library) (w : Workspace) (uris : Finset String)
    (hregular : library.Regular) (hwf : w.doc.WellFormed)
    (huris : ∀ identifier source, ((library.chain.getD library.fallback).find identifier).1 = some source →
      source.uri ∈ uris) :
    (∀ levels sources doc, Reached library w.doc levels sources doc →
      (sources.map (·.uri)).Nodup ∧ sources.length + levels = library.maxDepth ∧ sources.length ≤ uris.card) ∧
    (uris.card < library.maxDepth →
      (∀ href limit w', expandImports library w ≠ .error (.importDepth href limit) w') ∧
      ∀ levels sources doc, Reached library w.doc levels sources doc → 0 < levels ∧
        ∀ href ∈ referencesIn doc, ∀ source, library.target? doc.directory? href = some source →
          (sources.length = uris.card → source.uri ∈ sources.map (·.uri)) ∧
          (source.uri ∈ sources.map (·.uri) →
            (∀ w₁ : Workspace, w₁.doc.directory? = doc.directory? →
              ∃ w₂, fetch library (sources.map (·.uri)) href w₁ = .error (.circularImport source.uri) w₂) ∧
            ∃ e w', expandImports library w = .error e w' ∧ ((∃ u, e = .circularImport u) ∨
              (∃ href identifier, e = .importNotFound href identifier) ∨ ∃ error, e = .parse error))) ∧
    (∀ u w', expandImports library w = .error (.circularImport u) w' →
      ∃ levels sources doc first again, Reached library w.doc levels sources doc ∧ first ∈ sources ∧
        first.uri = u ∧ again.uri = u ∧ Relation.TransGen library.LeadsTo first again) ∧
    (library.Acyclic → ∀ u w', expandImports library w ≠ .error (.circularImport u) w') := by
  have htargets : ∀ directory href source, library.target? directory href = some source → source.uri ∈ uris :=
    fun directory href source => huris _ source
  refine ⟨?_, ?_, fun u w' hrun => exists_cycle_of_circular hregular hwf hrun, ?_⟩
  · exact fun levels sources doc h => ⟨h.nodup, h.length_add, h.length_le htargets⟩
  · intro hcard
    have hlevels : ∀ {levels sources doc}, Reached library w.doc levels sources doc → 0 < levels := by
      intro levels sources doc h
      have hlength := h.length_add
      have hle := h.length_le htargets
      omega
    refine ⟨?_, fun levels sources doc h => ⟨hlevels h, ?_⟩⟩
    · intro href limit w' hrun
      rcases cause_of_failure hregular hwf hlevels hrun with ⟨_, he⟩ | ⟨_, _, he⟩ | ⟨_, he⟩ <;> simp at he
    · intro href hhref source htarget
      refine ⟨fun hall => h.uri_underway htargets hall htarget, fun hmem => ⟨?_, ?_⟩⟩
      · intro w₁ hdirectory
        obtain ⟨installed, log, hrun⟩ := fetch_run library (sources.map (·.uri)) href w₁
        rw [hdirectory, Library.lookup_underway htarget hmem] at hrun
        exact ⟨_, hrun⟩
      · obtain ⟨e, w', hrun⟩ := fails_of_underway hregular hwf h hhref htarget hmem
        exact ⟨e, w', hrun, cause_of_failure hregular hwf hlevels hrun⟩
  · intro hacyclic u w' hrun
    obtain ⟨_, _, _, first, again, -, -, hfirst, hagain, hleads⟩ := exists_cycle_of_circular hregular hwf hrun
    exact hacyclic first again hleads (hfirst.trans hagain.symm)

/-- A stylesheet that consists of imports. -/
def sheet (hrefs : List String) : Fragment := ⟨.stylesheet none, hrefs.map fun href => ⟨.importRule href none, []⟩⟩

/-- Five sources. The first two import the third one, and the last two import each other. -/
def tangle : Library where
  chain := some [{ name := "tangle", find := fun identifier =>
    (if identifier ∈ ["a", "b", "c", "d", "e"] then some ⟨identifier, ""⟩ else none, []) }]
  fallback := []
  parse source := (ofFragment (sheet (match source.uri with
    | "a" | "b" => ["c"]
    | "d" => ["e"]
    | "e" => ["d"]
    | _ => []))).mapError fun error => { uri := source.uri, reason := error.message }
  maxDepth := 6

/-- A stylesheet with two imports. -/
def importingBoth (first second : String) : Workspace where
  doc := ⟨#[{ kind := .stylesheet none, slots := #[1, 2] }, { kind := .importRule first none, parent := some 0 },
            { kind := .importRule second none, parent := some 0 }]⟩

theorem tangle_cycles :
    Outcome.result (expandImports tangle (importingBoth "a" "b")) = .ok 4 ∧
      Outcome.result (expandImports tangle (importingBoth "a" "d")) = .error (.circularImport "d") ∧
      (∀ href limit w', expandImports tangle (importingBoth "a" "d") ≠ .error (.importDepth href limit) w') ∧
      ∃ first again : Source, first.uri = "d" ∧ again.uri = "d" ∧ Relation.TransGen tangle.LeadsTo first again := by
  have hregular : tangle.Regular := by
    intro source doc h
    simp only [tangle, Except.mapError] at h
    split at h
    · simp at h
    · next hdoc =>
      obtain rfl := Except.ok.inj h
      exact (ofFragment_spec hdoc).1
  have hwf : (importingBoth "a" "d").doc.WellFormed := (ofFragment_spec (f := sheet ["a", "d"]) rfl).1
  have huris : ∀ identifier source, ((tangle.chain.getD tangle.fallback).find identifier).1 = some source →
      source.uri ∈ ["a", "b", "c", "d", "e"].toFinset := by
    intro identifier source h
    rw [List.mem_toFinset]
    by_cases hmem : identifier ∈ ["a", "b", "c", "d", "e"]
    · simp only [tangle, Option.getD_some, Chain.find, if_pos hmem, Option.some.injEq] at h
      rw [← h]
      exact hmem
    · simp only [tangle, Option.getD_some, Chain.find, if_neg hmem, reduceCtorEq] at h
  have hcircular : Outcome.result (expandImports tangle (importingBoth "a" "d")) =
      .error (.circularImport "d") := by
    decide +kernel
  obtain ⟨-, hdepth, h, -⟩ := expandImports_finds_cycles tangle (importingBoth "a" "d") _ hregular hwf huris
  refine ⟨by decide +kernel, hcircular, (hdepth (by decide)).1, ?_⟩
  obtain ⟨w', hrun⟩ := Outcome.exists_of_result_eq_error hcircular
  obtain ⟨_, _, _, first, again, -, -, hfirst, hagain, hleads⟩ := h "d" w' hrun
  exact ⟨first, again, hfirst, hagain, hleads⟩

end Import

end NestedStyles
