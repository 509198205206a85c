import NestedStyles.Proofs.Compiler.Flatness
import NestedStyles.Proofs.Walk.Loosening

/-!
# Compiling with looser settings

A compiler is looser than another one if it asks further providers after the same ones, allows imports to nest as deep
and as many mixins to be expanded at least, and is not strict unless the other one is. What one compiler succeeds with,
a looser one compiles to the same, down to the numbers of the nodes and the log (`compile_looser`). For both take the
same steps: a further provider is not asked where the first ones have an answer, and neither a limit nor strictness
changes what a step does that is not refused.
-/

namespace NestedStyles

open Document Pass

/-- Providers at the end of a chain do not matter where those before them have an answer. -/
theorem Chain.find_append {identifier : String} {source : Source} {chain : Chain} (more : Chain)
    (h : (Chain.find identifier chain).1 = some source) :
    Chain.find identifier (chain ++ more) = Chain.find identifier chain := by
  induction chain with
  | nil => simp [Chain.find] at h
  | cons provider rest ih =>
    rw [List.cons_append, Chain.find, Chain.find]
    rw [Chain.find] at h
    rcases hfind : provider.find identifier with ⟨_ | found, events⟩
    · rw [hfind] at h
      simp only [ih h]
    · rfl

namespace Import

/-- The second library finds at least what the first one does, in a chain that was chosen for each. -/
structure Library.Looser (library loose : Library) : Prop where
  parse_eq : loose.parse = library.parse
  chain : ∃ chain more, library.chain = some chain ∧ loose.chain = some (chain ++ more)

variable {α : Type} {slack : Slack} {library loose : Library}

/-- Nothing is put in the place of a chain that was chosen. -/
theorem find_of_chain_eq {chain : Chain} (h : library.chain = some chain) (identifier : String) :
    find library identifier =
      reportAll (Chain.find identifier chain).2 >>= fun _ => pure (Chain.find identifier chain).1 := by
  funext w
  simp only [find, h, Option.isNone_some, Bool.false_and, run_bind, run_view]
  rfl

theorem follows_fetch (h : library.Looser loose) (underway : List String) (href : String) :
    Follows slack (fetch library underway href) (fetch loose underway href) := by
  obtain ⟨chain, more, hchain, hloose⟩ := h.chain
  refine (steady_view fun _ => rfl).bind fun identifier => ?_
  rw [find_of_chain_eq hchain, find_of_chain_eq hloose]
  cases hfound : (Chain.find identifier chain).1 with
  | none =>
    -- without a source there is nothing to follow
    rintro w _ _ - ⟨⟩
  | some source =>
    rw [Chain.find_append more hfound, hfound]
    refine Follows.bind ((steady_reportAll _).bind fun _ => steady_pure _) fun found => ?_
    cases found with
    | none => exact follows_fail _ _
    | some source =>
      simp only [h.parse_eq]
      split
      · exact follows_fail _ _
      · refine (steady_report _).bind fun _ => ?_
        cases library.parse source with
        | error error => exact follows_fail _ _
        | ok doc => exact steady_pure _

theorem follows_onDocument {x x' : Pass α} (h : Follows slack x x') (doc : Document) :
    Follows slack (onDocument doc x) (onDocument doc x') := by
  intro w a w₁ hw hrun
  unfold onDocument at hrun ⊢
  cases hx : x { w with doc } with
  | error e w₂ => simp [hx] at hrun
  | ok b w₂ =>
    obtain ⟨hw₂, hx'⟩ := h (w := { w with doc }) hw hx
    rw [hx] at hrun
    obtain ⟨⟩ := hrun
    simp only at hx' ⊢
    rw [hx']
    exact ⟨hw₂, rfl⟩

theorem steady_graftAll (parent : Nat) (other : Document) (index : Nat) (nodes : List Nat) :
    Steady slack (graftAll parent other index nodes) := by
  induction nodes generalizing index with
  | nil => exact steady_pure ()
  | cons node nodes ih =>
    refine (steady_makeNode _).bind fun copy => (steady_insertAt parent index copy).bind fun _ => ?_
    exact ih (index + 1)

theorem steady_replace (parent node : Nat) (content : Document) : Steady slack (replace parent node content) := by
  refine (steady_view fun _ => rfl).bind fun index => ?_
  cases index with
  | none => exact follows_fail _ _
  | some index =>
    refine (steady_removeChild parent node).bind fun _ => ?_
    exact (steady_graftAll parent content index _).bind fun _ => steady_pure _

theorem follows_sweep {expand expand' : Nat → Nat → String → Pass (Nat × Nat)}
    (h : ∀ parent node href, Follows slack (expand parent node href) (expand' parent node href))
    (steps node index : Nat) : Follows slack (sweep expand steps node index) (sweep expand' steps node index) := by
  induction steps generalizing node index with
  | zero => exact follows_fail _ _
  | succ steps ih =>
    refine (steady_view fun _ => rfl).bind fun child => ?_
    cases child with
    | none => exact steady_pure 0
    | some child =>
      refine (steady_view fun _ => rfl).bind fun href => ?_
      cases href with
      | some href =>
        refine (h node child href).bind fun added => ?_
        exact (ih node (index + added.1)).bind fun rest => steady_pure _
      | none => exact (ih child 0).bind fun count => (ih node (index + 1)).bind fun rest => steady_pure _

theorem follows_expandWithin (h : library.Looser loose) {levels levels' : Nat} (hle : levels ≤ levels')
    (underway : List String) :
    Follows slack (expandWithin library levels underway) (expandWithin loose levels' underway) := by
  induction levels generalizing levels' underway with
  | zero =>
    rw [expandWithin, expandWithin]
    exact (steady_view fun _ => rfl).bind fun steps => follows_sweep (fun _ _ _ => follows_fail _ _) steps root 0
  | succ levels ih =>
    obtain ⟨levels', rfl⟩ : ∃ n, levels' = n + 1 := ⟨levels' - 1, by omega⟩
    rw [expandWithin, expandWithin]
    refine (steady_view fun _ => rfl).bind fun steps => follows_sweep (fun parent node href => ?_) steps root 0
    refine (follows_fetch h underway href).bind fun found => ?_
    refine (follows_onDocument (ih (by omega) (found.1.uri :: underway)) found.2).bind fun expanded => ?_
    exact (steady_replace parent node expanded.2).bind fun nodes => steady_pure _

end Import

theorem Pass.follows_expandImports {slack : Slack} {library loose : Import.Library} (h : library.Looser loose)
    (hle : library.maxDepth ≤ loose.maxDepth) : Follows slack (expandImports library) (expandImports loose) := by
  refine (Import.follows_expandWithin h hle []).bind fun count => ?_
  exact Follows.bind (steady_editStats fun _ => rfl) fun _ => steady_pure count

theorem Pass.steady_verify {slack : Slack} : Steady slack verify := by
  refine (steady_view fun _ => rfl).bind fun outcome => ?_
  cases outcome with
  | error error => exact follows_fail _ _
  | ok _ => exact steady_pure ()

theorem Pass.steady_flattenStylesheet {slack : Slack} : Steady slack flattenStylesheet :=
  (steady_flatten root).bind fun moved => Follows.bind (steady_editStats fun _ => rfl) fun _ => steady_pure moved

theorem Pass.steady_pruneStylesheet {slack : Slack} : Steady slack pruneStylesheet :=
  (steady_prune root).bind fun pruned => Follows.bind (steady_editStats fun _ => rfl) fun _ => steady_pure pruned

theorem Pass.sequential_follows {slack : Slack} : Sequential fun _ (_ : Unit) x x' _ => Follows slack x x' where
  bind := Follows.bind
  view _ _ hf := steady_view fun w => hf w _ _
  report _ := steady_report

namespace Compiler

/-- The second compiler allows all that the first one does. A chain was chosen for the first one, and the second one
asks the same providers before others. Apart from that and their limits and strictness the two are the same. -/
structure Looser (compiler loose : Compiler) : Prop where
  parse_eq : loose.parse = compiler.parse
  holds_eq : loose.holds = compiler.holds
  prune_eq : loose.settings.prune = compiler.settings.prune
  chain : ∃ chain more, compiler.chain = some chain ∧ loose.chain = some (chain ++ more)
  importDepth_le : compiler.settings.importDepth ≤ loose.settings.importDepth
  expansions_le : compiler.settings.expansions ≤ loose.settings.expansions
  strict_of_loose : loose.settings.strict = true → compiler.settings.strict = true

variable {compiler loose : Compiler}

/-- The settings of the two for a run. -/
def Looser.slack (h : compiler.Looser loose) : Slack where
  strict := compiler.settings.strict
  limit := compiler.settings.expansions
  looseStrict := loose.settings.strict
  looseLimit := loose.settings.expansions
  strict_of_loose := h.strict_of_loose
  limit_le := h.expansions_le

theorem Looser.loosen_freshRun (h : compiler.Looser loose) : h.slack.loosen compiler.freshRun = loose.freshRun := by
  simp only [Slack.loosen, freshRun, slack, h.holds_eq]

/-- A run forgets its counters first, also that of the expansions. -/
theorem steady_start {slack : Slack} :
    Steady slack (edit fun w => { w with run := (w.run.setActive w.doc).clear }) := by
  rintro w _ _ hw ⟨⟩
  exact ⟨⟨hw.strict_eq, hw.limit_eq, Nat.zero_le _⟩, rfl⟩

theorem Looser.follows_compile (h : compiler.Looser loose) {slack : Slack} :
    Follows slack compiler.compile loose.compile := by
  have himports : Follows slack (expandImports compiler.library) (expandImports loose.library) :=
    follows_expandImports ⟨h.parse_eq, h.chain⟩ h.importDepth_le
  have hreduce : Follows slack compiler.reduce loose.reduce :=
    sequential_follows.reduce compiler loose h.prune_eq () () () () () (steady_collect root) (steady_evaluate root)
      steady_verify steady_flattenStylesheet (fun _ => steady_pruneStylesheet) fun _ => steady_pure ()
  rw [compile, compile]
  exact steady_start.bind fun _ => himports.bind fun _ => (steady_report _).bind fun _ =>
    (sequential_follows.dump () _).bind fun _ => hreduce

/-- What a compiler succeeds with, a looser one compiles to the same. The document and the log are the same, and so is
all that the run knows, apart from the settings. -/
theorem compile_looser (compiler loose : Compiler) (w w₁ : Workspace) (h : compiler.Looser loose)
    (hcompile : compiler.compile { w with run := compiler.freshRun } = .ok () w₁) :
    loose.compile { w with run := loose.freshRun } = .ok () { w₁ with run := { w₁.run with
      strict := loose.settings.strict, expansionLimit := loose.settings.expansions } } := by
  have hfresh : h.slack.Holds compiler.freshRun := ⟨rfl, rfl, Nat.zero_le _⟩
  have hfollows := (h.follows_compile (w := { w with run := compiler.freshRun }) hfresh hcompile).2
  rw [← h.loosen_freshRun]
  exact hfollows

/-- A strict compiler with just enough room for one import and one expansion. All of its sources define a mixin. -/
def narrow : Compiler where
  settings := { importDepth := 1, expansions := 1, strict := true }
  chain := some [{ name := "narrow", find := fun identifier => (some ⟨identifier, ""⟩, []) }]
  fallback := []
  parse _ := .ok ⟨#[{ kind := .stylesheet none, slots := #[1] },
    { kind := .mixin "m" [], parent := some 0, slots := #[2] },
    { kind := .declaration "color" "red", parent := some 1 }]⟩

/-- The same compiler with more room, and with another provider, which is never asked. -/
def roomy : Compiler :=
  { narrow with
    settings := { importDepth := 5, expansions := 9 }
    chain := some [{ name := "narrow", find := fun identifier => (some ⟨identifier, ""⟩, []) },
      { name := "other", find := fun _ => (none, []) }] }

theorem narrow_looser_roomy : narrow.Looser roomy :=
  ⟨rfl, rfl, rfl, ⟨_, _, rfl, rfl⟩, by decide, by decide, fun _ => rfl⟩

/-- An import, and a rule that includes what it brings. -/
def borrowing : Workspace where
  doc := ⟨#[{ kind := .stylesheet none, slots := #[1, 2] }, { kind := .importRule "lib" none, parent := some 0 },
            { kind := .rule "a", parent := some 0, slots := #[3] }, { kind := .inclusion "m" [], parent := some 2 }]⟩

theorem compile_roomy :
    ∃ w₁, narrow.Looser roomy ∧ narrow.compile { borrowing with run := narrow.freshRun } = .ok () w₁ ∧
      w₁.doc.fragment root = ⟨.stylesheet none, [⟨.rule "a", [⟨.declaration "color" "red", []⟩]⟩]⟩ ∧
      roomy.compile { borrowing with run := roomy.freshRun } = .ok () { w₁ with run := { w₁.run with
        strict := false, expansionLimit := 9 } } := by
  have hvalue : Outcome.read? (·.doc.fragment root) (narrow.compile { borrowing with run := narrow.freshRun }) =
      some ⟨.stylesheet none, [⟨.rule "a", [⟨.declaration "color" "red", []⟩]⟩]⟩ := by
    decide +kernel
  obtain ⟨_, w₁, hcompile, hfragment⟩ := Outcome.exists_of_read?_eq_some hvalue
  exact ⟨w₁, narrow_looser_roomy, hcompile, hfragment,
    compile_looser narrow roomy borrowing w₁ narrow_looser_roomy hcompile⟩

end Compiler

end NestedStyles
