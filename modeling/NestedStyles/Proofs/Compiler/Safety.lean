import NestedStyles.Proofs.Compiler.Stages
import NestedStyles.Proofs.Document.Verification
import NestedStyles.Proofs.Import.Refinement
import NestedStyles.Proofs.Pass.Safety
import NestedStyles.Proofs.Walk.Termination

/-!
# Runs of the compiler

A run is a chain of safe passes (`compile_sound`). So it never leaves a damaged document behind, whatever the stylesheet
and its sources hold and wherever the run breaks off, and never fails for a reason of its own. Both its loops come to an
end: an expansion of imports as it goes one level deeper with each source, and an evaluation as it expands only so many
mixins.
-/

namespace NestedStyles

open Document

namespace Pass

variable {limit : Nat}

theorem safe_expandImports {library : Import.Library} (hregular : library.Regular) :
    Safe limit (expandImports library) := by
  intro w hw
  have hagrees := Import.expandWithin_agrees hregular library.maxDepth [] hw.wf
  rw [expandImports, run_bind]
  generalize Import.expandWithin library library.maxDepth [] w = outcome at hagrees ⊢
  cases outcome with
  | ok count w' =>
    obtain ⟨-, -, -, hwf, hrun, -⟩ := hagrees
    obtain ⟨hwf', hlimit, hexpansions⟩ := hw.of_run_eq hwf hrun
    exact ⟨hwf', hlimit, hexpansions⟩
  | error e w' =>
    obtain ⟨hexpected, hwf, hrun⟩ := hagrees
    refine ⟨hw.of_run_eq hwf hrun, ?_⟩
    exact Import.spliceAll_error (P := fun e => e.isInternal = false) library.content_error hexpected

theorem Advanced.sound {w w' : Workspace} {tops : List Nat} {site : Nat} (h : Advanced w w' tops site)
    (hw : w.Sound limit) : w'.Sound limit := by
  have hlimit := h.setting.limit
  have hle := h.expansions_le
  obtain ⟨-, rfl, hexpansions⟩ := hw
  exact ⟨h.wf, hlimit, by omega⟩

theorem safe_evaluate_root : Safe limit (evaluate root) := by
  intro w hw
  have hlt := hw.wf.root_lt_next
  have hcompleted := (evaluates_evaluate hw.wf hlt).completed hw.wf hlt
  generalize evaluate root w = outcome at hcompleted ⊢
  cases outcome with
  | ok left w' =>
    obtain ⟨site, hadvanced⟩ := hcompleted
    exact hadvanced.sound hw
  | error e w' =>
    obtain ⟨⟨site, hadvanced⟩, hinternal⟩ := hcompleted
    exact ⟨hadvanced.sound hw, hinternal⟩

theorem safe_verify : Safe limit verify := by
  intro w hw
  rw [verify, run_bind, run_view, hw.wf.verify_eq]
  exact hw

theorem safe_flattenStylesheet : Safe limit flattenStylesheet :=
  (safe_flatten root).bind fun moved => Safe.bind (safe_editRun fun _ => ⟨rfl, rfl⟩) fun _ => safe_pure moved

theorem safe_pruneStylesheet : Safe limit pruneStylesheet :=
  (safe_prune root).bind fun pruned => Safe.bind (safe_editRun fun _ => ⟨rfl, rfl⟩) fun _ => safe_pure pruned

theorem sequential_safe : Sequential fun _ (_ : Unit) x _ _ => Safe limit x where
  bind := Safe.bind
  view _ f _ := safe_view f
  report _ := safe_report

end Pass

namespace Compiler

open Pass

variable {compiler : Compiler}

/-- What a run comes to, with the limits that were set when it started. -/
theorem compile_sound (hregular : compiler.library.Regular) {w : Workspace} (hwf : w.doc.WellFormed) :
    SoundOutcome w.run.expansionLimit (compiler.compile w) := by
  -- the counters are set back, so there is nothing to ask of those from before the run
  have hstart : Workspace.Sound { w with run := (w.run.setActive w.doc).clear } w.run.expansionLimit :=
    ⟨hwf, rfl, Nat.zero_le _⟩
  have hreduce : Safe w.run.expansionLimit compiler.reduce :=
    sequential_safe.reduce compiler compiler rfl () () () () () safe_collect safe_evaluate_root safe_verify
      safe_flattenStylesheet (fun _ => safe_pruneStylesheet) fun _ => safe_pure ()
  rw [compile, run_bind, run_edit]
  exact (safe_expandImports hregular).bind (fun _ => (safe_report _).bind fun _ =>
    (sequential_safe.dump () _).bind fun _ => hreduce) hstart

/-- The usual parser returns well-formed documents only. -/
theorem regular_of_parse_eq (h : compiler.parse = Document.parse) : compiler.library.Regular := by
  intro source doc hparse
  change compiler.parse source = .ok doc at hparse
  rw [h, Document.parse, Document.read] at hparse
  cases hfragment : (Json.read? source.contents).bind Fragment.ofJson? with
  | none => simp [hfragment] at hparse
  | some f =>
    cases hdoc : ofFragment f with
    | error e => simp [hfragment, hdoc] at hparse
    | ok doc' =>
      simp only [hfragment, hdoc, Except.ok.injEq] at hparse
      exact hparse ▸ (ofFragment_spec hdoc).1

/-- Whatever a run comes to, the document is well-formed afterwards, and an error is about the stylesheet or its
sources. So no insertion into the document is ever refused, and the check after the evaluation passes. -/
theorem compile_keeps_wellFormed (compiler : Compiler) (w : Workspace) (hregular : compiler.library.Regular)
    (hwf : w.doc.WellFormed) :
    match compiler.compile w with
    | .ok _ w' => w'.doc.WellFormed
    | .error e w' => w'.doc.WellFormed ∧ e.isInternal = false := by
  have hsound := compile_sound hregular hwf
  generalize compiler.compile w = outcome at hsound ⊢
  cases outcome with
  | ok _ w' => exact hsound.wf
  | error e w' => exact ⟨hsound.1.wf, hsound.2⟩

/-- A mixin that is a rule, included in another rule, before an inclusion of a mixin that there is not. -/
def framed : Workspace where
  doc := ⟨#[{ kind := .stylesheet none, slots := #[1, 4] }, { kind := .mixin "m" [], parent := some 0, slots := #[2] },
            { kind := .rule "b", parent := some 1, slots := #[3] }, { kind := .raw "x", parent := some 2 },
            { kind := .rule "a", parent := some 0, slots := #[5, 6] }, { kind := .inclusion "m" [], parent := some 4 },
            { kind := .inclusion "n" [], parent := some 4 }]⟩

theorem compile_framed :
    (∃ w', ({ fallback := [] } : Compiler).compile framed = .ok () w' ∧ w'.doc.WellFormed ∧
      w'.doc.fragment root = ⟨.stylesheet none, [⟨.rule "a b", [⟨.raw "x", []⟩]⟩]⟩) ∧
    ∃ w', ({ fallback := [] } : Compiler).compile { framed with run := { strict := true } } =
      .error (.unknownMixin "n") w' ∧ w'.doc.WellFormed := by
  have hwf : framed.doc.WellFormed :=
    (ofFragment_spec (f := ⟨.stylesheet none, [⟨.mixin "m" [], [⟨.rule "b", [⟨.raw "x", []⟩]⟩]⟩,
      ⟨.rule "a", [⟨.inclusion "m" [], []⟩, ⟨.inclusion "n" [], []⟩]⟩]⟩) rfl).1
  constructor
  · have h := compile_keeps_wellFormed { fallback := [] } framed (regular_of_parse_eq rfl) hwf
    have hvalue : Outcome.read? (·.doc.fragment root) (({ fallback := [] } : Compiler).compile framed) =
        some ⟨.stylesheet none, [⟨.rule "a b", [⟨.raw "x", []⟩]⟩]⟩ := by
      decide +kernel
    obtain ⟨_, w', hrun, hfragment⟩ := Outcome.exists_of_read?_eq_some hvalue
    rw [hrun] at h
    exact ⟨w', hrun, h, hfragment⟩
  · have h := compile_keeps_wellFormed { fallback := [] } { framed with run := { strict := true } }
      (regular_of_parse_eq rfl) hwf
    have hvalue : Outcome.result (({ fallback := [] } : Compiler).compile { framed with run := { strict := true } }) =
        .error (.unknownMixin "n") := by
      decide +kernel
    obtain ⟨w', hrun⟩ := Outcome.exists_of_result_eq_error hvalue
    rw [hrun] at h
    exact ⟨w', hrun, h.1⟩

/-- Every run comes to an end. The expansion of imports and the evaluation of a node do so without anything that bounds
the number of their steps, and with the same outcome. No run expands more mixins than it may. -/
theorem compile_ends (compiler : Compiler) (w : Workspace) (hregular : compiler.library.Regular)
    (hwf : w.doc.WellFormed) :
    Import.Expands compiler.library compiler.settings.importDepth [] w
        (Import.expandWithin compiler.library compiler.settings.importDepth [] w) ∧
      (∀ node < w.doc.next, Evaluates node w (evaluate node w)) ∧
      match compiler.compile w with
      | .ok _ w' => w'.run.stats.mixinsExpanded ≤ w.run.expansionLimit
      | .error e w' => w'.run.stats.mixinsExpanded ≤ w.run.expansionLimit ∧ e ≠ .unfinished := by
  refine ⟨Import.expands_expandWithin hregular _ [] hwf, fun _ hlt => evaluates_evaluate hwf hlt, ?_⟩
  have hsound := compile_sound hregular hwf
  generalize compiler.compile w = outcome at hsound ⊢
  cases outcome with
  | ok _ w' => exact hsound.expansions_le
  | error e w' =>
    refine ⟨hsound.1.expansions_le, ?_⟩
    rintro rfl
    exact absurd hsound.2 (by decide)

/-- A stylesheet that imports another one. -/
def importing (href : String) : Document :=
  ⟨#[{ kind := .stylesheet none, slots := #[1] }, { kind := .importRule href none, parent := some 0 }]⟩

/-- Every identifier stands for a new source, and every source imports another one. -/
def endless : Compiler where
  settings := { importDepth := 3 }
  chain := some [{ name := "endless", find := fun identifier => (some ⟨identifier ++ "a", ""⟩, []) }]
  fallback := []
  parse source := .ok (importing source.uri)

/-- A mixin that includes itself. -/
def selfIncluding : Workspace where
  doc := ⟨#[{ kind := .stylesheet none, slots := #[1, 3] }, { kind := .mixin "m" [], parent := some 0, slots := #[2] },
            { kind := .inclusion "m" [], parent := some 1 }, { kind := .inclusion "m" [], parent := some 0 }]⟩
  run := { expansionLimit := 2 }

theorem compile_endless :
    (∃ w', endless.compile { doc := importing "a" } = .error (.importDepth "aaaa" 3) w' ∧
      w'.run.stats.mixinsExpanded ≤ 0xFFFFFFFFFFFFFFFF) ∧
    Evaluates root selfIncluding (evaluate root selfIncluding) ∧
    ∃ w', endless.compile selfIncluding = .error (.expansionLimit 2) w' ∧ w'.run.stats.mixinsExpanded ≤ 2 := by
  have hregular : endless.library.Regular := by
    intro source doc h
    obtain rfl := Except.ok.inj h
    exact (ofFragment_spec (f := ⟨.stylesheet none, [⟨.importRule source.uri none, []⟩]⟩) rfl).1
  refine ⟨?_, ?_⟩
  · have hwf : (importing "a").WellFormed :=
      (ofFragment_spec (f := ⟨.stylesheet none, [⟨.importRule "a" none, []⟩]⟩) rfl).1
    have h := (compile_ends endless { doc := importing "a" } hregular hwf).2.2
    have hvalue : Outcome.result (endless.compile { doc := importing "a" }) = .error (.importDepth "aaaa" 3) := by
      decide +kernel
    obtain ⟨w', hrun⟩ := Outcome.exists_of_result_eq_error hvalue
    rw [hrun] at h
    exact ⟨w', hrun, h.1⟩
  · have hwf : selfIncluding.doc.WellFormed :=
      (ofFragment_spec (f := ⟨.stylesheet none, [⟨.mixin "m" [], [⟨.inclusion "m" [], []⟩]⟩,
        ⟨.inclusion "m" [], []⟩]⟩) rfl).1
    obtain ⟨-, hevaluates, h⟩ := compile_ends endless selfIncluding hregular hwf
    refine ⟨hevaluates root hwf.root_lt_next, ?_⟩
    have hvalue : Outcome.result (endless.compile selfIncluding) = .error (.expansionLimit 2) := by
      decide +kernel
    obtain ⟨w', hrun⟩ := Outcome.exists_of_result_eq_error hvalue
    rw [hrun] at h
    exact ⟨w', hrun, h.1⟩

end Compiler

end NestedStyles
