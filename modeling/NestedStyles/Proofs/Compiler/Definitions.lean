import NestedStyles.Proofs.Compiler.Flatness
import NestedStyles.Proofs.Walk.Origins

/-!
# Definitions in what is compiled

Collecting takes every definition out of the tree, but it does not look into the bodies of mixins, and an inclusion puts
a copy of such a body into the tree later on, with the definitions in it. From there nothing takes them away
(`compile_nesting`). These are the only ones that are left: what a compiled stylesheet still defines was defined inside
of another definition once the imports were expanded (`compile_definitions_nested`). So nothing is left where no
definition stands inside of another one.
-/

namespace NestedStyles

open Document Semantics

/-- A mixin is defined inside of another definition in the tree. -/
def Document.Nests (doc : Document) (d : String × List Param) : Prop :=
  ∃ m ∈ doc.descendants root, (doc.kind m).isMixin = true ∧
    ∃ x ∈ doc.descendants m, x ≠ m ∧ (doc.kind x).definition? = some d

/-- Every definition in the tree is of a mixin with the given property. -/
def Document.DefinesOnly (doc : Document) (p : String × List Param → Prop) : Prop :=
  ∀ x d, doc.Spans root x → (doc.kind x).definition? = some d → p d

theorem Kind.definition?_eq_none {kind : Kind} (h : kind.isMixin = false) : kind.definition? = none := by
  cases kind with
  | mixin name params => simp [isMixin] at h
  | _ => rfl

theorem Kind.definition?_eq_some {kind : Kind} {name : String} {params : List Param} :
    kind.definition? = some (name, params) ↔ kind = .mixin name params := by
  cases kind <;> simp [definition?]

theorem Kind.Alike.definition?_eq {kind kind' : Kind} (h : kind.Alike kind') :
    kind'.definition? = kind.definition? := by
  rcases h with rfl | ⟨hrule, hrule'⟩
  · rfl
  · cases kind <;> cases kind' <;> simp_all [Kind.isRule, Kind.definition?]

namespace Pass

variable {p : String × List Param → Prop}

/-- A stylesheet of which nothing has been collected yet. -/
structure Uncollected (doc : Document) (run : Run) : Prop where
  wf : doc.WellFormed
  stylesheet : (doc.kind root).isStylesheet = true
  points : run.insertionPoints.isEmpty = true
  mixins : run.mixins = ∅

/-- There is no definition in the tree, and those in the bodies of mixins are of mixins with a property. -/
structure Stripped (p : String × List Param → Prop) (doc : Document) (run : Run) : Prop where
  wf : doc.WellFormed
  stylesheet : (doc.kind root).isStylesheet = true
  points : run.insertionPoints.isEmpty = true
  detached : ∀ (name : String) (definition : Nat), run.mixins[name]? = some definition →
    definition < doc.next ∧ doc.isAttached definition = false
  content : ∀ x, doc.Spans root x → (doc.kind x).definition? = none
  bodies : ∀ (name : String) (definition : Nat), run.mixins[name]? = some definition →
    ∀ c ∈ doc.children definition, ∀ d ∈ (doc.fragment c).definitions, p d

theorem uncollected_of_expandImports {library : Import.Library} (hregular : library.Regular) {w w' : Workspace}
    {n : Nat} (hrun : expandImports library w = .ok n w') (hw : Uncollected w.doc w.run) :
    Uncollected w'.doc w'.run := by
  obtain ⟨-, hwf', hframe, hrun'⟩ := Import.expanded_of_expandImports hregular hw.wf hrun
  have hroot : w.doc.Outside (w.doc.children root) root := hw.wf.outside_children hw.wf.root_lt_next (Or.inl rfl)
  rw [hrun']
  refine ⟨hwf', ?_, hw.points, hw.mixins⟩
  rw [hframe.kind_eq hroot]
  exact hw.stylesheet

theorem stripped_of_collect {w w' : Workspace} (hw : Uncollected w.doc w.run) (hrun : collect root w = .ok () w') :
    Stripped w.doc.Nests w'.doc w'.run := by
  obtain ⟨directory, hkind⟩ := Kind.exists_of_isStylesheet hw.stylesheet
  have hnot : (w.doc.kind root).isMixin = false := by simp [hkind, Kind.isMixin]
  obtain ⟨w₁, hrun₁, hgathers⟩ := collect_run hw.wf
  obtain ⟨-, rfl⟩ := EStateM.Result.ok.inj (hrun₁.symm.trans hrun)
  have htrimmed := hgathers.unlinked.trimmed
  have hkinds := hgathers.unlinked.kind_eq
  have hdetached {name : String} {definition : Nat} (hname : w₁.run.mixins[name]? = some definition) :=
    hgathers.definition_detached hw.wf hnot hw.mixins hname
  refine ⟨htrimmed.wf, ?_, ?_, fun _ _ hname => (hdetached hname).2.2, fun x hx => ?_, ?_⟩
  · rw [hkinds]
    exact hw.stylesheet
  · rw [hgathers.run_eq, (Run.settings_meetAll ..).1]
    exact hw.points
  · rw [hkinds]
    exact Kind.definition?_eq_none (hgathers.isMixin_eq_false hw.wf hnot hx)
  · intro name definition hname c hc d hd
    obtain ⟨hspan, hmixin, -⟩ := hdetached hname
    obtain ⟨x, hx, hdefinition⟩ := htrimmed.wf.mem_definitions_fragment.1 hd
    have hparent := hw.wf.mem_children_iff.1 (htrimmed.mem_children hc)
    have hcx := htrimmed.spans hw.wf hx
    refine ⟨definition, hw.wf.mem_descendants.2 hspan, hmixin, x, ?_, ?_, ?_⟩
    · exact hw.wf.mem_descendants.2 ((Spans.of_parent hparent).trans hcx)
    · rintro rfl
      exact hw.wf.not_spans_parent hparent hcx
    · rw [← hkinds]
      exact hdefinition

theorem leads_evaluate_definesOnly :
    Leads (Stripped p) (evaluate root) fun doc _ => doc.WellFormed ∧ doc.DefinesOnly p := by
  intro w left w' hw hrun
  obtain ⟨directory, hkind⟩ := Kind.exists_of_isStylesheet hw.stylesheet
  obtain ⟨hwf, hkind', out, hout, hfragments⟩ := eval_of_evaluate_root hw.wf hkind hw.points hw.detached hrun
  have hbrings {d : String × List Param} (h : w.env.Brings d) : p d := by
    obtain ⟨name, params, body, hmixin, hd⟩ := h
    obtain ⟨definition, hname, hbody⟩ := Option.map_eq_some_iff.1 hmixin
    obtain ⟨rfl, rfl⟩ := Prod.mk.inj hbody
    obtain ⟨_, hmem, hd⟩ := Fragment.mem_definitionsAll.1 hd
    obtain ⟨c, hc, rfl⟩ := List.mem_map.1 hmem
    exact hw.bodies name definition hname c hc d hd
  refine ⟨hwf, fun x d hx hd => ?_⟩
  rcases hwf.spans_iff.1 hx with rfl | ⟨c, hc, hspan⟩
  · simp [hkind', hkind, Kind.definition?] at hd
  · have hmem : d ∈ Fragment.definitionsAll out.fragments := by
      rw [← hfragments]
      exact Fragment.mem_definitionsAll.2
        ⟨_, List.mem_map_of_mem hc, hwf.mem_definitions_fragment.2 ⟨x, hspan, hd⟩⟩
    refine (Env.eval_definitions hout hmem).elim (fun hbefore => ?_) hbrings
    -- there was no definition in the tree to begin with
    obtain ⟨_, hf, hd⟩ := Fragment.mem_definitionsAll.1 hbefore
    obtain ⟨c, hc, rfl⟩ := List.mem_map.1 hf
    obtain ⟨y, hy, hdefinition⟩ := hw.wf.mem_definitions_fragment.1 hd
    rw [hw.content y (hw.wf.spans_iff.2 (Or.inr ⟨c, hc, hy⟩))] at hdefinition
    simp at hdefinition

theorem leads_flatten_definesOnly :
    Leads (fun doc _ => doc.WellFormed ∧ doc.DefinesOnly p) (flatten root)
      fun doc _ => doc.WellFormed ∧ doc.DefinesOnly p := by
  rintro w moved w' ⟨hwf, hw⟩ hrun
  obtain ⟨n, w₁, hrun₁, -, hlifted, -⟩ := flatten_levels hwf root
  obtain ⟨-, rfl⟩ := EStateM.Result.ok.inj (hrun₁.symm.trans hrun)
  refine ⟨hlifted.wf, fun x d hx hd => hw x d (hlifted.spans hwf hx) ?_⟩
  rw [← (hlifted.alike x).definition?_eq]
  exact hd

theorem leads_prune_definesOnly :
    Leads (fun doc _ => doc.WellFormed ∧ doc.DefinesOnly p) (prune root)
      fun doc _ => doc.WellFormed ∧ doc.DefinesOnly p := by
  rintro w pruned w' ⟨hwf, hw⟩ hrun
  obtain ⟨gone, w₁, hrun₁, hprunes⟩ := prune_prunes hwf root
  obtain ⟨-, rfl⟩ := EStateM.Result.ok.inj (hrun₁.symm.trans hrun)
  refine ⟨hprunes.wf, fun x d hx hd => hw x d (hprunes.trimmed.spans hwf hx) ?_⟩
  rw [← hprunes.kind_eq]
  exact hd

end Pass

namespace Compiler

open Pass

/-- A definition that is left in a compiled stylesheet is of a mixin that was defined inside of another definition once
the imports were expanded. -/
theorem compile_definitions_nested (compiler : Compiler) (w w' : Workspace) (hregular : compiler.library.Regular)
    (hwf : w.doc.WellFormed) (hroot : (w.doc.kind root).isStylesheet = true)
    (hcompile : compiler.compile w = .ok () w') :
    ∃ n w₁, expandImports compiler.library { w with run := (w.run.setActive w.doc).clear } = .ok n w₁ ∧
      ∀ x ∈ w'.doc.descendants root, ∀ name params, w'.doc.kind x = .mixin name params →
        w₁.doc.Nests (name, params) := by
  obtain ⟨n, w₁, log, hexpand, hrest⟩ := exists_of_compile_eq_ok hcompile
  refine ⟨n, w₁, hexpand, ?_⟩
  have hstart : Uncollected w₁.doc w₁.run ∧ w₁.doc = w₁.doc :=
    ⟨uncollected_of_expandImports hregular hexpand ⟨hwf, hroot, rfl, rfl⟩, rfl⟩
  have hcollect : Leads (fun doc run => Uncollected doc run ∧ doc = w₁.doc) (collect root) (Stripped w₁.doc.Nests) := by
    rintro w _ w' ⟨hw, hdoc⟩ hrun
    rw [← hdoc]
    exact stripped_of_collect hw hrun
  have hreduce : Leads (fun doc run => Uncollected doc run ∧ doc = w₁.doc) compiler.reduce fun doc _ =>
      doc.WellFormed ∧ doc.DefinesOnly w₁.doc.Nests :=
    sequential_leads.reduce compiler compiler rfl _ _ _ _ _ hcollect leads_evaluate_definesOnly leads_verify
      (leads_flatten_definesOnly.tally _ fun _ _ _ => id)
      (fun _ => leads_prune_definesOnly.tally _ fun _ _ _ => id) fun _ => leads_pure ()
  obtain ⟨hwf', honly⟩ := hreduce (w := { w₁ with log := log }) hstart hrest
  intro x hx name params hkind
  exact honly x (name, params) (hwf'.mem_descendants.1 hx) (by rw [hkind]; rfl)

/-- A mixin with the definition of another one in its body, included in a rule. -/
def nesting : Workspace where
  doc := ⟨#[{ kind := .stylesheet none, slots := #[1, 4] },
            { kind := .mixin "outer" [], parent := some 0, slots := #[2] },
            { kind := .mixin "inner" [], parent := some 1, slots := #[3] },
            { kind := .declaration "color" "red", parent := some 2 },
            { kind := .rule ".a", parent := some 0, slots := #[5, 6] },
            { kind := .inclusion "outer" [], parent := some 4 },
            { kind := .declaration "margin" "0", parent := some 4 }]⟩

theorem wellFormed_nesting : nesting.doc.WellFormed :=
  (ofFragment_spec (f := ⟨.stylesheet none, [⟨.mixin "outer" [], [⟨.mixin "inner" [],
    [⟨.declaration "color" "red", []⟩]⟩]⟩, ⟨.rule ".a", [⟨.inclusion "outer" [], []⟩,
      ⟨.declaration "margin" "0", []⟩]⟩]⟩) rfl).1

/-- What it is compiled to. -/
def nestingCompiled : Fragment :=
  ⟨.stylesheet none, [⟨.rule ".a", [⟨.mixin "inner" [], [⟨.declaration "color" "red", []⟩]⟩,
    ⟨.declaration "margin" "0", []⟩]⟩]⟩

theorem exists_nestingCompiled :
    ∃ w', ({ fallback := [] } : Compiler).compile nesting = .ok () w' ∧
      (∃ x ∈ w'.doc.descendants root, w'.doc.kind x = .mixin "inner" []) ∧ w'.doc.fragment root = nestingCompiled := by
  have hregular : ({ fallback := [] } : Compiler).library.Regular := regular_of_parse_eq rfl
  have hsound := compile_sound hregular wellFormed_nesting
  have hvalue : Outcome.read? (·.doc.fragment root) (({ fallback := [] } : Compiler).compile nesting) =
      some nestingCompiled := by
    decide +kernel
  obtain ⟨_, w', hcompile, hfragment⟩ := Outcome.exists_of_read?_eq_some hvalue
  rw [hcompile] at hsound
  have hmem : ("inner", []) ∈ (w'.doc.fragment root).definitions := by
    rw [hfragment]
    decide +kernel
  obtain ⟨x, hx, hdefinition⟩ := hsound.wf.mem_definitions_fragment.1 hmem
  exact ⟨w', hcompile, ⟨x, hsound.wf.mem_descendants.2 hx, Kind.definition?_eq_some.1 hdefinition⟩, hfragment⟩

/-- What is compiled may still define a mixin, and then its text does so too. -/
theorem compile_nesting :
    ∃ w', ({ fallback := [] } : Compiler).compile nesting = .ok () w' ∧
      (∃ x ∈ w'.doc.descendants root, w'.doc.kind x = .mixin "inner" []) ∧
      w'.doc.css = ".a \x7b\n  @mixin inner \x7b\n    color: red;\n  \x7d\n  margin: 0;\n\x7d" := by
  obtain ⟨w', hcompile, hleft, hfragment⟩ := exists_nestingCompiled
  refine ⟨w', hcompile, hleft, ?_⟩
  rw [css, hfragment]
  decide +kernel

theorem compile_nesting_nested :
    ∃ n w₁, expandImports ({ fallback := [] } : Compiler).library
        { nesting with run := (nesting.run.setActive nesting.doc).clear } = .ok n w₁ ∧ w₁.doc.Nests ("inner", []) := by
  obtain ⟨w', hcompile, ⟨x, hx, hkind⟩, -⟩ := exists_nestingCompiled
  obtain ⟨n, w₁, hexpand, hnested⟩ := compile_definitions_nested { fallback := [] } nesting w' (regular_of_parse_eq rfl)
    wellFormed_nesting rfl hcompile
  exact ⟨n, w₁, hexpand, hnested x hx "inner" [] hkind⟩

end Compiler

end NestedStyles
