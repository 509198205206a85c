import NestedStyles.Proofs.Compiler.Safety
import NestedStyles.Proofs.Pass.Collecting
import NestedStyles.Proofs.Pass.Flattening
import NestedStyles.Proofs.Pass.Pruning
import NestedStyles.Proofs.Walk.Settling

/-!
# What is compiled is flat

A stylesheet whose nodes stand where they may once its imports are expanded (`Orderly`) compiles to rules and plain
content, the rules with nothing but plain content in them (`Flat`), and without empty rules if these are pruned. Each
pass hands on what the next one needs (`Leads`): after collecting, whatever is in the tree or in the body of a mixin can
be evaluated (`Prepared`), evaluation leaves rules and plain content (`Resolved`), flattening takes the rules out of one
another, and pruning only takes away.
-/

namespace NestedStyles

open Document Semantics

def Kind.isStylesheet : Kind → Bool
  | stylesheet _ => true
  | _ => false

theorem Kind.exists_of_isStylesheet {kind : Kind} (h : kind.isStylesheet = true) :
    ∃ directory, kind = .stylesheet directory := by
  cases kind with
  | stylesheet directory => exact ⟨directory, rfl⟩
  | _ => simp [isStylesheet] at h

theorem Kind.isRule_of_isPlain {kind : Kind} (h : kind.isPlain = true) : kind.isRule = false := by
  cases kind with
  | rule selector => simp [isPlain] at h
  | _ => rfl

namespace Document

/-- In the tree, the root and nothing else is a stylesheet, the children of conditionals and nothing else are branches,
there is nothing below a leaf, and no mixin is defined inside of another one. -/
structure Orderly (doc : Document) : Prop where
  stylesheet_iff : ∀ x ∈ doc.descendants root, (doc.kind x).isStylesheet = true ↔ x = root
  branch_iff : ∀ x ∈ doc.descendants root, ∀ c ∈ doc.children x,
    (doc.kind c).isBranch = true ↔ doc.kind x = .conditional
  leaf : ∀ x ∈ doc.descendants root, (doc.kind x).isLeaf = true → doc.children x = []
  mixin : ∀ m ∈ doc.descendants root, (doc.kind m).isMixin = true →
    ∀ x ∈ doc.descendants m, x ≠ m → (doc.kind x).isMixin = false

instance (doc : Document) : Decidable doc.Orderly :=
  decidable_of_iff
    ((∀ x ∈ doc.descendants root, (doc.kind x).isStylesheet = true ↔ x = root) ∧
      (∀ x ∈ doc.descendants root, ∀ c ∈ doc.children x, (doc.kind c).isBranch = true ↔ doc.kind x = .conditional) ∧
      (∀ x ∈ doc.descendants root, (doc.kind x).isLeaf = true → doc.children x = []) ∧
      ∀ m ∈ doc.descendants root, (doc.kind m).isMixin = true →
        ∀ x ∈ doc.descendants m, x ≠ m → (doc.kind x).isMixin = false)
    ⟨fun ⟨hstylesheet, hbranch, hleaf, hmixin⟩ => ⟨hstylesheet, hbranch, hleaf, hmixin⟩,
      fun ⟨hstylesheet, hbranch, hleaf, hmixin⟩ => ⟨hstylesheet, hbranch, hleaf, hmixin⟩⟩

/-- The node is a rule, or plain with nothing below it. -/
def Final (doc : Document) (x : Nat) : Prop :=
  (doc.kind x).isRule = true ∨ (doc.kind x).isPlain = true ∧ doc.children x = []

/-- There are rules and plain content below the root, and nothing but plain content below these rules. -/
structure Flat (doc : Document) : Prop where
  top : ∀ x ∈ doc.children root, doc.Final x
  inner : ∀ x ∈ doc.children root, (doc.kind x).isRule = true →
    ∀ y ∈ doc.children x, (doc.kind y).isPlain = true ∧ doc.children y = []

/-- No rule in the tree is empty. -/
def Full (doc : Document) : Prop :=
  ∀ x ∈ doc.descendants root, (doc.kind x).isRule = true → doc.children x ≠ []

/-! ### Ready to be evaluated -/

/-- The node is none that evaluation does not expect, and neither are its children. -/
structure Ready (doc : Document) (x : Nat) : Prop where
  stylesheet : (doc.kind x).isStylesheet = false
  mixin : (doc.kind x).isMixin = false
  reference : Import.reference? (doc.kind x) = none
  branch_iff : ∀ c ∈ doc.children x, (doc.kind c).isBranch = true ↔ doc.kind x = .conditional
  leaf : (doc.kind x).isLeaf = true → doc.children x = []

/-- Where all nodes are ready, the fragment at a node that is no branch can be evaluated, and so can those at the
children of a node that is no conditional. -/
theorem evaluable_of_ready {doc : Document} (hwf : doc.WellFormed) {x : Nat}
    (hready : ∀ y, doc.Spans x y → doc.Ready y) :
    ((doc.kind x).isBranch = false → Evaluable (doc.fragment x)) ∧
      (doc.kind x ≠ .conditional → ∀ c ∈ doc.children x, Evaluable (doc.fragment c)) := by
  induction x using hwf.children_induction with
  | step x ih =>
    have hx := hready x (Spans.refl doc x)
    have hbelow : ∀ c ∈ doc.children x, ∀ y, doc.Spans c y → doc.Ready y := fun c hc y hy =>
      hready y ((Spans.of_parent (hwf.mem_children_iff.1 hc)).trans hy)
    have hchildren : doc.kind x ≠ .conditional → ∀ c ∈ doc.children x, Evaluable (doc.fragment c) := by
      intro hne c hc
      refine (ih c hc (hbelow c hc)).1 ?_
      rw [← Bool.not_eq_true, hx.branch_iff c hc]
      exact hne
    refine ⟨fun hbranch => ?_, hchildren⟩
    rw [hwf.fragment_eq]
    cases hkind : doc.kind x with
    | rule selector =>
      refine .rule fun f hf => ?_
      obtain ⟨c, hc, rfl⟩ := List.mem_map.1 hf
      exact hchildren (by simp [hkind]) c hc
    | conditional =>
      have hbranches : ∀ c ∈ doc.children x, (doc.kind c).isBranch = true := fun c hc => (hx.branch_iff c hc).2 hkind
      refine .conditional (fun b hb => ?_) (fun b hb f hf => ?_)
      · obtain ⟨c, hc, rfl⟩ := List.mem_map.1 hb
        rw [hwf.kind_fragment]
        exact hbranches c hc
      · obtain ⟨c, hc, rfl⟩ := List.mem_map.1 hb
        rw [hwf.children_fragment] at hf
        obtain ⟨y, hy, rfl⟩ := List.mem_map.1 hf
        refine (ih c hc (hbelow c hc)).2 ?_ y hy
        intro hconditional
        have hbranch := hbranches c hc
        simp [hconditional, Kind.isBranch] at hbranch
    | stylesheet directory => simpa [hkind, Kind.isStylesheet] using hx.stylesheet
    | mixin name params => simpa [hkind, Kind.isMixin] using hx.mixin
    | branch condition => simp [hkind, Kind.isBranch] at hbranch
    | _ =>
      rw [hx.leaf (by simp [hkind, Kind.isLeaf]), List.map_nil]
      exact .leaf rfl (hkind ▸ hx.reference)

/-- If the nodes of a document stand where they may, then what is left below one of them after some have been taken out
of the tree can be evaluated, provided that no definition is left there. -/
theorem Orderly.evaluable_children {doc doc' : Document} (h : doc.Orderly) (hwf : doc.WellFormed)
    (hexpanded : ∀ x, doc.Spans root x → x ≠ root → Import.reference? (doc.kind x) = none)
    (htrimmed : Trimmed doc doc') (hkind : ∀ x, doc'.kind x = doc.kind x) {p : Nat} (hp : doc.Spans root p)
    (hne : doc.kind p ≠ .conditional)
    (hmixin : ∀ x, doc'.Spans p x → x ≠ p → (doc.kind x).isMixin = false) :
    ∀ c ∈ doc'.children p, Evaluable (doc'.fragment c) := by
  intro c hc
  have hparent := htrimmed.wf.mem_children_iff.1 hc
  have hbranch : (doc'.kind c).isBranch = false := by
    rw [hkind, ← Bool.not_eq_true, h.branch_iff p (hwf.mem_descendants.2 hp) c (htrimmed.mem_children hc)]
    exact hne
  refine (evaluable_of_ready htrimmed.wf fun x hx => ?_).1 hbranch
  have hpx : doc'.Spans p x := (Spans.of_parent hparent).trans hx
  have hxp : x ≠ p := by
    rintro rfl
    exact htrimmed.wf.not_spans_parent hparent hx
  have hroot : x ≠ root := by
    rintro rfl
    exact hxp (hpx.eq_of_parent_none htrimmed.wf.parent_root)
  have hspan : doc.Spans root x := hp.trans (htrimmed.spans hwf hpx)
  have hmem := hwf.mem_descendants.2 hspan
  refine ⟨?_, ?_, ?_, ?_, ?_⟩
  · rw [hkind, ← Bool.not_eq_true, h.stylesheet_iff x hmem]
    exact hroot
  · rw [hkind]
    exact hmixin x hpx hxp
  · rw [hkind]
    exact hexpanded x hspan hroot
  · intro y hy
    rw [hkind, hkind]
    exact h.branch_iff x hmem y (htrimmed.mem_children hy)
  · intro hleaf
    rw [hkind] at hleaf
    exact List.sublist_nil.1 (h.leaf x hmem hleaf ▸ htrimmed.sublist x)

/-! ### Rules and plain content -/

theorem final_of_settled {doc : Document} (hwf : doc.WellFormed) {top x : Nat} (h : Settled (doc.fragment top))
    (hx : doc.Spans top x) : doc.Final x := by
  have hsettled : Settled (doc.fragment x) := by
    refine Spans.climb (motive := fun x => Settled (doc.fragment x)) h ?_ hx
    intro c p hp _ ih
    have hmem : doc.fragment c ∈ (doc.fragment p).children := by
      rw [hwf.children_fragment]
      exact List.mem_map_of_mem (hwf.mem_children_iff.2 hp)
    rcases ih.rule_or_plain with ⟨-, hchildren⟩ | ⟨-, hnil⟩
    · exact hchildren _ hmem
    · simp [hnil] at hmem
  have hcases := hsettled.rule_or_plain
  rw [hwf.kind_fragment, hwf.children_fragment, List.map_eq_nil_iff] at hcases
  exact hcases.imp_left And.left

theorem Final.of_alike {doc doc' : Document} {x : Nat} (h : doc.Final x) (halike : (doc.kind x).Alike (doc'.kind x))
    (hsub : (doc'.children x).Sublist (doc.children x)) : doc'.Final x := by
  rcases h with hrule | ⟨hplain, hnil⟩
  · exact Or.inl (halike.isRule_eq.trans hrule)
  · rw [Final, halike.eq_of_not_rule (Kind.isRule_of_isPlain hplain)]
    exact Or.inr ⟨hplain, List.sublist_nil.1 (hnil ▸ hsub)⟩

/-- Once the rules are taken out of one another, a document of rules and plain content is flat. -/
theorem Lifted.flat {doc doc' : Document} (h : Lifted doc doc' root) (hwf : doc.WellFormed)
    (hfinal : ∀ x, doc.Spans root x → x ≠ root → doc.Final x) (hlevel : ∀ c ∈ doc'.children root, doc'.Level c) :
    doc'.Flat := by
  have hkept : ∀ x, doc.Spans root x → x ≠ root → doc'.Final x := fun x hx hne =>
    (hfinal x hx hne).of_alike (h.alike x) (h.sublist x hne)
  have htop : ∀ x ∈ doc'.children root, doc.Spans root x ∧ x ≠ root := fun x hx =>
    ⟨h.spans_of_mem x hx, h.wf.ne_root_of_parent (h.wf.mem_children_iff.1 hx)⟩
  refine ⟨fun x hx => hkept x (htop x hx).1 (htop x hx).2, fun x hx hrule y hy => ?_⟩
  have hparent := hwf.mem_children_iff.1 ((h.sublist x (htop x hx).2).subset hy)
  refine (hkept y ((htop x hx).1.down hparent) (hwf.ne_root_of_parent hparent)).resolve_left ?_
  simp [hlevel x hx hrule y hy]

theorem Flat.trimmed {doc doc' : Document} (h : doc.Flat) (htrimmed : Trimmed doc doc')
    (hkind : ∀ x, doc'.kind x = doc.kind x) : doc'.Flat := by
  constructor
  · intro x hx
    exact (h.top x (htrimmed.mem_children hx)).of_alike (Or.inl (hkind x)) (htrimmed.sublist x)
  · intro x hx hrule y hy
    rw [hkind] at hrule ⊢
    obtain ⟨hplain, hnil⟩ := h.inner x (htrimmed.mem_children hx) hrule y (htrimmed.mem_children hy)
    exact ⟨hplain, List.sublist_nil.1 (hnil ▸ htrimmed.sublist y)⟩

end Document

/-! ### From pass to pass -/

namespace Pass

variable {α β : Type} {P Q R : Document → Run → Prop}

/-- Where `P` holds and the pass succeeds, `Q` holds afterwards. -/
def Leads (P : Document → Run → Prop) (x : Pass α) (Q : Document → Run → Prop) : Prop :=
  ∀ ⦃w a w'⦄, P w.doc w.run → x w = .ok a w' → Q w'.doc w'.run

theorem Leads.bind {x : Pass α} {f : α → Pass β} (hx : Leads P x Q) (hf : ∀ a, Leads Q (f a) R) :
    Leads P (x >>= f) R := by
  intro w b w' hw hrun
  obtain ⟨a, w₁, hfirst, hrest⟩ := exists_of_bind_eq_ok hrun
  exact hf a (hx hw hfirst) hrest

theorem leads_view (f : Workspace → α) : Leads P (view f) P := by
  rintro w a w' hw ⟨⟩
  exact hw

theorem leads_report (event : Event) : Leads P (report event) P := by
  rintro w a w' hw ⟨⟩
  exact hw

theorem leads_verify : Leads P verify P := by
  refine (leads_view _).bind fun outcome => ?_
  rintro w a w' hw hrun
  cases outcome with
  | ok _ =>
    obtain ⟨⟩ := hrun
    exact hw
  | error e => cases hrun

theorem leads_pure (a : α) : Leads P (pure a) P := by
  rintro w a w' hw ⟨⟩
  exact hw

theorem Leads.mono {x : Pass α} (h : Leads P x Q) (hQ : ∀ doc run, Q doc run → R doc run) : Leads P x R :=
  fun _ _ _ hw hrun => hQ _ _ (h hw hrun)

/-- The counters may be changed where they do not matter. -/
theorem Leads.tally {x : Pass α} (h : Leads P x Q) (f : α → Stats → Stats)
    (hf : ∀ a doc run, Q doc run → Q doc { run with stats := f a run.stats }) :
    Leads P (x >>= fun a => editStats (f a) >>= fun _ => pure a) Q := by
  refine h.bind fun a => Leads.bind (Q := Q) ?_ fun _ => leads_pure a
  rintro w _ w' hw ⟨⟩
  exact hf a _ _ hw

theorem sequential_leads : Sequential fun _ P x _ Q => Leads P x Q where
  bind := Leads.bind
  view _ f _ := leads_view f
  report _ := leads_report

/-- The nodes stand where they may, no import is left to be expanded, and nothing has been collected yet. -/
structure Imported (doc : Document) (run : Run) : Prop where
  wf : doc.WellFormed
  orderly : doc.Orderly
  expanded : ∀ x, doc.Spans root x → x ≠ root → Import.reference? (doc.kind x) = none
  points : run.insertionPoints.isEmpty = true
  mixins : run.mixins = ∅

/-- What is in the tree and in the bodies of mixins can be evaluated. The definitions are out of the tree. -/
structure Prepared (doc : Document) (run : Run) : Prop where
  wf : doc.WellFormed
  stylesheet : (doc.kind root).isStylesheet = true
  content : ∀ c ∈ doc.children root, Evaluable (doc.fragment c)
  points : run.insertionPoints.isEmpty = true
  detached : ∀ (name : String) (definition : Nat), run.mixins[name]? = some definition →
    definition < doc.next ∧ doc.isAttached definition = false
  bodies : ∀ (name : String) (definition : Nat), run.mixins[name]? = some definition →
    ∀ c ∈ doc.children definition, Evaluable (doc.fragment c)

/-- There are rules and plain content only. -/
structure Resolved (doc : Document) : Prop where
  wf : doc.WellFormed
  root_not_rule : (doc.kind root).isRule = false
  final : ∀ x, doc.Spans root x → x ≠ root → doc.Final x

structure Flattened (doc : Document) : Prop where
  wf : doc.WellFormed
  root_not_rule : (doc.kind root).isRule = false
  flat : doc.Flat

theorem imported_of_expandImports {library : Import.Library} (hregular : library.Regular) {w w' : Workspace} {n : Nat}
    (hrun : expandImports library w = .ok n w') (hwf : w.doc.WellFormed)
    (hpoints : w.run.insertionPoints.isEmpty = true) (hmixins : w.run.mixins = ∅) (horderly : w'.doc.Orderly) :
    Imported w'.doc w'.run := by
  obtain ⟨hexpected, hwf', -, hrun'⟩ := Import.expanded_of_expandImports hregular hwf hrun
  have hcontent : Import.ExpandedAll (w'.doc.fragment root).children := by
    rw [hwf'.children_fragment]
    exact Import.spliceAll_expanded (fun h => library.content_expanded h) hexpected
  rw [hrun']
  refine ⟨hwf', horderly, fun x hx hne => ?_, hpoints, hmixins⟩
  exact Import.reference?_eq_none_of_isAttached hwf' hcontent (hwf'.isAttached_iff.2 hx) hne

theorem leads_collect : Leads Imported (collect root) Prepared := by
  intro w _ w' hw hrun
  have hroot : (w.doc.kind root).isStylesheet = true :=
    (hw.orderly.stylesheet_iff root (hw.wf.mem_descendants.2 (Spans.refl _ _))).2 rfl
  obtain ⟨directory, hkind⟩ := Kind.exists_of_isStylesheet hroot
  have hnot : (w.doc.kind root).isMixin = false := by simp [hkind, Kind.isMixin]
  obtain ⟨w₁, hrun₁, hgathers⟩ := collect_run hw.wf
  obtain ⟨-, rfl⟩ := EStateM.Result.ok.inj (hrun₁.symm.trans hrun)
  have htrimmed := hgathers.unlinked.trimmed
  have hbelow {p : Nat} :=
    hw.orderly.evaluable_children hw.wf hw.expanded htrimmed hgathers.unlinked.kind_eq (p := p)
  have hdetached {name : String} {definition : Nat} (hname : w₁.run.mixins[name]? = some definition) :=
    hgathers.definition_detached hw.wf hnot hw.mixins hname
  refine ⟨htrimmed.wf, ?_, ?_, ?_, fun _ _ hname => (hdetached hname).2.2, ?_⟩
  · rw [hgathers.unlinked.kind_eq]
    exact hroot
  · exact hbelow (Spans.refl _ _) (by simp [hkind]) fun x hx _ => hgathers.isMixin_eq_false hw.wf hnot hx
  · rw [hgathers.run_eq, (Run.settings_meetAll ..).1]
    exact hw.points
  · intro name definition hname
    obtain ⟨hspan, hmixin, -⟩ := hdetached hname
    refine hbelow hspan (fun hconditional => ?_) fun x hx hne => ?_
    · simp [hconditional, Kind.isMixin] at hmixin
    · have hx := hw.wf.mem_descendants.2 (htrimmed.spans hw.wf hx)
      exact hw.orderly.mixin definition (hw.wf.mem_descendants.2 hspan) hmixin x hx hne

theorem leads_evaluate : Leads Prepared (evaluate root) fun doc _ => Resolved doc := by
  intro w left w' hw hrun
  obtain ⟨directory, hkind⟩ := Kind.exists_of_isStylesheet hw.stylesheet
  obtain ⟨hwf, hkind', out, hout, hfragments⟩ := eval_of_evaluate_root hw.wf hkind hw.points hw.detached hrun
  have henv : w.env.Evaluable := by
    intro name params body hmixin f hf
    obtain ⟨definition, hname, hbody⟩ := Option.map_eq_some_iff.1 hmixin
    obtain ⟨rfl, rfl⟩ := Prod.mk.inj hbody
    obtain ⟨c, hc, rfl⟩ := List.mem_map.1 hf
    exact hw.bodies name definition hname c hc
  have hcontent : ∀ f ∈ (w.doc.children root).map w.doc.fragment, Evaluable f := by
    intro _ hmem
    obtain ⟨c, hc, rfl⟩ := List.mem_map.1 hmem
    exact hw.content c hc
  have hsettled := Env.eval_settled henv hcontent hout
  rw [← hfragments] at hsettled
  refine ⟨hwf, by rw [hkind', hkind]; rfl, fun x hx hne => ?_⟩
  rcases hwf.spans_iff.1 hx with rfl | ⟨c, hc, hspan⟩
  · exact absurd rfl hne
  · exact final_of_settled hwf (hsettled _ (List.mem_map_of_mem hc)) hspan

theorem leads_flatten : Leads (fun doc _ => Resolved doc) (flatten root) fun doc _ => Flattened doc := by
  intro w moved w' hw hrun
  obtain ⟨n, w₁, hrun₁, -, hlifted, hlevel⟩ := flatten_levels hw.wf root
  obtain ⟨-, rfl⟩ := EStateM.Result.ok.inj (hrun₁.symm.trans hrun)
  exact ⟨hlifted.wf, (hlifted.alike root).isRule_eq.trans hw.root_not_rule, hlifted.flat hw.wf hw.final hlevel⟩

theorem leads_prune : Leads (fun doc _ => Flattened doc) (prune root) fun doc _ => doc.Flat ∧ doc.Full := by
  intro w pruned w' hw hrun
  obtain ⟨gone, w₁, hrun₁, hprunes⟩ := prune_prunes hw.wf root
  obtain ⟨-, rfl⟩ := EStateM.Result.ok.inj (hrun₁.symm.trans hrun)
  refine ⟨hw.flat.trimmed hprunes.trimmed hprunes.kind_eq, fun x hx hrule => ?_⟩
  exact hprunes.filled hw.wf hw.root_not_rule (hprunes.wf.mem_descendants.1 hx) hrule

end Pass

namespace Compiler

open Pass

/-- If the nodes stand where they may once the imports of a stylesheet are expanded, then it is flat when it has been
compiled, and none of its rules is empty if these were to be pruned. -/
theorem compile_flat (compiler : Compiler) (w w' : Workspace) (hregular : compiler.library.Regular)
    (hwf : w.doc.WellFormed)
    (horderly : ∀ n w₁, expandImports compiler.library { w with run := (w.run.setActive w.doc).clear } = .ok n w₁ →
      w₁.doc.Orderly)
    (hcompile : compiler.compile w = .ok () w') :
    w'.doc.Flat ∧ (compiler.settings.prune = true → w'.doc.Full) := by
  obtain ⟨n, w₁, log, hexpand, hrest⟩ := exists_of_compile_eq_ok hcompile
  have himported : Imported w₁.doc w₁.run :=
    imported_of_expandImports hregular hexpand hwf rfl rfl (horderly n w₁ hexpand)
  have hreduce : Leads Imported compiler.reduce fun doc _ =>
      doc.Flat ∧ (compiler.settings.prune = true → doc.Full) := by
    refine sequential_leads.reduce compiler compiler rfl Imported Prepared (fun doc _ => Resolved doc)
      (fun doc _ => Flattened doc) _ leads_collect leads_evaluate leads_verify ?_ (fun _ => ?_) fun hnot => ?_
    · exact leads_flatten.tally _ fun _ _ _ => id
    · exact (leads_prune.tally _ fun _ _ _ => id).mono fun _ _ hw => ⟨hw.1, fun _ => hw.2⟩
    · exact (leads_pure ()).mono fun _ _ hw => ⟨hw.flat, fun hset => by simp [hset] at hnot⟩
  exact hreduce (w := { w₁ with log := log }) himported hrest

/-- A CSS import, a variable, a mixin with a rule in a conditional, and a rule in which the mixin is included. -/
def wrapped : Workspace where
  doc := ⟨#[{ kind := .stylesheet none, slots := #[1, 2, 3, 8] },
            { kind := .importRule "a.css" none, parent := some 0 },
            { kind := .assignment "c" "red" false, parent := some 0 },
            { kind := .mixin "m" [], parent := some 0, slots := #[4] },
            { kind := .conditional, parent := some 3, slots := #[5] },
            { kind := .branch none, parent := some 4, slots := #[6] },
            { kind := .rule "b", parent := some 5, slots := #[7] },
            { kind := .declaration "color" "$c", parent := some 6 },
            { kind := .rule "a", parent := some 0, slots := #[9] }, { kind := .inclusion "m" [], parent := some 8 }]⟩

theorem compile_wrapped :
    ∃ w', ({ fallback := [] } : Compiler).compile wrapped = .ok () w' ∧ w'.doc.Flat ∧ w'.doc.Full ∧
      w'.doc.fragment root = ⟨.stylesheet none,
        [⟨.importRule "a.css" none, []⟩, ⟨.rule "a b", [⟨.declaration "color" "red", []⟩]⟩]⟩ := by
  have hwf : wrapped.doc.WellFormed :=
    (ofFragment_spec (f := ⟨.stylesheet none, [⟨.importRule "a.css" none, []⟩, ⟨.assignment "c" "red" false, []⟩,
      ⟨.mixin "m" [], [⟨.conditional, [⟨.branch none, [⟨.rule "b", [⟨.declaration "color" "$c", []⟩]⟩]⟩]⟩]⟩,
      ⟨.rule "a", [⟨.inclusion "m" [], []⟩]⟩]⟩) rfl).1
  have horderly : (Outcome.read? (·.doc) (expandImports ({ fallback := [] } : Compiler).library
      { wrapped with run := (wrapped.run.setActive wrapped.doc).clear })).all (decide ·.Orderly) = true := by
    decide +kernel
  have hvalue : Outcome.read? (·.doc.fragment root) (({ fallback := [] } : Compiler).compile wrapped) =
      some ⟨.stylesheet none,
        [⟨.importRule "a.css" none, []⟩, ⟨.rule "a b", [⟨.declaration "color" "red", []⟩]⟩]⟩ := by
    decide +kernel
  have h := fun w' => compile_flat { fallback := [] } wrapped w' (regular_of_parse_eq rfl) hwf fun n w₁ hexpand => by
    rw [hexpand] at horderly
    exact of_decide_eq_true horderly
  obtain ⟨_, w', hcompile, hfragment⟩ := Outcome.exists_of_read?_eq_some hvalue
  exact ⟨w', hcompile, (h w' hcompile).1, (h w' hcompile).2 rfl, hfragment⟩

end Compiler

end NestedStyles
