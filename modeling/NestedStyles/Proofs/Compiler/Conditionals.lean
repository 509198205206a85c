import NestedStyles.Proofs.Compiler.Definitions
import NestedStyles.Proofs.Walk.Restoring

/-!
# Conditionals in what is compiled

Evaluation replaces every conditional it comes to, so none is left in the tree (`Env.eval_decided`). Collecting has
noted those of the tree that are not inside of a definition, and each of them is counted as resolved when it is
replaced. One that is never reached, because it stands in a branch that is not taken, stays among those to be decided,
and it is out of the tree in the end. So no conditional gets lost (`compile_accounts_conditionals`).
-/

namespace NestedStyles

open Document Semantics

/-- A fragment without conditionals. -/
inductive Semantics.Decided : Fragment → Prop
  | mk {kind : Kind} {children : List Fragment} (hkind : kind ≠ .conditional)
      (hchildren : ∀ f ∈ children, Decided f) : Decided ⟨kind, children⟩

namespace Semantics.Env

variable {env : Env} {scope : Reference.Lookup} {n : Nat}

theorem react_decides {f : Fragment} {r : Reaction} {kind : Kind} (h : env.react scope n f = .ok r)
    (hkept : r.kept = some kind) : kind ≠ .conditional := by
  obtain ⟨own, children⟩ := f
  cases own with
  | inclusion name args =>
    rw [react] at h
    split at h
    · split at h
      · simp at h
      · obtain rfl := Except.ok.inj h
        simp at hkept
    · split at h
      · simp at h
      · obtain rfl := Except.ok.inj h
        simp at hkept
  | assignment | conditional =>
    obtain rfl := Except.ok.inj h
    simp at hkept
  | _ =>
    obtain rfl := Except.ok.inj h
    obtain rfl := Option.some.inj hkept
    simp

/-- No conditional is left of what has been evaluated. -/
theorem eval_decided {fs : List Fragment} {out : Evaluated n} (h : env.eval scope n fs = .ok out) :
    ∀ f ∈ out.fragments, Decided f := by
  induction scope, n, fs using Env.eval.induct env with
  | case1 scope n =>
    rw [eval_nil] at h
    obtain rfl := Except.ok.inj h
    simp
  | case2 scope n f fs e hr => simp [eval_cons_refused hr] at h
  | case3 scope n f fs r hr e hbelow => simp [eval_cons_stopped hr hbelow] at h
  | case4 scope n f fs r hr inner hbelow e hrest => simp [eval_cons_failed hr hbelow hrest] at h
  | case5 scope n f fs r hr inner hbelow rest hrest ihbelow ihrest =>
    obtain ⟨out', hout', -, hfragments⟩ := eval_cons_done hr hbelow hrest
    obtain rfl := Except.ok.inj (hout'.symm.trans h)
    intro g hg
    rw [hfragments, List.mem_append] at hg
    rcases hg with hg | hg
    · obtain ⟨kind, hkind, rfl⟩ : ∃ kind, r.kept = some kind ∧ ⟨kind, inner.fragments⟩ = g := by simpa using hg
      exact .mk (react_decides hr hkind) (ihbelow hbelow)
    · exact ihrest hrest g hg

end Semantics.Env

namespace Document

/-- The conditionals of the tree that are not inside of a definition, in document order. -/
def conditionals (doc : Document) : List Nat := (doc.exposed root).filter fun x => doc.kind x = .conditional

/-- There is no conditional in the tree. -/
def AllDecided (doc : Document) : Prop := ∀ x, doc.Spans root x → doc.kind x ≠ .conditional

theorem WellFormed.kind_of_decided {doc : Document} (hwf : doc.WellFormed) {x y : Nat}
    (h : Decided (doc.fragment x)) (hspan : doc.Spans x y) : doc.kind y ≠ .conditional := by
  induction x using hwf.children_induction with
  | step x ih =>
    rw [hwf.fragment_eq] at h
    cases h with
    | mk hkind hchildren =>
      rcases hwf.spans_iff.1 hspan with rfl | ⟨c, hc, hspan⟩
      · exact hkind
      · exact ih c hc (hchildren _ (List.mem_map_of_mem hc)) hspan

end Document

theorem Kind.Alike.eq_conditional {kind kind' : Kind} (h : kind.Alike kind') :
    kind' = .conditional ↔ kind = .conditional := by
  rcases h with rfl | ⟨hrule, hrule'⟩
  · rfl
  · cases kind <;> cases kind' <;> simp_all [Kind.isRule]

namespace Pass

variable {listed : List Nat}

/-- The listed nodes are conditionals. Each of them has been counted as resolved or is still to be decided, and nothing
else is. -/
structure Balanced (listed : List Nat) (doc : Document) (run : Run) : Prop where
  conditional : ∀ x ∈ listed, doc.kind x = .conditional
  pending : ∀ x ∈ run.pending, x ∈ listed
  balance : run.stats.conditionalsResolved + run.pending.size = listed.length

/-- The state after evaluation and after each pass that follows. -/
structure Concluded (listed : List Nat) (doc : Document) (run : Run) : Prop where
  wf : doc.WellFormed
  decided : doc.AllDecided
  balanced : Balanced listed doc run

/-- A stylesheet of which no conditional has been noted yet. -/
structure Unnoted (doc : Document) (run : Run) : Prop where
  uncollected : Uncollected doc run
  pending : run.pending = ∅
  resolved : run.stats.conditionalsResolved = 0

theorem unnoted_of_expandImports {library : Import.Library} (hregular : library.Regular) {w w' : Workspace} {n : Nat}
    (hrun : expandImports library w = .ok n w') (hw : Unnoted w.doc w.run) : Unnoted w'.doc w'.run := by
  have huncollected := uncollected_of_expandImports hregular hrun hw.uncollected
  obtain ⟨-, -, -, hrun'⟩ := Import.expanded_of_expandImports hregular hw.uncollected.wf hrun
  refine ⟨huncollected, ?_, ?_⟩
  · rw [hrun']
    exact hw.pending
  · rw [hrun']
    exact hw.resolved

/-- What collecting notes. -/
theorem collect_notes_conditionals {w : Workspace} (hw : Unnoted w.doc w.run) :
    ∃ w', collect root w = .ok () w' ∧ (∀ x, x ∈ w'.run.pending ↔ x ∈ w.doc.conditionals) ∧
      Balanced w.doc.conditionals w'.doc w'.run := by
  have hwf := hw.uncollected.wf
  obtain ⟨w', hrun, hgathers⟩ := collect_run hwf
  have hmem : ∀ x, x ∈ w'.run.pending ↔ x ∈ w.doc.conditionals := by
    intro x
    rw [hgathers.run_eq, Run.mem_pending_meetAll, hw.pending, conditionals, List.mem_filter, decide_eq_true_iff]
    simp
  refine ⟨w', hrun, hmem, ?_, fun x hx => (hmem x).1 hx, ?_⟩
  · intro x hx
    rw [hgathers.unlinked.kind_eq]
    simpa using (List.mem_filter.1 hx).2
  · have hnodup : (w.doc.exposed root).Nodup := (hwf.nodup_descendants root).filter _
    rw [hgathers.run_eq, Run.stats_meetAll, Run.size_pending_meetAll hnodup (by simp [hw.pending]), hw.pending]
    show w.run.stats.conditionalsResolved + (0 + w.doc.conditionals.length) = _
    rw [hw.resolved]
    omega

theorem leads_collect_balanced (start : Document) :
    Leads (fun doc run => Unnoted doc run ∧ doc = start) (collect root) fun doc run =>
      Stripped start.Nests doc run ∧ Balanced start.conditionals doc run := by
  rintro w _ w' ⟨hw, rfl⟩ hrun
  obtain ⟨w₁, hrun₁, -, hbalanced⟩ := collect_notes_conditionals hw
  obtain ⟨-, rfl⟩ := EStateM.Result.ok.inj (hrun₁.symm.trans hrun)
  exact ⟨stripped_of_collect hw.uncollected hrun, hbalanced⟩

theorem leads_evaluate_concluded {p : String × List Param → Prop} :
    Leads (fun doc run => Stripped p doc run ∧ Balanced listed doc run) (evaluate root) (Concluded listed) := by
  rintro w left w' ⟨hw, hbalanced⟩ hrun
  obtain ⟨directory, hkind⟩ := Kind.exists_of_isStylesheet hw.stylesheet
  obtain ⟨hwf, hkind', out, hout, hfragments⟩ := eval_of_evaluate_root hw.wf hkind hw.points hw.detached hrun
  have hbooked := booked_of_evaluate hw.wf hw.wf.root_lt_next hrun
  refine ⟨hwf, fun x hx => ?_, fun x hx => ?_, fun x hx => ?_, ?_⟩
  · rcases hwf.spans_iff.1 hx with rfl | ⟨c, hc, hspan⟩
    · simp [hkind', hkind]
    · have hdecided := Env.eval_decided hout
      rw [← hfragments] at hdecided
      exact hwf.kind_of_decided (hdecided _ (List.mem_map_of_mem hc)) hspan
  · exact hbooked.conditional x (hbalanced.conditional x hx)
  · exact hbalanced.pending x (hbooked.pending x hx)
  · exact hbooked.balance.trans hbalanced.balance

theorem leads_flatten_concluded : Leads (Concluded listed) (flatten root) (Concluded listed) := by
  intro w moved w' hw hrun
  obtain ⟨n, w₁, hrun₁, hsame, hlifted, -⟩ := flatten_levels hw.wf root
  obtain ⟨-, rfl⟩ := EStateM.Result.ok.inj (hrun₁.symm.trans hrun)
  rw [hsame]
  refine ⟨hlifted.wf, fun x hx => ?_, fun x hx => ?_, hw.balanced.pending, hw.balanced.balance⟩
  · rw [Ne, (hlifted.alike x).eq_conditional]
    exact hw.decided x (hlifted.spans hw.wf hx)
  · exact (hlifted.alike x).eq_conditional.2 (hw.balanced.conditional x hx)

theorem leads_prune_concluded : Leads (Concluded listed) (prune root) (Concluded listed) := by
  intro w pruned w' hw hrun
  obtain ⟨gone, w₁, hrun₁, hprunes⟩ := prune_prunes hw.wf root
  obtain ⟨-, rfl⟩ := EStateM.Result.ok.inj (hrun₁.symm.trans hrun)
  rw [hprunes.run_eq]
  refine ⟨hprunes.wf, fun x hx => ?_, fun x hx => ?_, hw.balanced.pending, hw.balanced.balance⟩
  · rw [hprunes.kind_eq]
    exact hw.decided x (hprunes.trimmed.spans hw.wf hx)
  · rw [hprunes.kind_eq]
    exact hw.balanced.conditional x hx

/-- The other counters do not matter. -/
theorem Concluded.tally {doc : Document} {run : Run} {stats : Stats} (h : Concluded listed doc run)
    (hstats : stats.conditionalsResolved = run.stats.conditionalsResolved) :
    Concluded listed doc { run with stats := stats } := by
  refine ⟨h.wf, h.decided, h.balanced.conditional, h.balanced.pending, ?_⟩
  rw [← h.balanced.balance, ← hstats]

end Pass

namespace Compiler

open Pass

/-- No conditional is left in a compiled stylesheet. The conditionals that collecting has noted, once the imports were
expanded, are those of the tree that are not inside of a definition. Each of them has been counted as resolved or is
still to be decided, and a conditional that is still to be decided is out of the tree. -/
theorem compile_accounts_conditionals (compiler : Compiler) (w w' : Workspace) (hregular : compiler.library.Regular)
    (hwf : w.doc.WellFormed) (hroot : (w.doc.kind root).isStylesheet = true)
    (hcompile : compiler.compile w = .ok () w') :
    ∃ n w₁ w₂, expandImports compiler.library { w with run := (w.run.setActive w.doc).clear } = .ok n w₁ ∧
      collect root w₁ = .ok () w₂ ∧ (∀ x, x ∈ w₂.run.pending ↔ x ∈ w₁.doc.conditionals) ∧
      (∀ x ∈ w'.doc.descendants root, w'.doc.kind x ≠ .conditional) ∧
      (∀ x ∈ w'.run.pending,
        w'.doc.kind x = .conditional ∧ w'.doc.isAttached x = false ∧ x ∈ w₁.doc.conditionals) ∧
      w'.run.stats.conditionalsResolved + w'.run.pending.size = w₁.doc.conditionals.length := by
  obtain ⟨n, w₁, log, hexpand, hrest⟩ := exists_of_compile_eq_ok hcompile
  have hstart : Unnoted w₁.doc w₁.run :=
    unnoted_of_expandImports hregular hexpand ⟨⟨hwf, hroot, rfl, rfl⟩, rfl, rfl⟩
  obtain ⟨w₂, hcollect, hnoted, -⟩ := collect_notes_conditionals hstart
  have hreduce : Leads (fun doc run => Unnoted doc run ∧ doc = w₁.doc) compiler.reduce
      (Concluded w₁.doc.conditionals) :=
    sequential_leads.reduce compiler compiler rfl _ _ _ _ _ (leads_collect_balanced _) leads_evaluate_concluded
      leads_verify (leads_flatten_concluded.tally _ fun _ _ _ h => h.tally rfl)
      (fun _ => leads_prune_concluded.tally _ fun _ _ _ h => h.tally rfl) fun _ => leads_pure ()
  obtain ⟨hwf', hdecided, hbalanced⟩ := hreduce (w := { w₁ with log := log }) ⟨hstart, rfl⟩ hrest
  refine ⟨n, w₁, w₂, hexpand, hcollect, hnoted, fun x hx => hdecided x (hwf'.mem_descendants.1 hx), fun x hx => ?_,
    hbalanced.balance⟩
  have hlisted := hbalanced.pending x hx
  have hkind := hbalanced.conditional x hlisted
  refine ⟨hkind, ?_, hlisted⟩
  rw [← Bool.not_eq_true, hwf'.isAttached_iff]
  exact fun hspan => hdecided x hspan hkind

/-- A conditional in the body of a mixin, and one that includes the mixin in its second branch. In its first branch,
which is not taken, there is a third one. -/
def forked : Workspace where
  doc := ⟨#[{ kind := .stylesheet none, slots := #[1, 5] },
            { kind := .mixin "m" [], parent := some 0, slots := #[2] },
            { kind := .conditional, parent := some 1, slots := #[3] },
            { kind := .branch none, parent := some 2, slots := #[4] },
            { kind := .declaration "top" "0", parent := some 3 },
            { kind := .conditional, parent := some 0, slots := #[6, 8] },
            { kind := .branch (some "1 == 2"), parent := some 5, slots := #[7] },
            { kind := .conditional, parent := some 6 },
            { kind := .branch none, parent := some 5, slots := #[9] },
            { kind := .rule ".a", parent := some 8, slots := #[10] },
            { kind := .inclusion "m" [], parent := some 9 }]⟩

theorem compile_forked :
    ∃ w', ({ fallback := [] } : Compiler).compile forked = .ok () w' ∧
      (∀ x ∈ w'.doc.descendants root, w'.doc.kind x ≠ .conditional) ∧ w'.run.stats.conditionalsResolved = 1 ∧
      w'.run.pending.size = 1 ∧ 7 ∈ w'.run.pending ∧ w'.doc.kind 7 = .conditional ∧ w'.doc.isAttached 7 = false ∧
      ∃ n w₁, expandImports ({ fallback := [] } : Compiler).library
        { forked with run := (forked.run.setActive forked.doc).clear } = .ok n w₁ ∧ w₁.doc.conditionals.length = 2 := by
  have hwf : forked.doc.WellFormed :=
    (ofFragment_spec (f := ⟨.stylesheet none, [⟨.mixin "m" [], [⟨.conditional, [⟨.branch none,
      [⟨.declaration "top" "0", []⟩]⟩]⟩]⟩, ⟨.conditional, [⟨.branch (some "1 == 2"), [⟨.conditional, []⟩]⟩,
        ⟨.branch none, [⟨.rule ".a", [⟨.inclusion "m" [], []⟩]⟩]⟩]⟩]⟩) rfl).1
  have hvalue : Outcome.read? (fun w => (w.run.stats.conditionalsResolved, w.run.pending.toList))
      (({ fallback := [] } : Compiler).compile forked) = some (1, [7]) := by
    decide +kernel
  obtain ⟨_, w', hcompile, hcounted⟩ := Outcome.exists_of_read?_eq_some hvalue
  obtain ⟨hresolved, hpending⟩ := Prod.mk.inj hcounted
  obtain ⟨n, w₁, w₂, hexpand, -, -, hdecided, hleft, hbalance⟩ := compile_accounts_conditionals { fallback := [] } forked
    w' (regular_of_parse_eq rfl) hwf rfl hcompile
  have hsize : w'.run.pending.size = 1 := by rw [← Std.TreeSet.length_toList, hpending]; rfl
  have hmem : 7 ∈ w'.run.pending := by rw [← Std.TreeSet.mem_toList, hpending]; exact List.mem_cons_self
  refine ⟨w', hcompile, hdecided, hresolved, hsize, hmem, (hleft 7 hmem).1, (hleft 7 hmem).2.1, n, w₁, hexpand, ?_⟩
  rw [← hbalance, hresolved, hsize]

end Compiler

end NestedStyles
