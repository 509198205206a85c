import NestedStyles.Import
import NestedStyles.Proofs.Walk.Refinement

/-!
# What evaluation comes to

Of a stylesheet whose nodes stand where they may (`Evaluable`) evaluation leaves rules and plain content only
(`Settled`): assignments, inclusions and conditionals are gone, also those that the body of a mixin or of a branch
brought in (`Env.eval_settled`). The document has that content after its evaluation (`eval_of_evaluate_root`).
-/

namespace NestedStyles

open Document Semantics

namespace Kind

def isBranch : Kind → Bool
  | branch _ => true
  | _ => false

/-- Whether nothing may be below a node of the kind. -/
def isLeaf : Kind → Bool
  | declaration _ _ | assignment _ _ _ | inclusion _ _ | importRule _ _ | comment _ | raw _ => true
  | _ => false

/-- Whether a kind is style text as it is. -/
def isPlain : Kind → Bool
  | declaration _ _ | comment _ | raw _ => true
  | importRule href media => Import.isCss href media
  | _ => false

end Kind

namespace Semantics

/-- A fragment that evaluation can work on: there is nothing below its leaves, the children of conditionals are
branches, and no mixin is defined in it. Its imports have been expanded. -/
inductive Evaluable : Fragment → Prop
  | rule {selector : String} {children : List Fragment} (h : ∀ f ∈ children, Evaluable f) :
      Evaluable ⟨.rule selector, children⟩
  | leaf {kind : Kind} (h : kind.isLeaf = true) (himport : Import.reference? kind = none) : Evaluable ⟨kind, []⟩
  | conditional {branches : List Fragment} (h : ∀ b ∈ branches, b.kind.isBranch = true)
      (hbodies : ∀ b ∈ branches, ∀ f ∈ b.children, Evaluable f) : Evaluable ⟨.conditional, branches⟩

/-- A fragment of rules and plain content. -/
inductive Settled : Fragment → Prop
  | rule {selector : String} {children : List Fragment} (h : ∀ f ∈ children, Settled f) :
      Settled ⟨.rule selector, children⟩
  | plain {kind : Kind} (h : kind.isPlain = true) : Settled ⟨kind, []⟩

theorem Settled.rule_or_plain {f : Fragment} (h : Settled f) :
    f.kind.isRule = true ∧ (∀ g ∈ f.children, Settled g) ∨ f.kind.isPlain = true ∧ f.children = [] := by
  cases h with
  | rule hchildren => exact Or.inl ⟨rfl, hchildren⟩
  | plain hplain => exact Or.inr ⟨hplain, rfl⟩

/-! ### Substitution -/

theorem mapTextAll_eq_map (g : String → String) (fs : List Fragment) :
    Fragment.mapTextAll g fs = fs.map (Fragment.mapText g) := by
  induction fs with
  | nil => rfl
  | cons f fs ih => rw [Fragment.mapTextAll, ih, List.map_cons]

theorem isBranch_mapText (g : String → String) (f : Fragment) : (f.mapText g).kind.isBranch = f.kind.isBranch := by
  obtain ⟨kind, children⟩ := f
  rw [Fragment.mapText]
  cases kind <;> rfl

theorem children_mapText (g : String → String) (f : Fragment) :
    (f.mapText g).children = f.children.map (Fragment.mapText g) := by
  obtain ⟨kind, children⟩ := f
  rw [Fragment.mapText, mapTextAll_eq_map]

theorem Evaluable.mapText {f : Fragment} (h : Evaluable f) (g : String → String) : Evaluable (f.mapText g) := by
  induction h with
  | rule h ih =>
    rw [Fragment.mapText, mapTextAll_eq_map]
    refine .rule fun _ hmem => ?_
    obtain ⟨f, hf, rfl⟩ := List.mem_map.1 hmem
    exact ih f hf
  | @leaf kind h himport =>
    cases kind with
    | importRule href media => exact .leaf h himport
    | declaration | assignment | inclusion | comment | raw => exact .leaf rfl rfl
    | _ => simp [Kind.isLeaf] at h
  | conditional h hbodies ih =>
    rw [Fragment.mapText, mapTextAll_eq_map]
    refine .conditional (fun _ hmem => ?_) (fun _ hmem _ hmem' => ?_)
    · obtain ⟨b, hb, rfl⟩ := List.mem_map.1 hmem
      rw [isBranch_mapText]
      exact h b hb
    · obtain ⟨b, hb, rfl⟩ := List.mem_map.1 hmem
      rw [children_mapText] at hmem'
      obtain ⟨f, hf, rfl⟩ := List.mem_map.1 hmem'
      exact ih b hb f hf

/-! ### Evaluation -/

namespace Env

variable {env : Env} {scope : Reference.Lookup} {n : Nat} {f : Fragment} {r : Reaction}

/-- Evaluation can work on the bodies of all mixins. -/
def Evaluable (env : Env) : Prop :=
  ∀ name params body, env.mixin? name = some (params, body) → ∀ f ∈ body, Semantics.Evaluable f

theorem chosen_evaluable {branches : List Fragment} (h : ∀ b ∈ branches, ∀ f ∈ b.children, Semantics.Evaluable f) :
    ∀ f ∈ env.chosen scope branches, Semantics.Evaluable f := by
  induction branches with
  | nil => simp [chosen]
  | cons b rest ih =>
    have hfirst := h b List.mem_cons_self
    have hrest := ih fun b hb => h b (.tail _ hb)
    obtain ⟨kind, body⟩ := b
    cases kind with
    | branch condition =>
      cases condition with
      | none => exact hfirst
      | some condition =>
        rw [chosen]
        split
        · exact hfirst
        · exact hrest
    | _ => exact hrest

theorem instance?_evaluable (henv : env.Evaluable) {name : String} {args : List String} {body : List Fragment}
    (h : env.instance? scope name args = some body) : ∀ f ∈ body, Semantics.Evaluable f := by
  rw [instance?, Option.map_eq_some_iff] at h
  obtain ⟨⟨params, body⟩, hmixin, rfl⟩ := h
  intro _ hmem
  simp only [mapTextAll_eq_map] at hmem
  obtain ⟨f, hf, rfl⟩ := List.mem_map.1 hmem
  exact (henv name params body hmixin f hf).mapText _

/-- What is still to be evaluated after a reaction can be evaluated, and what is kept is a rule or plain. -/
theorem react_evaluable (henv : env.Evaluable) (hf : Semantics.Evaluable f) (h : env.react scope n f = .ok r) :
    (∀ g ∈ r.below, Semantics.Evaluable g) ∧ (∀ g ∈ r.body, Semantics.Evaluable g) ∧
      ∀ kind, r.kept = some kind → kind.isRule = true ∨ kind.isPlain = true ∧ r.below = [] := by
  cases hf with
  | rule hchildren =>
    obtain rfl := Except.ok.inj h
    exact ⟨hchildren, by simp, by rintro _ ⟨⟩; exact Or.inl rfl⟩
  | conditional hkind hbodies =>
    obtain rfl := Except.ok.inj h
    exact ⟨by simp, chosen_evaluable hbodies, by simp⟩
  | @leaf kind hleaf himport =>
    cases kind with
    | declaration | comment | raw =>
      obtain rfl := Except.ok.inj h
      exact ⟨by simp, by simp, by rintro _ ⟨⟩; exact Or.inr ⟨rfl, rfl⟩⟩
    | assignment =>
      obtain rfl := Except.ok.inj h
      exact ⟨by simp, by simp, by simp⟩
    | importRule href media =>
      obtain rfl := Except.ok.inj h
      refine ⟨by simp, by simp, ?_⟩
      rintro _ ⟨⟩
      have hcss : Import.isCss href media = true := by simpa [Import.reference?] using himport
      exact Or.inr ⟨hcss, rfl⟩
    | inclusion name args =>
      rw [react] at h
      split at h
      · split at h
        · simp at h
        · obtain rfl := Except.ok.inj h
          exact ⟨by simp, by simp, by simp⟩
      · next body hbody =>
        split at h
        · simp at h
        · obtain rfl := Except.ok.inj h
          exact ⟨by simp, instance?_evaluable henv hbody, by simp⟩
    | _ => simp [Kind.isLeaf] at hleaf

private theorem settled_of_kept {kind : Kind} (hkept : kind.isRule = true ∨ kind.isPlain = true ∧ r.below = [])
    {inner : Evaluated r.expansions} (hinner : ∀ f ∈ inner.fragments, Settled f)
    (hbelow : env.eval r.scope r.expansions r.below = .ok inner) : Settled ⟨kind, inner.fragments⟩ := by
  rcases hkept with hrule | ⟨hplain, hnil⟩
  · cases kind with
    | rule selector => exact .rule hinner
    | _ => simp [Kind.isRule] at hrule
  · rw [hnil, eval_nil] at hbelow
    obtain rfl := Except.ok.inj hbelow
    exact .plain hplain

theorem eval_settled (henv : env.Evaluable) {fs : List Fragment} (hfs : ∀ f ∈ fs, Semantics.Evaluable f)
    {out : Evaluated n} (h : env.eval scope n fs = .ok out) : ∀ f ∈ out.fragments, Settled f := by
  induction scope, n, fs using Env.eval.induct env with
  | case1 scope n =>
    rw [eval_nil] at h
    obtain rfl := Except.ok.inj h
    simp
  | case2 scope n f fs e hr => simp [eval_cons_refused hr] at h
  | case3 scope n f fs r hr e hbelow => simp [eval_cons_stopped hr hbelow] at h
  | case4 scope n f fs r hr inner hbelow e hrest => simp [eval_cons_failed hr hbelow hrest] at h
  | case5 scope n f fs r hr inner hbelow rest hrest ihbelow ihrest =>
    obtain ⟨hbelow', hbody, hkept⟩ := react_evaluable henv (hfs f List.mem_cons_self) hr
    have hinner := ihbelow hbelow' hbelow
    have hothers : ∀ g ∈ rest.fragments, Settled g := by
      refine ihrest (fun g hg => ?_) hrest
      rcases List.mem_append.1 hg with hg | hg
      · exact hbody g hg
      · exact hfs g (.tail f hg)
    obtain ⟨out', hout', -, hfragments⟩ := eval_cons_done hr hbelow hrest
    obtain rfl := Except.ok.inj (hout'.symm.trans h)
    intro g hg
    rw [hfragments, List.mem_append] at hg
    rcases hg with hg | hg
    · obtain ⟨kind, hkind, rfl⟩ : ∃ kind, r.kept = some kind ∧ ⟨kind, inner.fragments⟩ = g := by simpa using hg
      exact settled_of_kept (hkept kind hkind) hinner hbelow
    · exact hothers g hg

end Env

end Semantics

/-! ### Documents -/

namespace Pass

variable {w w' : Workspace}

/-- When the evaluation of a document succeeds, the content of the root is what evaluation by value gives. -/
theorem eval_of_evaluate_root {left : Bool} (hwf : w.doc.WellFormed) {directory : Option String}
    (hkind : w.doc.kind root = .stylesheet directory) (hpoints : w.run.insertionPoints.isEmpty = true)
    (hmixins : ∀ (name : String) (definition : Nat), w.run.mixins[name]? = some definition →
      definition < w.doc.next ∧ w.doc.isAttached definition = false)
    (hrun : evaluate root w = .ok left w') :
    w'.doc.WellFormed ∧ w'.doc.kind root = w.doc.kind root ∧
      ∃ out, w.env.eval w.run.lookup w.run.stats.mixinsExpanded ((w.doc.children root).map w.doc.fragment) = .ok out ∧
        (w'.doc.children root).map w'.doc.fragment = out.fragments := by
  rcases evaluate_root_cases hwf hkind hpoints hmixins with
    ⟨w₁, out, hok, hwf', hkind', hout, hfragments, -⟩ | ⟨e, w₁, herror, -⟩
  · obtain ⟨-, rfl⟩ := EStateM.Result.ok.inj (hok.symm.trans hrun)
    exact ⟨hwf', hkind', out, hout, hfragments⟩
  · simp [herror] at hrun

end Pass

end NestedStyles
