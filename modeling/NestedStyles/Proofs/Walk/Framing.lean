import NestedStyles.Proofs.Document.Traversal
import NestedStyles.Proofs.Walk.Termination

/-!
# What an evaluation leaves alone

An evaluation of a node works at the node, below it and in the list of children that the node stands in. Everything else
stays as it is, whether the evaluation succeeds or fails (`Evaluates.framed`). In the list the other children keep their
order, and what comes in was below the node or is a copy from the body of a mixin (`Rehung`). So the definition of a
mixin keeps its content however often it is expanded, unless the node is inside of it (`evaluate_confined`,
`evaluate_enclosed`).
-/

namespace NestedStyles

open Document Semantics

namespace Pass

/-- A node is new, and it holds a copy of a child of a definition, with values put in for the parameters. -/
def IsCopy (w w' : Workspace) (x : Nat) : Prop :=
  w.doc.next ≤ x ∧ ∃ (name : String) (definition c : Nat) (values : ParamValues),
    w.run.mixins[name]? = some definition ∧ c ∈ w.doc.children definition ∧
      w'.doc.fragment x = (w.doc.fragment c).mapText (Reference.substitute (values[·]?))

/-- What becomes of the children of a parent while one of them is evaluated. That one stays or goes. -/
structure Rehung (w w' : Workspace) (node parent : Nat) : Prop where
  order : (w.doc.children parent).Sublist (w'.doc.children parent) ∨
    node ∉ w'.doc.children parent ∧ ((w.doc.children parent).erase node).Sublist (w'.doc.children parent)
  added : ∀ x ∈ w'.doc.children parent, x ∉ w.doc.children parent → w.doc.Spans node x ∨ IsCopy w w' x

variable {w w₁ w₂ w' : Workspace} {node parent : Nat} {body : List Nat} {r : Reaction}

theorem rehung_of_children_eq (h : w'.doc.children parent = w.doc.children parent) : Rehung w w' node parent where
  order := Or.inl (by rw [h])
  added x hx hnot := absurd (h ▸ hx) hnot

/-! ### New nodes -/

section Visit

variable (hwf : w.doc.WellFormed) (hparent : w.doc.parent node = some parent) (hvisit : visit node w = .ok () w₁)
  (hvisited : Visited node parent w w₁ r body)
  (hr : w.env.react w.run.lookup w.run.stats.mixinsExpanded (w.doc.fragment node) = .ok r)

include hwf hparent hvisit hvisited hr

/-- A new node that a visit brings in is a copy. -/
theorem isCopy_of_visited {x : Nat} (hx : x ∈ body) (hnew : w.doc.next ≤ x) (hlt : x < w₁.doc.next) :
    IsCopy w w₁ x := by
  have hmem : w₁.doc.fragment x ∈ r.body := by
    rw [← hvisited.body]
    exact List.mem_map_of_mem hx
  rw [hwf.fragment_eq] at hr
  rw [visit_run] at hvisit
  cases hkind : w.doc.kind node with
  | inclusion name args =>
    rw [hkind, Env.react] at hr
    cases hmixin : w.run.mixins[name]? with
    | none =>
      simp only [instance?_of_none hmixin] at hr
      split at hr
      · simp at hr
      · obtain rfl := Except.ok.inj hr
        simp at hmem
    | some definition =>
      simp only [instance?_of_some hmixin args rfl] at hr
      split at hr
      · simp at hr
      · obtain rfl := Except.ok.inj hr
        obtain ⟨c, hc, hcopy⟩ := List.mem_map.1 hmem
        exact ⟨hnew, name, definition, c, _, hmixin, hc, hcopy.symm⟩
  | conditional =>
    -- no node is new where a conditional is decided
    rw [hkind] at hvisit
    obtain ⟨_, _, _, _, hrun, -, -, -, hnext, -⟩ := decideConditional_run (w := counted w node) hwf hparent rfl rfl
    obtain ⟨-, rfl⟩ := EStateM.Result.ok.inj (hrun.symm.trans hvisit)
    rw [hnext] at hlt
    exact absurd hlt (Nat.not_lt.2 hnew)
  | _ =>
    rw [hkind, Env.react] at hr
    · obtain rfl := Except.ok.inj hr
      simp at hmem
    all_goals simp

/-- What a visit does to the list that its node stands in, and what the walk below the node does not change any more. -/
theorem rehung_of_visited (hbelow : Advanced w₁ w₂ (w₁.doc.children node) node) : Rehung w w₂ node parent := by
  have houtside := outside_below hwf hvisited (hwf.parent_lt_next hparent)
    (Or.inr (not_spans_home hwf hparent hvisited))
  have hchildren : w₂.doc.children parent = w₁.doc.children parent :=
    hbelow.frame.children_eq houtside fun h => hwf.parent_ne hparent (Option.some.inj h)
  rcases hvisited.change with ⟨kind, hkept, hdoc, -⟩ | ⟨hkept, start, before, after, emptied, hdoc, -⟩
  · exact rehung_of_children_eq (hchildren.trans (hdoc.children_eq parent))
  · have hlist : w₂.doc.children parent = (before ++ start :: (body ++ after)).erase node :=
      hchildren.trans hdoc.children_parent
    have hsublist : (before ++ start :: after).Sublist (before ++ start :: (body ++ after)) :=
      (List.Sublist.refl before).append ((List.sublist_append_right body after).cons_cons start)
    constructor
    · rw [hlist, hdoc.split]
      exact Or.inr ⟨hdoc.nodup.not_mem_erase, hsublist.erase node⟩
    · intro x hx hnot
      have hbody : x ∈ body := by
        have hmem := List.mem_of_mem_erase (hlist ▸ hx)
        rw [hdoc.split] at hnot
        simp only [List.mem_append, List.mem_cons] at hmem hnot
        tauto
      by_cases hlt : x < w.doc.next
      · have hinside := hdoc.body_inside hbody
        rw [outside_singleton] at hinside
        exact Or.inl (by_contra fun hspan => hinside ⟨hlt, hspan⟩)
      · have hx₁ : x ∈ w₁.doc.children parent := hchildren ▸ hx
        obtain ⟨hnew, name, definition, c, values, hmixin, hc, hcopy⟩ :=
          isCopy_of_visited hwf hparent hvisit hvisited hr hbody (by omega) (hdoc.wf.child_lt_next hx₁)
        have hwhole : w₁.doc.children parent =
            [] ++ (r.kept.map fun _ => node).toList ++ w₁.doc.children parent := by simp [hkept]
        have hclear := clear_todo hwf hparent hvisited hwhole hx₁
        refine Or.inr ⟨hnew, name, definition, c, values, hmixin, hc, ?_⟩
        rw [← hcopy]
        exact hbelow.frame.fragment_eq hdoc.wf hbelow.wf hclear

end Visit

/-! ### Whole evaluations -/

/-- What is done to a document while `node` is evaluated, from `w` to `w'`. -/
structure Framed (w w' : Workspace) (node : Nat) : Prop where
  wf : w'.doc.WellFormed
  frame : Frame w.doc w'.doc [node] (w.doc.parent node)
  mixins : w'.run.mixins = w.run.mixins
  home : ∀ parent, w.doc.parent node = some parent → Rehung w w' node parent

theorem framed_of_like (hwf : w.doc.WellFormed) (h : Like w w') : Framed w w' node where
  wf := h.doc_eq ▸ hwf
  frame := by
    rw [h.doc_eq]
    exact Frame.refl _ _ _
  mixins := h.setting.mixins
  home parent _ := rehung_of_children_eq (by rw [h.doc_eq])

theorem framed_of_visit (hwf : w.doc.WellFormed) (hlt : node < w.doc.next) (hvisit : visit node w = .ok () w₁)
    (hbelow : Advanced w₁ w₂ (w₁.doc.children node) node) : Framed w w₂ node := by
  have hadvanced := (advanced_of_visit hwf hlt hvisit).2 hbelow
  refine ⟨hadvanced.wf, ?_, hadvanced.setting.mixins, ?_⟩
  · have hframe := hadvanced.frame
    cases hparent : w.doc.parent node with
    | some parent =>
      rw [hparent] at hframe
      exact hframe
    | none =>
      rw [hparent] at hframe
      refine hframe.mono (fun _ hx => hx) fun y hy => Or.inr ?_
      obtain rfl := Option.some.inj hy
      exact not_outside_of_mem List.mem_cons_self
  · intro parent hparent
    have hreacts := visit_reacts hwf hparent
    rw [hvisit] at hreacts
    obtain ⟨r, body, hr, hvisited⟩ := hreacts
    exact rehung_of_visited hwf hparent hvisit hvisited hr hbelow

theorem Framed.leave (h : Framed w w' node) (left : Nat) (home : Option Nat) (scope : Scope) :
    Framed w (leave left home scope w') node := by
  obtain ⟨hwf, hframe, hmixins, hhome⟩ := h
  cases home <;> exact ⟨hwf, hframe, hmixins, fun parent hparent => ⟨(hhome parent hparent).order,
    (hhome parent hparent).added⟩⟩

theorem Evaluates.framed {outcome : Outcome Bool} (h : Evaluates node w outcome) (hwf : w.doc.WellFormed)
    (hlt : node < w.doc.next) : Framed w (Outcome.state outcome) node := by
  cases h with
  | refused hvisit => exact framed_of_like hwf (like_of_refused hwf hlt hvisit).1
  | stopped hvisit hbelow =>
    have hwf₁ := (advanced_of_visit hwf hlt hvisit).1
    exact framed_of_visit hwf hlt hvisit (hbelow.swept (Cursor.start hwf₁ node) rfl).1
  | done hvisit hbelow =>
    have hwf₁ := (advanced_of_visit hwf hlt hvisit).1
    exact (framed_of_visit hwf hlt hvisit (hbelow.swept (Cursor.start hwf₁ node) rfl).1).leave _ _ _

/-- What is neither below the node nor above it is clear of its evaluation. -/
theorem clear_of_apart {x : Nat} (hlt : x < w.doc.next) (hbelow : ¬ w.doc.Spans node x)
    (habove : ¬ w.doc.Spans x node) : w.doc.Clear [node] (w.doc.parent node) x := by
  intro y hy
  refine ⟨outside_singleton.2 ⟨hy.lt_next hlt, fun hspan => ?_⟩, fun hparent => habove (hy.down hparent)⟩
  exact (hspan.total hy).elim hbelow habove

/-- An evaluation of a node, whether it succeeds or fails, leaves every node that is not below it with its kind and its
parent, and with its children unless it is the parent of the node. In the parent the other children keep their order,
the node stays or goes, and what is added was below the node or is a copy of part of the body of a mixin. What is
neither below the node nor above it keeps all of its content, and so does every such definition of a mixin. -/
theorem evaluate_confined (w w' : Workspace) (node : Nat) (hwf : w.doc.WellFormed) (hlt : node < w.doc.next)
    (hafter : Outcome.state (evaluate node w) = w') :
    (∀ x < w.doc.next, ¬ w.doc.Spans node x →
        w'.doc.kind x = w.doc.kind x ∧ w'.doc.parent x = w.doc.parent x ∧
          (w.doc.parent node ≠ some x → w'.doc.children x = w.doc.children x) ∧
          (¬ w.doc.Spans x node → w'.doc.fragment x = w.doc.fragment x)) ∧
      (∀ parent, w.doc.parent node = some parent →
        ((w.doc.children parent).Sublist (w'.doc.children parent) ∨
          node ∉ w'.doc.children parent ∧ ((w.doc.children parent).erase node).Sublist (w'.doc.children parent)) ∧
        ∀ x ∈ w'.doc.children parent, x ∉ w.doc.children parent → w.doc.Spans node x ∨ IsCopy w w' x) ∧
      w'.run.mixins = w.run.mixins := by
  have hframed := (evaluates_evaluate hwf hlt).framed hwf hlt
  rw [hafter] at hframed
  refine ⟨fun x hx hnot => ?_, fun parent hparent => ?_, hframed.mixins⟩
  · have houtside := outside_singleton.2 ⟨hx, hnot⟩
    refine ⟨hframed.frame.kind_eq houtside, hframed.frame.parent_eq houtside, hframed.frame.children_eq houtside, ?_⟩
    intro habove
    exact hframed.frame.fragment_eq hwf hframed.wf (clear_of_apart hx hnot habove)
  · exact ⟨(hframed.home parent hparent).order, (hframed.home parent hparent).added⟩

/-- A mixin, and a rule that includes it between two other nodes. -/
def hosted : Workspace where
  doc :=
    ⟨#[{ kind := .stylesheet none, slots := #[1, 5] }, { kind := .rule ".a", parent := some 0, slots := #[2, 3, 4] },
       { kind := .raw "x", parent := some 1 }, { kind := .inclusion "m" ["1"], parent := some 1 },
       { kind := .raw "y", parent := some 1 },
       { kind := .mixin "m" [{ name := "k" }], parent := some 0, slots := #[6] },
       { kind := .declaration "p" "$k", parent := some 5 }]⟩
  run := { mixins := (∅ : Std.TreeMap String Nat).insert "m" 5 }

theorem evaluate_hosted :
    ∃ w', Outcome.state (evaluate 3 hosted) = w' ∧ w'.doc.children 1 = [2, 7, 4] ∧ IsCopy hosted w' 7 ∧
      [2, 4].Sublist (w'.doc.children 1) ∧ w'.doc.kind 1 = .rule ".a" ∧ w'.doc.children 0 = [1, 5] ∧
      w'.run.mixins = hosted.run.mixins ∧
      w'.doc.fragment 5 = ⟨.mixin "m" [{ name := "k" }], [⟨.declaration "p" "$k", []⟩]⟩ := by
  have hwf : hosted.doc.WellFormed :=
    (ofFragment_spec (f := ⟨.stylesheet none, [⟨.rule ".a", [⟨.raw "x", []⟩, ⟨.inclusion "m" ["1"], []⟩,
      ⟨.raw "y", []⟩]⟩, ⟨.mixin "m" [{ name := "k" }], [⟨.declaration "p" "$k", []⟩]⟩]⟩) rfl).1
  have hspans {a b : Nat} (hnot : b ∉ hosted.doc.descendants a) : ¬ hosted.doc.Spans a b :=
    fun hspan => hnot (hwf.mem_descendants.2 hspan)
  have hchildren : (Outcome.state (evaluate 3 hosted)).doc.children 1 = [2, 7, 4] := by decide +kernel
  obtain ⟨hkept, hhome, hmixins⟩ := evaluate_confined hosted _ 3 hwf (by decide) rfl
  obtain ⟨horder, hadded⟩ := hhome 1 rfl
  refine ⟨_, rfl, hchildren, ?_, ?_, ?_, ?_, hmixins, ?_⟩
  · exact (hadded 7 (by simp [hchildren]) (by decide)).resolve_left (hspans (by decide +kernel))
  · rcases horder with hsublist | ⟨-, hsublist⟩
    · rw [hchildren] at hsublist
      exact absurd hsublist (by decide)
    · exact hsublist
  · exact (hkept 1 (by decide) (hspans (by decide +kernel))).1
  · exact (hkept 0 (by decide) (hspans (by decide +kernel))).2.2.1 (by decide)
  · rw [(hkept 5 (by decide) (hspans (by decide +kernel))).2.2.2 (hspans (by decide +kernel))]
    decide +kernel

/-- A mixin with a variable in its body, whose definition has been collected. -/
def enclosed : Workspace where
  doc := (Document.instantiate ⟨#[{ kind := .stylesheet none }]⟩
    ⟨.mixin "m" [], [⟨.declaration "p" "$x", []⟩]⟩).1
  run :=
    { scope := (∅ : Scope).insert "x" { value := "X" }
      mixins := (∅ : Std.TreeMap String Nat).insert "m" 1 }

/-- A definition around the node that is evaluated is not below it, and it does not keep its content. -/
theorem evaluate_enclosed :
    enclosed.doc.WellFormed ∧ 2 < enclosed.doc.next ∧
      (∀ (name : String) (definition : Nat), enclosed.run.mixins[name]? = some definition →
        definition < enclosed.doc.next) ∧
      enclosed.run.mixins["m"]? = some 1 ∧ ¬ enclosed.doc.Spans 2 1 ∧
      enclosed.doc.fragment 1 = ⟨.mixin "m" [], [⟨.declaration "p" "$x", []⟩]⟩ ∧
      (Outcome.state (evaluate 2 enclosed)).doc.fragment 1 = ⟨.mixin "m" [], [⟨.declaration "p" "X", []⟩]⟩ := by
  have hwf : enclosed.doc.WellFormed :=
    (ofFragment_spec (f := ⟨.stylesheet none, []⟩) rfl).1.instantiate _
  refine ⟨hwf, by decide, ?_, by decide +kernel, ?_, by decide +kernel, ?_⟩
  · intro name definition h
    rw [enclosed, Std.TreeMap.getElem?_insert] at h
    split at h
    · obtain rfl := Option.some.inj h
      decide
    · simp at h
  · rw [← hwf.mem_descendants]
    decide +kernel
  · decide +kernel

end Pass

end NestedStyles
