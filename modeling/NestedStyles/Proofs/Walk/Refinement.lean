import NestedStyles.Proofs.Walk.Termination

/-!
# Evaluation in place refines evaluation by value

The loop over the children of a node does what `Env.eval` says of the fragments behind its cursor (`Walks.agrees`), as
long as it does not touch the definitions of mixins and finds no insertion point of an earlier walk at the nodes that it
works on. Both are invariants of the loop. The first one, `Apart`, keeps the meaning of inclusions the same.
The second one, `Unpointed`, makes each body come in right behind the cursor.
-/

namespace NestedStyles

open Document Semantics

namespace Semantics.Env

variable {env : Env} {scope : Reference.Lookup} {n : Nat} {f : Fragment} {fs : List Fragment} {r : Reaction}
  {e : CompileError}

theorem eval_nil : env.eval scope n [] = .ok ⟨[], n, Nat.le_refl _⟩ := by
  rw [eval]

theorem eval_cons_refused (hr : env.react scope n f = .error e) : env.eval scope n (f :: fs) = .error e := by
  rw [eval]
  split
  · next h => rw [hr] at h; exact congrArg _ (Except.error.inj h).symm
  · next h => simp [hr] at h

theorem eval_cons_stopped (hr : env.react scope n f = .ok r)
    (hbelow : env.eval r.scope r.expansions r.below = .error e) : env.eval scope n (f :: fs) = .error e := by
  rw [eval]
  split
  · next h => simp [hr] at h
  · next h =>
    obtain rfl := Except.ok.inj (hr.symm.trans h)
    simp only [hbelow]

theorem eval_cons_failed (hr : env.react scope n f = .ok r) {inner : Evaluated r.expansions}
    (hbelow : env.eval r.scope r.expansions r.below = .ok inner)
    (hrest : env.eval r.scope inner.expansions (r.body ++ fs) = .error e) : env.eval scope n (f :: fs) = .error e := by
  rw [eval]
  split
  · next h => simp [hr] at h
  · next h =>
    obtain rfl := Except.ok.inj (hr.symm.trans h)
    simp only [hbelow, hrest]

theorem eval_cons_done (hr : env.react scope n f = .ok r) {inner : Evaluated r.expansions}
    (hbelow : env.eval r.scope r.expansions r.below = .ok inner) {rest : Evaluated inner.expansions}
    (hrest : env.eval r.scope inner.expansions (r.body ++ fs) = .ok rest) :
    ∃ out, env.eval scope n (f :: fs) = .ok out ∧ out.expansions = rest.expansions ∧
      out.fragments = (r.kept.map (⟨·, inner.fragments⟩)).toList ++ rest.fragments := by
  rw [eval]
  split
  · next h => simp [hr] at h
  · next h =>
    obtain rfl := Except.ok.inj (hr.symm.trans h)
    simp only [hbelow, hrest]
    exact ⟨_, rfl, rfl, rfl⟩

end Semantics.Env

namespace Pass

variable {w w₁ w₂ w' : Workspace} {node child : Nat} {pre post todo todo' body : List Nat} {r : Reaction}

/-! ### What the loop leaves alone -/

/-- No definition of a mixin is at or below one of `todo`, or has `site` in it. -/
def Apart (w : Workspace) (todo : List Nat) (site : Nat) : Prop :=
  ∀ (name : String) (definition : Nat), w.run.mixins[name]? = some definition → w.doc.Clear todo (some site) definition

/-- There is no insertion point at a node or below it. -/
def Unpointed (w : Workspace) (node : Nat) : Prop :=
  ∀ k : Nat, w.run.insertionPoints[k]?.isSome → w.doc.Outside [node] k

theorem Apart.advanced (h : Apart w todo node) (hwf : w.doc.WellFormed) (ha : Advanced w w' todo node) {site : Nat}
    (htodo : ∀ t ∈ todo', ¬ w.doc.Outside todo t) (hsite : site = node ∨ ¬ w.doc.Outside todo site) :
    Apart w' todo' site := by
  intro name definition hmixin
  rw [ha.setting.mixins] at hmixin
  apply ha.frame.clear hwf ha.wf (h name definition hmixin) htodo
  intro y hy
  obtain rfl := Option.some.inj hy
  exact hsite.imp (congrArg some ·.symm) id

theorem Apart.below (h : Apart w (child :: post) node) (hcursor : Cursor w node pre (child :: post))
    (hvisited : Visited child node w w₁ r body)
    (hr : w.env.react w.run.lookup w.run.stats.mixinsExpanded (w.doc.fragment child) = .ok r) :
    Apart w₁ (w₁.doc.children child) child := by
  apply h.advanced hcursor.wf (advanced_of_visited hcursor.wf hvisited hr post)
  · intro t ht
    have hp := hcursor.wf.mem_children_iff.1 (hvisited.children_subset hcursor.wf hcursor.parent_eq ht)
    exact not_outside_of_spans List.mem_cons_self (Spans.of_parent hp)
  · exact Or.inr (not_outside_of_mem List.mem_cons_self)

/-- Mixins mean the same afterwards. -/
theorem Apart.env_eq (h : Apart w todo node) (hwf : w.doc.WellFormed) (ha : Advanced w w' todo node) :
    w'.env = w.env := by
  have hmixin : ∀ name, w'.env.mixin? name = w.env.mixin? name := by
    intro name
    simp only [Workspace.env, ha.setting.mixins]
    rcases hdef : w.run.mixins[name]? with _ | definition
    · rfl
    · have hsame := ha.frame.fragment_eq hwf ha.wf (h name definition hdef)
      rw [hwf.fragment_eq, ha.wf.fragment_eq] at hsame
      obtain ⟨hkind, hchildren⟩ := Fragment.mk.inj hsame
      simp only [Option.map_some, hkind, hchildren]
  obtain ⟨_, _, hholds, hstrict, hlimit⟩ := ha.setting
  have hfun := funext hmixin
  simp only [Workspace.env] at hfun ⊢
  rw [hfun, hholds, hstrict, hlimit]

theorem Unpointed.eq_none (h : Unpointed w node) : w.run.insertionPoints[node]? = none := by
  rcases hpoint : w.run.insertionPoints[node]? with _ | last
  · rfl
  · exact absurd (h node (by simp [hpoint])) (not_outside_of_mem List.mem_cons_self)

theorem Unpointed.below (h : Unpointed w node) (hwf : w.doc.WellFormed) (hparent : w.doc.parent child = some node)
    (hvisited : Visited child node w w₁ r body) : Unpointed w₁ child := by
  intro k hk
  have hout : w.doc.Outside [child] k := by
    by_cases hnode : k = node
    · rw [hnode]
      exact hwf.outside_parent hparent
    · rw [hvisited.points hnode] at hk
      obtain ⟨hlt, hnot⟩ := outside_singleton.1 (h k hk)
      exact outside_singleton.2 ⟨hlt, fun hspan => hnot ((Spans.of_parent hparent).trans hspan)⟩
  apply (hvisited.frame hwf).outside hwf _ hout
  intro t ht
  rw [List.mem_singleton.1 ht]
  exact not_outside_of_mem List.mem_cons_self

theorem Unpointed.turned {passed : List Nat} (h : Unpointed w node) (hcursor : Cursor w node pre (child :: post))
    (hturned : Turned node child pre post w w' r passed todo) : Unpointed w' node := by
  intro k hk
  obtain ⟨hlt, hnot⟩ := h k (hturned.points_shrink k hk)
  have hout : w.doc.Outside (child :: post) k := by
    refine ⟨hlt, ?_⟩
    intro t ht hspan
    have hp : w.doc.parent t = some node := hcursor.wf.mem_children_iff.1 (by simp [hcursor.children_eq, ht])
    exact hnot node List.mem_cons_self ((Spans.of_parent hp).trans hspan)
  refine ⟨Nat.lt_of_lt_of_le hlt hturned.advanced.frame.next_le, ?_⟩
  intro t ht hspan
  exact hnot t ht (hturned.advanced.frame.spans_of_spans hcursor.wf hout hspan)

/-! ### The simulation -/

/-- An outcome of the loop is the expected one: it fails with the expected error, or the children behind those passed
have the expected content. -/
def Agrees (node : Nat) (pre : List Nat) {n : Nat} (expected : Except CompileError (Evaluated n)) :
    Outcome Unit → Prop
  | .ok _ w' => ∃ out new, expected = .ok out ∧ w'.doc.children node = pre ++ new ∧
      new.map w'.doc.fragment = out.fragments ∧ w'.run.stats.mixinsExpanded = out.expansions
  | .error e _ => expected = .error e

/-- What the walk has kept stays as it is for the rest of the loop. -/
private theorem fragments_passed {inner : List Fragment}
    (hcursor : Cursor w node (pre ++ (r.kept.map fun _ => child).toList) todo)
    (hkind : ∀ kind, r.kept = some kind → w.doc.kind child = kind)
    (hinner : (w.doc.children child).map w.doc.fragment = inner) (ha : Advanced w w' todo node) :
    ((r.kept.map fun _ => child).toList).map w'.doc.fragment = (r.kept.map (⟨·, inner⟩)).toList := by
  rcases hkept : r.kept with _ | kind
  · rfl
  · have hlist := hcursor.children_eq
    have hnd := hcursor.wf.nodup_children node
    simp only [hkept, Option.map_some, Option.toList_some] at hlist
    rw [hlist, List.nodup_append] at hnd
    have hclear : w.doc.Clear todo (some node) child := by
      apply hcursor.wf.clear_of_sibling (by simp [hlist])
      intro t ht
      exact ⟨by simp [hlist, ht], fun h => hnd.2.2 child (by simp) t ht h.symm⟩
    have hsame := ha.frame.fragment_eq hcursor.wf ha.wf hclear
    rw [hcursor.wf.fragment_eq, hkind kind hkept, hinner] at hsame
    simp [hsame]

theorem Walks.agrees {index : Nat} {outcome : Outcome Unit} (h : Walks node index w outcome)
    (hcursor : Cursor w node pre todo) (hindex : index = pre.length) (hapart : Apart w todo node)
    (hunpointed : Unpointed w node) :
    Agrees node pre (w.env.eval w.run.lookup w.run.stats.mixinsExpanded (todo.map w.doc.fragment)) outcome := by
  induction h generalizing pre todo with
  | done hchild =>
    rw [hindex, hcursor.childAt?_eq, List.head?_eq_none_iff] at hchild
    subst hchild
    exact ⟨_, [], Env.eval_nil, hcursor.children_eq, rfl, rfl⟩
  | @refused node index child w w' e hchild hvisit =>
    obtain ⟨post, rfl⟩ := hcursor.exists_eq_cons (hindex ▸ hchild)
    have hreacts := visit_reacts hcursor.wf hcursor.parent_eq
    rw [hvisit] at hreacts
    exact Env.eval_cons_refused hreacts.1
  | @stopped node index child w w₁ w' e hchild hvisit hbelow ih =>
    obtain ⟨post, rfl⟩ := hcursor.exists_eq_cons (hindex ▸ hchild)
    have hreacts := visit_reacts hcursor.wf hcursor.parent_eq
    rw [hvisit] at hreacts
    obtain ⟨r, body, hr, hvisited⟩ := hreacts
    have hagrees := ih (Cursor.start hvisited.wf child) rfl (hapart.below hcursor hvisited hr)
      (hunpointed.below hcursor.wf hcursor.parent_eq hvisited)
    rw [hapart.env_eq hcursor.wf (advanced_of_visited hcursor.wf hvisited hr post), hvisited.scope,
      hvisited.expansions, hvisited.below] at hagrees
    exact Env.eval_cons_stopped hr hagrees
  | @next node index child w w₁ w₂ outcome hchild hvisit hbelow hrest ih ihrest =>
    obtain ⟨post, rfl⟩ := hcursor.exists_eq_cons (hindex ▸ hchild)
    have hreacts := visit_reacts hcursor.wf hcursor.parent_eq
    rw [hvisit] at hreacts
    obtain ⟨r, body, hr, hvisited⟩ := hreacts
    -- below the child, in the scope that it leaves behind
    have hagrees := ih (Cursor.start hvisited.wf child) rfl (hapart.below hcursor hvisited hr)
      (hunpointed.below hcursor.wf hcursor.parent_eq hvisited)
    rw [hapart.env_eq hcursor.wf (advanced_of_visited hcursor.wf hvisited hr post), hvisited.scope,
      hvisited.expansions, hvisited.below] at hagrees
    obtain ⟨inner, new, hinner, hchildren, hfragments, hexpansions⟩ := hagrees
    -- behind it, in the same scope
    obtain ⟨hadvanced, hshrink⟩ := hbelow.swept (Cursor.start hvisited.wf child) rfl
    obtain ⟨passed, todo, hturned⟩ := hcursor.turned hvisited hr hadvanced hshrink
    rw [hcursor.parent_eq] at hrest ihrest
    have hswept := hrest.swept hturned.cursor (hindex ▸ hturned.length_passed)
    have hagrees' := ihrest hturned.cursor (hindex ▸ hturned.length_passed)
      (hapart.advanced hcursor.wf hturned.advanced hturned.inside (Or.inl rfl)) (hunpointed.turned hcursor hturned)
    obtain ⟨m₁, m₂, hpost, hnil, hcontents⟩ := hturned.contents
    obtain rfl := hnil hunpointed.eq_none
    obtain rfl : post = m₂ := hpost
    have hexp : (leave child (some node) w₁.run.scope w₂).run.stats.mixinsExpanded = inner.expansions := hexpansions
    rw [hapart.env_eq hcursor.wf hturned.advanced, hturned.lookup_eq, hexp, hcontents] at hagrees'
    cases outcome with
    | error e w' => exact Env.eval_cons_failed hr hinner hagrees'
    | ok _ w' =>
      obtain ⟨rest, new', hrest', hchildren', hfragments', hexpansions'⟩ := hagrees'
      obtain ⟨out, hout, houtexp, houtfragments⟩ := Env.eval_cons_done hr hinner hrest'
      obtain rfl := hturned.passed_eq
      have hbelow' : (w₂.doc.children child).map w₂.doc.fragment = inner.fragments := by
        rw [hchildren]
        exact hfragments
      have hpassed := fragments_passed hturned.cursor hturned.kind_eq hbelow' hswept.1
      refine ⟨out, (r.kept.map fun _ => child).toList ++ new', hout, ?_, ?_, ?_⟩
      · rw [hchildren', List.append_assoc]
      · rw [List.map_append, hpassed, hfragments', houtfragments]
      · rw [hexpansions', houtexp]

/-! ### Whole documents -/

/-- A node that is not in the tree is clear of what is below the root. -/
theorem clear_of_not_attached {doc : Document} (hwf : doc.WellFormed) {id : Nat} (hlt : id < doc.next)
    (h : doc.isAttached id = false) : doc.Clear (doc.children root) (some root) id := by
  have hnot : ¬ doc.Spans root id := by
    rw [← hwf.isAttached_iff, h]
    simp
  intro x hx
  have hroot : ¬ doc.Spans root x := by
    intro hrx
    rcases hx.total hrx with hid | hid
    · exact hnot (by rw [hid.eq_of_parent_none hwf.parent_root])
    · exact hnot hid
  refine ⟨⟨hx.lt_next hlt, ?_⟩, ?_⟩
  · exact fun t ht hspan => hroot ((Spans.of_parent (hwf.mem_children_iff.1 ht)).trans hspan)
  · rintro h
    obtain rfl := Option.some.inj h
    exact hroot (Spans.refl _ _)

/-- The evaluation of a document succeeds if evaluation by value does. The root has the same content then, after as many
expansions, and the scope is what it was. Otherwise the evaluation fails with the same error. -/
theorem evaluate_root_cases (hwf : w.doc.WellFormed) {directory : Option String}
    (hkind : w.doc.kind root = .stylesheet directory) (hpoints : w.run.insertionPoints.isEmpty = true)
    (hmixins : ∀ (name : String) (definition : Nat), w.run.mixins[name]? = some definition →
      definition < w.doc.next ∧ w.doc.isAttached definition = false) :
    (∃ w' out, evaluate root w = .ok false w' ∧ w'.doc.WellFormed ∧ w'.doc.kind root = w.doc.kind root ∧
        w.env.eval w.run.lookup w.run.stats.mixinsExpanded ((w.doc.children root).map w.doc.fragment) = .ok out ∧
        (w'.doc.children root).map w'.doc.fragment = out.fragments ∧
        w'.run.stats.mixinsExpanded = out.expansions ∧ w'.run.scope = w.run.scope) ∨
      ∃ e w', evaluate root w = .error e w' ∧
        w.env.eval w.run.lookup w.run.stats.mixinsExpanded ((w.doc.children root).map w.doc.fragment) = .error e := by
  -- the visit of the root is counted and does nothing else
  have hvisit : visit root w = .ok () (counted w root) := by rw [visit_run, hkind]; rfl
  have hcursor : Cursor (counted w root) root [] (w.doc.children root) := Cursor.start (w := counted w root) hwf root
  have hapart : Apart (counted w root) (w.doc.children root) root := fun name definition hmixin =>
    clear_of_not_attached hwf (hmixins name definition hmixin).1 (hmixins name definition hmixin).2
  have hunpointed : Unpointed (counted w root) root := by
    intro k hk
    have hnone : w.run.insertionPoints[k]? = none := Std.TreeMap.getElem?_of_isEmpty hpoints
    have hsome : w.run.insertionPoints[k]?.isSome := hk
    simp [hnone] at hsome
  have hlike := like_counted w root
  have hends := evaluates_evaluate hwf hwf.root_lt_next
  generalize evaluate root w = outcome at hends ⊢
  cases hends with
  | refused h => simp [hvisit] at h
  | stopped h hbelow =>
    obtain rfl := (EStateM.Result.ok.inj (h.symm.trans hvisit)).2
    have hagrees := hbelow.agrees hcursor rfl hapart hunpointed
    rw [hlike.env_eq, hlike.lookup_eq, hlike.expansions_eq, hlike.doc_eq] at hagrees
    exact Or.inr ⟨_, _, rfl, hagrees⟩
  | @done w₁ w₂ h hbelow =>
    obtain rfl := (EStateM.Result.ok.inj (h.symm.trans hvisit)).2
    obtain ⟨hadvanced, -⟩ := hbelow.swept hcursor rfl
    have hagrees := hbelow.agrees hcursor rfl hapart hunpointed
    rw [hlike.env_eq, hlike.lookup_eq, hlike.expansions_eq, hlike.doc_eq] at hagrees
    obtain ⟨out, new, hout, hchildren, hfragments, hexpansions⟩ := hagrees
    have hroot : w.doc.Outside (w.doc.children root) root := hwf.outside_children hwf.root_lt_next (Or.inl rfl)
    rw [hwf.parent_root]
    refine Or.inl ⟨_, out, rfl, hadvanced.wf, hadvanced.frame.kind_eq hroot, hout, ?_, hexpansions, rfl⟩
    change (w₂.doc.children root).map w₂.doc.fragment = _
    rw [hchildren, List.nil_append, hfragments]

/-- Evaluating a document agrees with evaluating the content of its root by value: it fails with the same error, or the
root has the same content afterwards, after as many expansions, and the scope is what it was. -/
theorem evaluate_root_refines_eval (w : Workspace) (hwf : w.doc.WellFormed)
    (hroot : ∃ directory, w.doc.kind root = .stylesheet directory) (hpoints : w.run.insertionPoints.isEmpty = true)
    (hmixins : ∀ (name : String) (definition : Nat), w.run.mixins[name]? = some definition →
      definition < w.doc.next ∧ w.doc.isAttached definition = false) :
    match w.env.eval w.run.lookup w.run.stats.mixinsExpanded (w.doc.fragment root).children with
    | .error e => ∃ w', evaluate root w = .error e w'
    | .ok out => ∃ w', evaluate root w = .ok false w' ∧
        w'.doc.fragment root = ⟨w.doc.kind root, out.fragments⟩ ∧
        w'.run.stats.mixinsExpanded = out.expansions ∧ w'.run.scope = w.run.scope := by
  obtain ⟨directory, hkind⟩ := hroot
  rw [hwf.children_fragment]
  rcases evaluate_root_cases hwf hkind hpoints hmixins with
    ⟨w', out, hok, hwf', hkind', hout, hfragments, hexpansions, hscope⟩ | ⟨e, w', herror, hout⟩
  · rw [hout]
    refine ⟨w', hok, ?_, hexpansions, hscope⟩
    rw [hwf'.fragment_eq, hkind', hfragments]
  · rw [hout]
    exact ⟨w', herror⟩

/-- A variable and an inclusion, in whose body the variable is bound anew before its next use. -/
def tinted : Workspace where
  doc := (Document.instantiate
    ⟨#[{ kind := .stylesheet none, slots := #[1, 2, 3] }, { kind := .assignment "c" "red" false, parent := some 0 },
       { kind := .inclusion "paint" ["$c"], parent := some 0 },
       { kind := .declaration "color" "$c", parent := some 0 }]⟩
    ⟨.mixin "paint" [{ name := "x" }],
      [⟨.rule ".box", [⟨.declaration "color" "$x", []⟩]⟩, ⟨.assignment "c" "dark$x" false, []⟩]⟩).1
  run := { mixins := Std.TreeMap.empty.insert "paint" 4, expansionLimit := 1 }

theorem evaluate_tinted :
    ∃ w', evaluate root tinted = .ok false w' ∧
      w'.doc.fragment root = ⟨.stylesheet none,
        [⟨.rule ".box", [⟨.declaration "color" "red", []⟩]⟩, ⟨.declaration "color" "darkred", []⟩]⟩ ∧
      w'.run.stats.mixinsExpanded = 1 ∧ w'.run.scope = tinted.run.scope := by
  have hwf : tinted.doc.WellFormed := by
    apply WellFormed.instantiate
    refine (ofFragment_spec (f := ⟨.stylesheet none, [⟨.assignment "c" "red" false, []⟩,
      ⟨.inclusion "paint" ["$c"], []⟩, ⟨.declaration "color" "$c", []⟩]⟩) ?_).1
    rfl
  have hmixins : ∀ (name : String) (definition : Nat), tinted.run.mixins[name]? = some definition →
      definition < tinted.doc.next ∧ tinted.doc.isAttached definition = false := by
    intro name definition h
    rw [tinted, Std.TreeMap.getElem?_insert] at h
    split at h
    · obtain rfl := Option.some.inj h
      decide
    · simp at h
  have hvalue : Outcome.read? (fun w => (w.doc.fragment root, w.run.stats.mixinsExpanded)) (evaluate root tinted) =
      some (⟨.stylesheet none,
        [⟨.rule ".box", [⟨.declaration "color" "red", []⟩]⟩, ⟨.declaration "color" "darkred", []⟩]⟩, 1) := by
    decide +kernel
  obtain ⟨gone, w', hrun, hread⟩ := Outcome.exists_of_read?_eq_some hvalue
  obtain ⟨hfragment, hexpansions⟩ := Prod.mk.inj hread
  have h := evaluate_root_refines_eval tinted hwf ⟨none, rfl⟩ rfl hmixins
  rw [hrun] at h
  cases heval : tinted.env.eval tinted.run.lookup tinted.run.stats.mixinsExpanded
      (tinted.doc.fragment root).children with
  | error e => simp [heval] at h
  | ok out =>
    simp only [heval, EStateM.Result.ok.injEq] at h
    obtain ⟨_, ⟨rfl, rfl⟩, -, -, hscope⟩ := h
    exact ⟨w', hrun, hfragment, hexpansions, hscope⟩

end Pass

end NestedStyles
