import Std.Data.TreeMap.Lemmas
import NestedStyles.Proofs.Walk.Replacement
import NestedStyles.Proofs.Walk.Semantics

/-!
# A visit is a reaction

What a visit does to a node that has a parent is what the semantics says of the fragment at the node, read in the
present state: the two fail with the same error, or the node is kept or replaced as its reaction says (`visit_reacts`).
Beside the document, a visit changes the scope, the counters, and at most the insertion point of the parent.
-/

namespace NestedStyles

open Document Semantics

/-- What the semantics needs to know of a state. -/
def Workspace.env (w : Workspace) : Env where
  mixin? name := w.run.mixins[name]?.map fun definition =>
    (Pass.paramsOf (w.doc.kind definition), (w.doc.children definition).map w.doc.fragment)
  holds := w.run.holds
  strict := w.run.strict
  limit := w.run.expansionLimit

/-- What evaluation never changes of a run. -/
structure Run.SameSetting (run run' : Run) : Prop where
  mixins : run'.mixins = run.mixins
  active : run'.active = run.active
  holds : run'.holds = run.holds
  strict : run'.strict = run.strict
  limit : run'.expansionLimit = run.expansionLimit

theorem Run.SameSetting.refl (run : Run) : run.SameSetting run := ⟨rfl, rfl, rfl, rfl, rfl⟩

theorem Run.SameSetting.trans {a b c : Run} (hab : a.SameSetting b) (hbc : b.SameSetting c) : a.SameSetting c :=
  ⟨hbc.mixins.trans hab.mixins, hbc.active.trans hab.active, hbc.holds.trans hab.holds, hbc.strict.trans hab.strict,
    hbc.limit.trans hab.limit⟩

theorem Run.lookup_bind (run : Run) (name : String) (binding : Binding) :
    (run.bind name binding).lookup = extend run.lookup name binding.value := by
  funext other
  simp only [Run.lookup, Run.bind, extend, Std.TreeMap.getElem?_insert, Std.compare_eq_iff_eq]
  by_cases h : other = name
  · rw [if_pos h, if_pos h.symm]
    rfl
  · rw [if_neg h, if_neg (Ne.symm h)]

theorem Run.scope_contains (run : Run) (name : String) : run.scope.contains name = (run.lookup name).isSome := by
  rw [Std.TreeMap.contains_eq_isSome_getElem?, Run.lookup, Option.isSome_map]

/-! ### What a visit does -/

/-- The visit of `node`, a child of `parent`, took the state from `w` to `w'` as the reaction `r` says. The nodes in
`body` have come into the child list of the parent. -/
structure Visited (node parent : Nat) (w w' : Workspace) (r : Reaction) (body : List Nat) : Prop where
  change : (∃ kind, r.kept = some kind ∧ Retyped w.doc w'.doc node kind ∧ body = []) ∨
    r.kept = none ∧ ∃ start before after emptied,
      Replacement w.doc w'.doc parent node start before after body emptied ∧
        (start = node ∨ w.run.insertionPoints[parent]? = some start)
  below : (w'.doc.children node).map w'.doc.fragment = r.below
  body : body.map w'.doc.fragment = r.body
  expansions : w'.run.stats.mixinsExpanded = r.expansions
  scope : w'.run.lookup = r.scope
  setting : w.run.SameSetting w'.run
  points : ∀ {k}, k ≠ parent → w'.run.insertionPoints[k]? = w.run.insertionPoints[k]?

namespace Visited

variable {node parent : Nat} {w w' : Workspace} {r : Reaction} {body : List Nat}
  (h : Visited node parent w w' r body) (hwf : w.doc.WellFormed)
include h

theorem wf : w'.doc.WellFormed := by
  rcases h.change with ⟨_, _, hdoc, _⟩ | ⟨_, _, _, _, _, hdoc, _⟩
  · exact hdoc.wf
  · exact hdoc.wf

include hwf

theorem frame : Frame w.doc w'.doc [node] (some parent) := by
  rcases h.change with ⟨_, _, hdoc, _⟩ | ⟨_, _, _, _, _, hdoc, _⟩
  · exact hdoc.frame hwf _
  · exact hdoc.frame hwf

/-- Another child of the parent keeps its content. -/
theorem fragment_sibling {t : Nat} (ht : t ∈ w.doc.children parent) (hne : t ≠ node)
    (hparent : node ∈ w.doc.children parent) : w'.doc.fragment t = w.doc.fragment t := by
  apply (h.frame hwf).fragment_eq hwf h.wf
  apply hwf.clear_of_sibling ht
  intro s hs
  rw [List.mem_singleton.1 hs]
  exact ⟨hparent, Ne.symm hne⟩

variable (hparent : w.doc.parent node = some parent)
include hparent

theorem children_subset {t : Nat} (ht : t ∈ w'.doc.children node) : t ∈ w.doc.children node := by
  rcases h.change with ⟨_, _, hdoc, _⟩ | ⟨_, _, _, _, _, hdoc, _⟩
  · exact hdoc.children_eq node ▸ ht
  · rw [hdoc.children_eq (lt_next_of_parent hparent) (hwf.parent_ne hparent)] at ht
    split at ht
    · simp at ht
    · exact ht

theorem parent_eq : w'.doc.parent node = r.kept.map fun _ => parent := by
  rcases h.change with ⟨_, hkept, hdoc, _⟩ | ⟨hkept, _, _, _, _, hdoc, _⟩
  · rw [hkept, Option.map_some, ← hparent]
    apply hwf.parent_congr hdoc.wf
    intro p
    rw [hdoc.children_eq]
  · rw [hkept, hdoc.parent_node_none hwf]
    rfl

omit hwf hparent in
theorem kind_eq {kind : Kind} (hkept : r.kept = some kind) : w'.doc.kind node = kind := by
  rcases h.change with ⟨_, hkept', hdoc, _⟩ | ⟨hkept', _⟩
  · rw [hkept, Option.some.injEq] at hkept'
    rw [hdoc.kind_eq, if_pos rfl, hkept']
  · simp [hkept] at hkept'

omit hparent in
/-- The body comes in behind the nodes that were in front of the node, unless the insertion point is one of them. -/
theorem children_parent {pre post : List Nat} (hlist : w.doc.children parent = pre ++ node :: post)
    (hpoint : ∀ last, w.run.insertionPoints[parent]? = some last → last ∉ pre) :
    ∃ m₁ m₂, post = m₁ ++ m₂ ∧ (w.run.insertionPoints[parent]? = none → m₁ = []) ∧
      w'.doc.children parent = pre ++ (r.kept.map fun _ => node).toList ++ (m₁ ++ body ++ m₂) := by
  rcases h.change with ⟨_, hkept, hdoc, hbody⟩ | ⟨hkept, start, _, _, _, hdoc, hstart⟩
  · refine ⟨[], post, rfl, fun _ => rfl, ?_⟩
    rw [hdoc.children_eq, hlist, hkept, hbody]
    simp
  · have hnot : start ∉ pre := by
      rcases hstart with rfl | hstart
      · exact (hwf.not_mem_of_children_eq hlist).1
      · exact hpoint start hstart
    obtain ⟨m₁, m₂, hpost, hchildren, hnil⟩ := hdoc.children_split hlist hwf hnot
    refine ⟨m₁, m₂, hpost, ?_, ?_⟩
    · intro hnone
      apply hnil
      rcases hstart with rfl | hstart
      · rfl
      · simp [hnone] at hstart
    · rw [hchildren, hkept]
      simp

omit hwf hparent in
theorem body_inside {b : Nat} (hb : b ∈ body) : ¬ w.doc.Outside [node] b := by
  rcases h.change with ⟨_, _, _, hbody⟩ | ⟨_, _, _, _, _, hdoc, _⟩
  · simp [hbody] at hb
  · exact hdoc.body_inside hb

end Visited

namespace Pass

/-- The state in which a node is handled when it is visited. -/
def counted (w : Workspace) (node : Nat) : Workspace :=
  { w with
    log := .visiting (w.doc.kind node) node :: w.log
    run := { w.run with stats := { w.run.stats with visits := w.run.stats.visits + 1 } } }

/-- What a visit does at a node of the given kind. -/
def handle (node : Nat) : Kind → Pass Unit
  | .rule _ => substituteText node
  | .declaration _ _ => substituteText node
  | .assignment name value guarded => assign node name value guarded
  | .inclusion name args => expand node name args
  | .conditional => decideConditional node
  | _ => pure ()

theorem visit_run (node : Nat) (w : Workspace) :
    visit node w = handle node (w.doc.kind node) (counted w node) := by
  unfold visit
  simp only [run_bind, run_view, run_report, run_editStats]
  cases hkind : w.doc.kind node <;> simp only [counted, hkind] <;> rfl

/-- A state that differs only in the log and in counters other than that of expansions. -/
structure Like (w w' : Workspace) : Prop where
  doc_eq : w'.doc = w.doc
  lookup_eq : w'.run.lookup = w.run.lookup
  expansions_eq : w'.run.stats.mixinsExpanded = w.run.stats.mixinsExpanded
  setting : w.run.SameSetting w'.run
  points_eq : w'.run.insertionPoints = w.run.insertionPoints

theorem Like.env_eq {w w' : Workspace} (h : Like w w') : w'.env = w.env := by
  simp only [Workspace.env, h.doc_eq, h.setting.mixins, h.setting.holds, h.setting.strict, h.setting.limit]

theorem like_counted (w : Workspace) (node : Nat) : Like w (counted w node) :=
  ⟨rfl, rfl, rfl, ⟨rfl, rfl, rfl, rfl, rfl⟩, rfl⟩

/-- A result is that of a visit: it fails as expected, leaving the document alone, or it is a reaction. -/
def Reacts (node parent : Nat) (w : Workspace) (expected : Except CompileError Reaction) :
    Outcome Unit → Prop
  | .ok _ w' => ∃ r body, expected = .ok r ∧ Visited node parent w w' r body
  | .error e w' => expected = .error e ∧ Like w w'

theorem Like.reacts {w₀ w : Workspace} {node parent : Nat} {expected : Except CompileError Reaction}
    {result : Outcome Unit} (h : Like w₀ w)
    (hr : Reacts node parent w expected result) : Reacts node parent w₀ expected result := by
  cases result with
  | error e w' =>
    obtain ⟨hexpected, hlike⟩ := hr
    refine ⟨hexpected, hlike.doc_eq.trans h.doc_eq, hlike.lookup_eq.trans h.lookup_eq,
      hlike.expansions_eq.trans h.expansions_eq, h.setting.trans hlike.setting, hlike.points_eq.trans h.points_eq⟩
  | ok _ w' =>
    obtain ⟨r, body, hexpected, hchange, hbelow, hbody, hexp, hscope, hsetting, hpoints⟩ := hr
    rw [h.doc_eq, h.points_eq] at hchange
    refine ⟨r, body, hexpected, hchange, hbelow, hbody, hexp, hscope, h.setting.trans hsetting, ?_⟩
    intro k hk
    rw [hpoints hk, h.points_eq]

variable {w : Workspace} {node parent : Nat}

private theorem reacts_kept (hwf : w.doc.WellFormed) {w' : Workspace} {kind : Kind}
    (hdoc : Retyped w.doc w'.doc node kind) (hrun : w'.run = w.run) :
    Reacts node parent w
      (.ok { scope := w.run.lookup, expansions := w.run.stats.mixinsExpanded, kept := some kind,
             below := (w.doc.children node).map w.doc.fragment, body := [] }) (.ok () w') := by
  refine ⟨_, [], rfl, Or.inl ⟨kind, rfl, hdoc, rfl⟩, hdoc.fragments_below hwf, rfl, ?_, ?_, ?_, ?_⟩
  · rw [hrun]
  · rw [hrun]
  · rw [hrun]
    exact Run.SameSetting.refl _
  · intro k _
    rw [hrun]

theorem substituteText_reacts (hwf : w.doc.WellFormed) (hparent : w.doc.parent node = some parent) :
    Reacts node parent w
      (.ok { scope := w.run.lookup, expansions := w.run.stats.mixinsExpanded,
             kept := some ((w.doc.kind node).mapText (Reference.substitute w.run.lookup)),
             below := (w.doc.children node).map w.doc.fragment, body := [] }) (substituteText node w) :=
  reacts_kept hwf (hwf.retyped_setKind (lt_next_of_parent hparent) _) rfl

/-! ### Nodes that leave without a body -/

/-- The children of a node that is replaced, and was not emptied, keep their content. -/
private theorem fragments_below_replaced {doc doc' : Document} {start : Nat} {before after body : List Nat}
    (h : Replacement doc doc' parent node start before after body []) (hwf : doc.WellFormed) :
    (doc'.children node).map doc'.fragment = (doc.children node).map doc.fragment := by
  have hlt := lt_next_of_parent h.parent_node
  rw [h.children_eq hlt (hwf.parent_ne h.parent_node), if_neg List.not_mem_nil]
  apply List.map_congr_left
  intro c hc
  apply h.fragment_eq hwf (hwf.child_lt_next hc)
  intro x hx
  refine ⟨?_, List.not_mem_nil⟩
  rintro rfl
  exact hwf.not_spans_parent h.parent_node ((Spans.of_parent (hwf.mem_children_iff.1 hc)).trans hx)

private theorem reacts_detached (hwf : w.doc.WellFormed) (hparent : w.doc.parent node = some parent)
    (run : Run) (log : List Event) (hexp : run.stats.mixinsExpanded = w.run.stats.mixinsExpanded)
    (hsetting : w.run.SameSetting run) (hpoints : run.insertionPoints = w.run.insertionPoints) :
    Reacts node parent w
      (.ok { scope := run.lookup, expansions := w.run.stats.mixinsExpanded, kept := none,
             below := (w.doc.children node).map w.doc.fragment, body := [] })
      (.ok () { w with doc := (w.doc.detach node).1, run, log }) := by
  obtain ⟨before, after, hdoc⟩ := hwf.replacement_detach hparent
  refine ⟨_, [], rfl, Or.inr ⟨rfl, node, before, after, [], hdoc, Or.inl rfl⟩, ?_, rfl, hexp, rfl, hsetting, ?_⟩
  · exact fragments_below_replaced hdoc hwf
  · intro k _
    rw [hpoints]

theorem assign_reacts (hwf : w.doc.WellFormed) (hparent : w.doc.parent node = some parent) (name value : String)
    (guarded : Bool) (hkind : w.doc.kind node = .assignment name value guarded) :
    Reacts node parent w (w.env.react w.run.lookup w.run.stats.mixinsExpanded (w.doc.fragment node))
      (assign node name value guarded w) := by
  rw [hwf.fragment_eq, hkind, Env.react]
  unfold assign
  simp only [run_bind, run_view, Run.scope_contains]
  by_cases htaken : (guarded && (w.run.lookup name).isSome) = true
  · simp only [htaken, if_true]
    exact reacts_detached hwf hparent w.run _ rfl (Run.SameSetting.refl _) rfl
  · simp only [htaken]
    have h := reacts_detached hwf hparent (w.run.bind name { value := w.run.substitute value, origin := some node })
      (.bound name (w.run.substitute value) :: w.log) rfl ⟨rfl, rfl, rfl, rfl, rfl⟩ rfl
    rw [Run.lookup_bind] at h
    exact h

/-! ### Inclusions -/

theorem mapTextAll_map (f : String → String) (doc : Document) (ids : List Nat) :
    Fragment.mapTextAll f (ids.map doc.fragment) = ids.map fun id => (doc.fragment id).mapText f := by
  induction ids with
  | nil => rfl
  | cons id ids ih => rw [List.map_cons, Fragment.mapTextAll, ih]; rfl

@[simp]
theorem insertionPoints_pointedAt {run : Run} {k : Nat} (nodes : List Nat) (h : k ≠ parent) :
    (pointedAt run parent nodes).insertionPoints[k]? = run.insertionPoints[k]? := by
  unfold pointedAt
  split
  · rw [Run.setInsertionPoint, Std.TreeMap.getElem?_insert, if_neg]
    rw [Std.compare_eq_iff_eq]
    exact Ne.symm h
  · rfl

@[simp]
theorem lookup_pointedAt (run : Run) (nodes : List Nat) : (pointedAt run parent nodes).lookup = run.lookup := by
  unfold pointedAt
  split <;> rfl

@[simp]
theorem stats_pointedAt (run : Run) (nodes : List Nat) : (pointedAt run parent nodes).stats = run.stats := by
  unfold pointedAt
  split <;> rfl

theorem sameSetting_pointedAt (run : Run) (parent : Nat) (nodes : List Nat) :
    run.SameSetting (pointedAt run parent nodes) := by
  unfold pointedAt
  split <;> exact ⟨rfl, rfl, rfl, rfl, rfl⟩

theorem spliceStart_cases (w : Workspace) (parent anchor : Nat) :
    spliceStart w parent anchor = anchor ∨ w.run.insertionPoints[parent]? = some (spliceStart w parent anchor) := by
  unfold spliceStart
  split
  · next last hlast =>
    split
    · exact Or.inr hlast
    · exact Or.inl rfl
  · exact Or.inl rfl

/-- Copies are spliced in, and the node that they stand for is taken out. What is below the copies stays there. -/
theorem splice_copies (hwf : w.doc.WellFormed) (hparent : w.doc.parent node = some parent) {doc₁ : Document}
    {copies : List Nat} {contents : List Fragment} (hcopied : Copied w.doc doc₁ copies contents) (run : Run)
    (log : List Event) (hpoints : run.insertionPoints = w.run.insertionPoints) :
    ∃ doc₂ start before after,
      spliceAfter parent node copies { w with doc := doc₁, run, log } =
        .ok () { w with doc := doc₂, run := pointedAt run parent copies, log } ∧
      Replacement w.doc (doc₂.removeChild parent node).1 parent node start before after copies [] ∧
      (start = node ∨ w.run.insertionPoints[parent]? = some start) ∧
      copies.map (doc₂.removeChild parent node).1.fragment = contents ∧
      (doc₂.removeChild parent node).1.next = doc₁.next ∧
      ∀ {x p}, w.doc.next ≤ x → doc₁.parent x = some p → (doc₂.removeChild parent node).1.parent x = some p := by
  have hplt := hwf.parent_lt_next hparent
  obtain ⟨size, hsize⟩ := hcopied.instantiated
  have hmem : node ∈ doc₁.children parent := by
    rw [hsize.children_eq hplt]
    exact hwf.mem_children_iff.2 hparent
  obtain ⟨doc₂, before, after, hsplit, hrun, hdoc₂⟩ :=
    spliceAfter_run (w := { w with doc := doc₁, run, log }) hcopied.wf hmem (hcopied.insertable hwf hplt)
  have hstart := spliceStart_cases { w with doc := doc₁, run, log } parent node
  simp only [hpoints] at hstart
  have hnew : ∀ {c}, c ∈ copies → ¬ w.doc.Outside [node] c := fun hc => not_outside_of_le (hcopied.range _ hc).1
  have hreplaced := (Prepared.of_copied hcopied hwf).replacement hwf hparent hsplit hdoc₂ hnew (by simp)
  have hother : ∀ {x}, x ≠ parent → (doc₂.removeChild parent node).1.children x = doc₁.children x := by
    intro x hne
    rw [children_removeChild, if_neg (Ne.symm hne), hdoc₂.children_eq, if_neg hne]
  refine ⟨doc₂, _, before, after, hrun, hreplaced, hstart, ?_, (next_removeChild ..).trans hdoc₂.next_eq, ?_⟩
  · -- below the copies nothing has changed since they were made
    rw [← hcopied.fragments]
    apply List.map_congr_left
    intro c hc
    apply hcopied.wf.fragment_congr hreplaced.wf
    intro x hx
    have hne : x ≠ parent := by
      rintro rfl
      exact (hcopied.insertable hwf hplt).not_above c hc hx
    rw [kind_removeChild, hdoc₂.kind_eq]
    exact ⟨rfl, hother hne⟩
  · intro x p hx hp
    have hchild := hcopied.wf.mem_children_iff.2 hp
    have hne : p ≠ parent := by
      rintro rfl
      rw [hsize.children_eq hplt] at hchild
      exact absurd (hwf.child_lt_next hchild) (Nat.not_lt.2 hx)
    exact hreplaced.wf.mem_children_iff.1 (hother hne ▸ hchild)

/-- A copy of the body of a definition takes the place of a node. -/
private theorem reacts_copied (hwf : w.doc.WellFormed) (hparent : w.doc.parent node = some parent) (definition : Nat)
    (values : ParamValues) (event : List Nat → Event) (run : Run) (log : List Event)
    (hlookup : run.lookup = w.run.lookup) (hsetting : w.run.SameSetting run)
    (hpoints : run.insertionPoints = w.run.insertionPoints) :
    Reacts node parent w
      (.ok { scope := w.run.lookup, expansions := run.stats.mixinsExpanded, kept := none,
             below := (w.doc.children node).map w.doc.fragment,
             body := (w.doc.children definition).map fun n =>
               (w.doc.fragment n).mapText (Reference.substitute (values[·]?)) })
      ((do
        let copies ← copyAll values (w.doc.children definition)
        report (event copies)
        spliceAfter parent node copies
        removeChild parent node) { w with run, log }) := by
  have hbody : ∀ n ∈ w.doc.children definition, n < w.doc.next := fun n hn => hwf.child_lt_next hn
  obtain ⟨doc₁, copies, hcopy, hcopied⟩ := copyAll_run (w := { w with run, log }) hwf values hbody
  obtain ⟨doc₂, start, before, after, hsplice, hdoc, hstart, hcontents, -⟩ :=
    splice_copies hwf hparent hcopied run (event copies :: log) hpoints
  simp only [run_bind, hcopy, run_report, hsplice, run_removeChild]
  refine ⟨_, copies, rfl, Or.inr ⟨rfl, start, before, after, [], hdoc, hstart⟩, fragments_below_replaced hdoc hwf,
    hcontents, ?_, ?_, hsetting.trans (sameSetting_pointedAt run parent copies), ?_⟩
  · rw [stats_pointedAt]
  · rw [lookup_pointedAt, hlookup]
  · intro k hk
    rw [insertionPoints_pointedAt copies hk, hpoints]

theorem instance?_of_none {name : String} (hmixin : w.run.mixins[name]? = none) (args : List String) :
    w.env.instance? w.run.lookup name args = none := by
  simp [Env.instance?, Workspace.env, hmixin]

/-- What is included is the body of the definition with the values of the parameters put in. -/
theorem instance?_of_some {name : String} {definition : Nat} (hmixin : w.run.mixins[name]? = some definition)
    (args : List String) {values : ParamValues}
    (hvalues : (Arguments.bind w.run.lookup name (paramsOf (w.doc.kind definition)) args).1 = values) :
    w.env.instance? w.run.lookup name args = some ((w.doc.children definition).map fun n =>
      (w.doc.fragment n).mapText (Reference.substitute (values[·]?))) := by
  simp only [Env.instance?, Workspace.env, hmixin, Option.map_some, hvalues, mapTextAll_map]

theorem expand_reacts (hwf : w.doc.WellFormed) (hparent : w.doc.parent node = some parent) (name : String)
    (args : List String) (hkind : w.doc.kind node = .inclusion name args) :
    Reacts node parent w (w.env.react w.run.lookup w.run.stats.mixinsExpanded (w.doc.fragment node))
      (expand node name args w) := by
  rw [hwf.fragment_eq, hkind, Env.react]
  unfold expand
  simp only [run_bind, run_view, hparent]
  cases hmixin : w.run.mixins[name]? with
  | none =>
    simp only [instance?_of_none hmixin]
    cases hstrict : w.run.strict with
    | true =>
      have henv : w.env.strict = true := hstrict
      simp only [henv, run_bind, run_view, hstrict, if_true, run_fail]
      exact ⟨rfl, rfl, rfl, rfl, Run.SameSetting.refl _, rfl⟩
    | false =>
      have henv : w.env.strict = false := hstrict
      simp only [henv, run_bind, run_view, hstrict]
      exact reacts_detached hwf hparent w.run _ rfl (Run.SameSetting.refl _) rfl
  | some definition =>
    generalize hvalues : (Arguments.bind w.run.lookup name (paramsOf (w.doc.kind definition)) args).1 = values
    simp only [instance?_of_some hmixin args hvalues]
    unfold countExpansion
    simp only [run_bind, run_view]
    by_cases hlimit : w.run.expansionLimit < w.run.stats.mixinsExpanded + 1
    · have henv : w.env.limit < w.run.stats.mixinsExpanded + 1 := hlimit
      rw [if_pos hlimit, if_pos henv]
      exact ⟨rfl, rfl, rfl, rfl, Run.SameSetting.refl _, rfl⟩
    · have henv : ¬ w.env.limit < w.run.stats.mixinsExpanded + 1 := hlimit
      rw [if_neg hlimit, if_neg henv]
      have h := reacts_copied hwf hparent definition values (fun copies => .expanding name copies.length parent)
        { w.run with stats := { w.run.stats with mixinsExpanded := w.run.stats.mixinsExpanded + 1 } }
        ((Arguments.bind w.run.lookup name (paramsOf (w.doc.kind definition)) args).2.reverse ++ w.log) rfl
        ⟨rfl, rfl, rfl, rfl, rfl⟩ rfl
      rw [← hvalues] at h ⊢
      simp only [run_bind] at h
      exact h

/-! ### Conditionals -/

/-- The branch that is taken is the one that the semantics chooses. -/
theorem chooseBranch_chosen (hwf : w.doc.WellFormed) (conditional : Nat) (nodes : List Nat) :
    match (chooseBranch w conditional nodes).1 with
    | none => w.env.chosen w.run.lookup (nodes.map w.doc.fragment) = []
    | some branch => branch ∈ nodes ∧
        w.env.chosen w.run.lookup (nodes.map w.doc.fragment) = (w.doc.children branch).map w.doc.fragment := by
  induction nodes with
  | nil => rfl
  | cons node nodes ih =>
    have hskip : ∀ {fs}, fs = w.env.chosen w.run.lookup (nodes.map w.doc.fragment) →
        match (chooseBranch w conditional nodes).1 with
        | none => fs = []
        | some branch => branch ∈ node :: nodes ∧ fs = (w.doc.children branch).map w.doc.fragment := by
      rintro _ rfl
      cases hc : (chooseBranch w conditional nodes).1 with
      | none => simpa only [hc] using ih
      | some branch =>
        simp only [hc] at ih
        exact ⟨List.mem_cons_of_mem _ ih.1, ih.2⟩
    rw [List.map_cons, hwf.fragment_eq node]
    unfold chooseBranch
    cases hkind : w.doc.kind node with
    | branch condition =>
      cases condition with
      | none => exact ⟨List.mem_cons_self, rfl⟩
      | some condition =>
        by_cases hholds : w.run.holds (w.run.substitute condition) = true
        · have henv : w.env.holds (Reference.substitute w.run.lookup condition) = true := hholds
          simp only [hholds, if_true, Env.chosen, henv]
          exact ⟨List.mem_cons_self, trivial⟩
        · have henv : ¬ w.env.holds (Reference.substitute w.run.lookup condition) = true := hholds
          simp only [hholds, Env.chosen, henv]
          exact hskip rfl
    | _ => exact hskip rfl

/-- The body of a branch comes out of a conditional, and takes its place, as it was. -/
theorem splice_branch (hwf : w.doc.WellFormed) (hparent : w.doc.parent node = some parent) {branch : Nat}
    (hbranch : branch ∈ w.doc.children node) {doc₁ : Document} (hdoc₁ : Relisted w.doc doc₁ node [])
    (log : List Event) :
    ∃ doc₂ doc₃ start before after,
      removeChildren branch (doc₁.children branch) { w with doc := doc₁, log } = .ok () { w with doc := doc₂, log } ∧
      spliceAfter parent node (doc₁.children branch) { w with doc := doc₂, log } =
        .ok () { w with doc := doc₃, run := pointedAt w.run parent (w.doc.children branch), log } ∧
      Replacement w.doc (doc₃.removeChild parent node).1 parent node start before after (w.doc.children branch)
        [branch, node] ∧
      (start = node ∨ w.run.insertionPoints[parent]? = some start) ∧
      (w.doc.children branch).map (doc₃.removeChild parent node).1.fragment =
        (w.doc.children branch).map w.doc.fragment ∧
      (doc₃.removeChild parent node).1.next = w.doc.next := by
  have hpb := hwf.mem_children_iff.1 hbranch
  have hne : branch ≠ node := hwf.parent_ne hpb
  have hspan := Spans.of_parent hparent
  have hbody : doc₁.children branch = w.doc.children branch := by rw [hdoc₁.children_eq, if_neg hne]
  obtain ⟨doc₂, hrun₂, hdoc₂⟩ := removeChildren_all_run (w := { w with doc := doc₁, log }) hdoc₁.wf branch
  have hprepared := ((Prepared.refl hwf).empty hdoc₁).empty hdoc₂
  have hmem : node ∈ doc₂.children parent := by
    rw [hprepared.children_eq (hwf.parent_lt_next hparent), if_neg]
    · exact hwf.mem_children_iff.2 hparent
    · simp only [List.mem_cons, List.not_mem_nil, or_false]
      rintro (rfl | rfl)
      · exact hwf.not_spans_parent hparent (Spans.of_parent hpb)
      · exact hwf.parent_ne hparent rfl
  obtain ⟨doc₃, before, after, hsplit, hrun₃, hdoc₃⟩ :=
    spliceAfter_run (w := { w with doc := doc₂, log }) hdoc₂.wf hmem
      (hprepared.insertable hwf List.mem_cons_self (hspan.down hpb))
  have hreplaced := hprepared.replacement hwf hparent hsplit hdoc₃
    (fun hb => not_outside_of_spans List.mem_cons_self ((Spans.of_parent hpb).down (hwf.mem_children_iff.1 hb)))
    (by
      intro x hx
      simp only [List.mem_cons, List.not_mem_nil, or_false] at hx
      rcases hx with rfl | rfl
      · exact Spans.of_parent hpb
      · exact Spans.refl _ _)
  rw [hbody] at hrun₂ ⊢
  refine ⟨doc₂, doc₃, _, before, after, hrun₂, hrun₃, hreplaced,
    spliceStart_cases { w with doc := doc₂, log } parent node, ?_, ?_⟩
  · apply List.map_congr_left
    intro c hc
    apply hreplaced.fragment_eq hwf (hwf.child_lt_next hc)
    -- nothing that spans the branch is below a child of it
    intro x hx
    have hbelow : ¬ w.doc.Spans x branch := fun h => hwf.not_spans_parent (hwf.mem_children_iff.1 hc) (hx.trans h)
    refine ⟨?_, ?_⟩
    · rintro rfl
      exact hbelow (hspan.down hpb)
    · simp only [List.mem_cons, List.not_mem_nil, or_false]
      rintro (rfl | rfl)
      · exact hbelow (Spans.refl _ _)
      · exact hbelow (Spans.of_parent hpb)
  · rw [next_removeChild, hdoc₃.next_eq, hdoc₂.next_eq, hdoc₁.next_eq]

/-- A conditional is replaced by what is in the branch that is taken, if there is one. No node is new. -/
theorem decideConditional_run (hwf : w.doc.WellFormed) (hparent : w.doc.parent node = some parent)
    {choice : Option Nat} (hchoice : (chooseBranch w node (w.doc.children node)).1 = choice) {body : List Nat}
    (hbody : body = (choice.map w.doc.children).getD []) :
    ∃ w' start before after, decideConditional node w = .ok () w' ∧
      Replacement w.doc w'.doc parent node start before after body (choice.toList ++ [node]) ∧
      (start = node ∨ w.run.insertionPoints[parent]? = some start) ∧
      body.map w'.doc.fragment = body.map w.doc.fragment ∧ w'.doc.next = w.doc.next ∧
      w'.run = (pointedAt w.run parent body).resolveConditional node := by
  have hchosen := chooseBranch_chosen hwf node (w.doc.children node)
  unfold decideConditional
  simp only [run_bind, run_view, hparent, run_reportAll, hchoice] at hchosen ⊢
  generalize (chooseBranch w node (w.doc.children node)).2.reverse ++ w.log = log
  obtain ⟨doc₁, hrun₁, hdoc₁⟩ := removeChildren_all_run (w := { w with log }) hwf node
  simp only at hrun₁ hdoc₁
  simp only [hrun₁]
  subst hbody
  cases choice with
  | none =>
    obtain ⟨before, after, hdoc⟩ := ((Prepared.refl hwf).empty hdoc₁).replacement_nil hwf hparent (by
      intro x hx
      rw [List.mem_singleton.1 hx])
    simp only [run_bind, run_removeChild, run_editRun]
    exact ⟨_, node, before, after, rfl, hdoc, Or.inl rfl, rfl, (next_removeChild ..).trans hdoc₁.next_eq, rfl⟩
  | some branch =>
    obtain ⟨doc₂, doc₃, start, before, after, hrun₂, hrun₃, hdoc, hstart, hfragments, hnext⟩ :=
      splice_branch hwf hparent hchosen.1 hdoc₁ log
    simp only [run_bind, run_view, hrun₂, hrun₃, run_removeChild, run_editRun]
    exact ⟨_, start, before, after, rfl, hdoc, hstart, hfragments, hnext, rfl⟩

private theorem sameSetting_resolveConditional (run : Run) (node : Nat) :
    run.SameSetting (run.resolveConditional node) := by
  unfold Run.resolveConditional
  split <;> exact ⟨rfl, rfl, rfl, rfl, rfl⟩

/-- What a decided conditional leaves behind. -/
private theorem reacts_decided (hwf : w.doc.WellFormed) {w' : Workspace} {start : Nat}
    {before after body emptied : List Nat} {fs : List Fragment}
    (hdoc : Replacement w.doc w'.doc parent node start before after body emptied) (hemptied : node ∈ emptied)
    (hstart : start = node ∨ w.run.insertionPoints[parent]? = some start) (hbody : body.map w'.doc.fragment = fs)
    (hrun : w'.run = (pointedAt w.run parent body).resolveConditional node) :
    Reacts node parent w
      (.ok { scope := w.run.lookup, expansions := w.run.stats.mixinsExpanded, kept := none, below := [], body := fs })
      (.ok () w') := by
  have hsetting := (sameSetting_pointedAt w.run parent body).trans (sameSetting_resolveConditional _ node)
  rw [← hrun] at hsetting
  refine ⟨_, body, rfl, Or.inr ⟨rfl, start, before, after, emptied, hdoc, hstart⟩, ?_, hbody, ?_, ?_, hsetting, ?_⟩
  · rw [hdoc.children_eq (lt_next_of_parent hdoc.parent_node) (hwf.parent_ne hdoc.parent_node), if_pos hemptied]
    rfl
  · rw [hrun, Run.resolveConditional]
    split <;> simp
  · rw [hrun, Run.resolveConditional]
    split
    · exact lookup_pointedAt w.run body
    · exact lookup_pointedAt w.run body
  · intro k hk
    rw [hrun, Run.resolveConditional]
    split
    · exact insertionPoints_pointedAt body hk
    · exact insertionPoints_pointedAt body hk

theorem decideConditional_reacts (hwf : w.doc.WellFormed) (hparent : w.doc.parent node = some parent)
    (hkind : w.doc.kind node = .conditional) :
    Reacts node parent w (w.env.react w.run.lookup w.run.stats.mixinsExpanded (w.doc.fragment node))
      (decideConditional node w) := by
  have hchosen := chooseBranch_chosen hwf node (w.doc.children node)
  generalize hchoice : (chooseBranch w node (w.doc.children node)).1 = choice at hchosen
  obtain ⟨w', start, before, after, hrun, hdoc, hstart, hfragments, -, hrun'⟩ :=
    decideConditional_run hwf hparent hchoice rfl
  have hbody : ((choice.map w.doc.children).getD []).map w'.doc.fragment =
      w.env.chosen w.run.lookup ((w.doc.children node).map w.doc.fragment) := by
    rw [hfragments]
    cases choice with
    | none => exact hchosen.symm
    | some branch => exact hchosen.2.symm
  rw [hwf.fragment_eq, hkind, Env.react, hrun]
  exact reacts_decided hwf hdoc (by simp) hstart hbody hrun'

/-! ### Any kind of node -/

private theorem handle_reacts (hwf : w.doc.WellFormed) (hparent : w.doc.parent node = some parent) :
    Reacts node parent w (w.env.react w.run.lookup w.run.stats.mixinsExpanded (w.doc.fragment node))
      (handle node (w.doc.kind node) w) := by
  have htext := substituteText_reacts hwf hparent
  have hsame : Reacts node parent w _ (.ok () w) := reacts_kept hwf (Retyped.refl hwf node) rfl
  cases hkind : w.doc.kind node with
  | rule selector =>
    rw [hkind] at htext
    rw [hwf.fragment_eq, hkind]
    exact htext
  | declaration property value =>
    rw [hkind] at htext
    rw [hwf.fragment_eq, hkind]
    exact htext
  | assignment name value guarded => exact assign_reacts hwf hparent name value guarded hkind
  | inclusion name args => exact expand_reacts hwf hparent name args hkind
  | conditional => exact decideConditional_reacts hwf hparent hkind
  | _ =>
    rw [hkind] at hsame
    rw [hwf.fragment_eq, hkind]
    exact hsame

/-- A visit does what the semantics says of the fragment at the node. -/
theorem visit_reacts (hwf : w.doc.WellFormed) (hparent : w.doc.parent node = some parent) :
    Reacts node parent w (w.env.react w.run.lookup w.run.stats.mixinsExpanded (w.doc.fragment node))
      (visit node w) := by
  have hlike := like_counted w node
  have h : Reacts node parent (counted w node) _ (handle node (w.doc.kind node) (counted w node)) :=
    handle_reacts hwf hparent
  rw [hlike.env_eq, hlike.lookup_eq, hlike.expansions_eq, hlike.doc_eq] at h
  rw [visit_run]
  exact hlike.reacts h

/-- A node without a parent stays where it is. -/
theorem visit_of_parent_none (hwf : w.doc.WellFormed) (hlt : node < w.doc.next) (hparent : w.doc.parent node = none) :
    ∃ w' kind, visit node w = .ok () w' ∧ Retyped w.doc w'.doc node kind ∧
      w'.run.stats.mixinsExpanded = w.run.stats.mixinsExpanded ∧ w.run.SameSetting w'.run ∧
      w'.run.insertionPoints = w.run.insertionPoints := by
  have hsetting := (like_counted w node).setting
  have hsame := Retyped.refl hwf node
  rw [visit_run]
  cases hkind : w.doc.kind node with
  | rule selector => exact ⟨_, _, rfl, hwf.retyped_setKind hlt _, rfl, hsetting, rfl⟩
  | declaration property value => exact ⟨_, _, rfl, hwf.retyped_setKind hlt _, rfl, hsetting, rfl⟩
  | assignment name value guarded =>
    have hdetached : Retyped w.doc (w.doc.detach node).1 node (w.doc.kind node) := by
      rw [Document.detach, hparent]
      exact hsame
    simp only [handle, assign, run_bind, run_view]
    split
    · exact ⟨_, _, rfl, hdetached, rfl, hsetting, rfl⟩
    · exact ⟨_, _, rfl, hdetached, rfl, ⟨rfl, rfl, rfl, rfl, rfl⟩, rfl⟩
  | inclusion name args =>
    refine ⟨counted w node, _, ?_, hsame, rfl, hsetting, rfl⟩
    simp only [handle, expand, run_bind, run_view, counted, hparent, run_pure]
  | conditional =>
    refine ⟨counted w node, _, ?_, hsame, rfl, hsetting, rfl⟩
    simp only [handle, decideConditional, run_bind, run_view, counted, hparent, run_pure]
  | _ => exact ⟨_, _, rfl, hsame, rfl, hsetting, rfl⟩

end Pass

end NestedStyles
