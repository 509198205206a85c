import NestedStyles.Collecting
import NestedStyles.Flattening
import NestedStyles.Pruning
import NestedStyles.Proofs.Pass.Splicing

/-!
# Runs with looser settings

A run may be repeated with settings that allow more: strictness is off where it was on, or more mixins may be expanded.
One pass follows another one when, wherever the other succeeds with the tight settings, it succeeds with the loose ones
too, with the same result and the same state up to the settings (`Follows`). Sequences of passes follow one another when
their steps do (`Follows.bind`). A pass is steady when it follows itself, as it does if none of its steps looks at the
settings. Collecting, flattening and pruning are steady.
-/

namespace NestedStyles

/-- Two settings of a run, of which the second one allows all that the first one does. -/
structure Slack where
  strict : Bool
  limit : Nat
  looseStrict : Bool
  looseLimit : Nat
  strict_of_loose : looseStrict = true → strict = true
  limit_le : limit ≤ looseLimit

namespace Slack

variable (slack : Slack)

/-- The run with the loose settings. -/
def loosen (run : Run) : Run := { run with strict := slack.looseStrict, expansionLimit := slack.looseLimit }

/-- The run has the tight settings and has kept to them so far. -/
structure Holds (run : Run) : Prop where
  strict_eq : run.strict = slack.strict
  limit_eq : run.expansionLimit = slack.limit
  expansions_le : run.stats.mixinsExpanded ≤ slack.limit

end Slack

namespace Pass

variable {α β : Type} {slack : Slack}

/-- Where the first pass succeeds with the tight settings, the second one does the same with the loose ones. -/
def Follows (slack : Slack) (x x' : Pass α) : Prop :=
  ∀ ⦃w a w₁⦄, slack.Holds w.run → x w = .ok a w₁ →
    slack.Holds w₁.run ∧ x' { w with run := slack.loosen w.run } = .ok a { w₁ with run := slack.loosen w₁.run }

/-- The pass does the same with the loose settings. -/
abbrev Steady (slack : Slack) (x : Pass α) : Prop := Follows slack x x

/-! ### Steps -/

theorem Follows.bind {x x' : Pass α} {f f' : α → Pass β} (hx : Follows slack x x')
    (hf : ∀ a, Follows slack (f a) (f' a)) : Follows slack (x >>= f) (x' >>= f') := by
  intro w b w₂ hw hrun
  obtain ⟨a, w₁, hfirst, hrest⟩ := exists_of_bind_eq_ok hrun
  obtain ⟨hw₁, hfirst'⟩ := hx hw hfirst
  rw [run_bind, hfirst']
  exact hf a hw₁ hrest

/-- Whatever there is in its place follows a failure. -/
theorem follows_fail (e : CompileError) (x : Pass α) : Follows slack (fail e) x := by
  rintro w _ _ hw ⟨⟩

theorem steady_pure (a : α) : Steady slack (pure a) := by
  rintro w _ _ hw ⟨⟩
  exact ⟨hw, rfl⟩

theorem steady_view {f : Workspace → α} (h : ∀ w, f { w with run := slack.loosen w.run } = f w) :
    Steady slack (view f) := by
  rintro w _ _ hw ⟨⟩
  rw [run_view, h]
  exact ⟨hw, rfl⟩

/-- An edit of everything but the run. -/
theorem steady_edit {f : Workspace → Workspace} (hrun : ∀ w, (f w).run = w.run)
    (h : ∀ w, f { w with run := slack.loosen w.run } = { f w with run := slack.loosen w.run }) :
    Steady slack (edit f) := by
  rintro w _ _ hw ⟨⟩
  rw [run_edit, h, hrun]
  exact ⟨hw, rfl⟩

theorem steady_report (event : Event) : Steady slack (report event) := steady_edit (fun _ => rfl) fun _ => rfl

theorem steady_reportAll (events : List Event) : Steady slack (reportAll events) :=
  steady_edit (fun _ => rfl) fun _ => rfl

theorem steady_editDocument (f : Document → Document) : Steady slack (editDocument f) :=
  steady_edit (fun _ => rfl) fun _ => rfl

/-- An edit of the run that leaves the settings and the count of expansions alone. -/
theorem steady_editRun {f : Run → Run} (h : ∀ run, f (slack.loosen run) = slack.loosen (f run) ∧
    (f run).strict = run.strict ∧ (f run).expansionLimit = run.expansionLimit ∧
      (f run).stats.mixinsExpanded = run.stats.mixinsExpanded) : Steady slack (editRun f) := by
  rintro w _ _ hw ⟨⟩
  obtain ⟨hcomm, hstrict, hlimit, hexpansions⟩ := h w.run
  refine ⟨⟨hstrict.trans hw.strict_eq, hlimit.trans hw.limit_eq, hexpansions ▸ hw.expansions_le⟩, ?_⟩
  rw [run_editRun, hcomm]

theorem steady_editStats {f : Stats → Stats} (h : ∀ stats, (f stats).mixinsExpanded = stats.mixinsExpanded) :
    Steady slack (editStats f) :=
  steady_editRun fun run => ⟨rfl, rfl, rfl, h run.stats⟩

theorem steady_makeNode (f : Document → Document × Nat) : Steady slack (makeNode f) := by
  rintro w _ _ hw ⟨⟩
  exact ⟨hw, rfl⟩

theorem steady_removeChild (parent node : Nat) : Steady slack (removeChild parent node) := steady_editDocument _

theorem steady_detach (node : Nat) : Steady slack (detach node) := steady_editDocument _

theorem steady_insertAt (parent index node : Nat) : Steady slack (insertAt parent index node) := by
  refine (steady_view fun _ => rfl).bind fun refusal => ?_
  cases refusal with
  | none => exact steady_editDocument _
  | some error => exact follows_fail _ _

theorem steady_insertAfter (parent anchor node : Nat) : Steady slack (insertAfter parent anchor node) := by
  refine (steady_view fun _ => rfl).bind fun index => ?_
  cases index with
  | none => exact follows_fail _ _
  | some index => exact steady_insertAt parent (index + 1) node

theorem steady_insertChain (parent anchor : Nat) (nodes : List Nat) :
    Steady slack (insertChain parent anchor nodes) := by
  induction nodes generalizing anchor with
  | nil => exact steady_pure ()
  | cons node nodes ih => exact (steady_insertAfter parent anchor node).bind fun _ => ih node

theorem steady_forM {f : α → Pass Unit} (h : ∀ a, Steady slack (f a)) (as : List α) : Steady slack (as.forM f) := by
  induction as with
  | nil => exact steady_pure ()
  | cons a as ih => exact (h a).bind fun _ => ih

/-! ### Collecting -/

theorem steady_registerMixin (name : String) (node : Nat) : Steady slack (registerMixin name node) := by
  refine (steady_detach node).bind fun _ => (steady_view fun _ => rfl).bind fun previous => ?_
  cases previous with
  | none => exact steady_editRun fun _ => ⟨rfl, rfl, rfl, rfl⟩
  | some previous => exact (steady_report _).bind fun _ => steady_editRun fun _ => ⟨rfl, rfl, rfl, rfl⟩

theorem steady_registerConditional (node : Nat) :
    Steady slack (editRun fun run => (run.registerConditional node).1) :=
  steady_editRun fun _ => ⟨rfl, rfl, rfl, rfl⟩

theorem steady_collectWithin (levels node : Nat) : Steady slack (collectWithin levels node) := by
  induction levels generalizing node with
  | zero =>
    simp only [collectWithin]
    refine (steady_view fun _ => rfl).bind fun kind => ?_
    split
    · exact (steady_report _).bind fun _ => steady_registerMixin _ node
    · split
      · exact (steady_registerConditional node).bind fun _ => steady_pure ()
      · exact steady_pure ()
  | succ levels ih =>
    have hbelow : Steady slack (view (·.doc.children node) >>= (·.forM (collectWithin levels))) :=
      (steady_view fun _ => rfl).bind fun children => steady_forM ih children
    simp only [collectWithin]
    refine (steady_view fun _ => rfl).bind fun kind => ?_
    split
    · exact (steady_report _).bind fun _ => steady_registerMixin _ node
    · split
      · exact (steady_registerConditional node).bind fun _ => hbelow
      · exact hbelow

theorem steady_collect (node : Nat) : Steady slack (collect node) :=
  (steady_view fun _ => rfl).bind fun levels => steady_collectWithin levels node

/-! ### Flattening -/

theorem steady_takeAmong {take : Nat → Pass (List Nat)} (h : ∀ child, Steady slack (take child)) (rule : Nat)
    (outer : String) (children : List Nat) : Steady slack (takeAmong take rule outer children) := by
  induction children with
  | nil => exact steady_pure []
  | cons child children ih =>
    refine (steady_view fun _ => rfl).bind fun kind => ?_
    split
    · refine (steady_report _).bind fun _ => (steady_editDocument _).bind fun _ => ?_
      refine (steady_removeChild rule child).bind fun _ => (h child).bind fun deeper => ?_
      exact ih.bind fun others => steady_pure _
    · exact ih

theorem steady_takeNested (levels rule : Nat) : Steady slack (takeNested levels rule) := by
  induction levels generalizing rule with
  | zero => exact steady_pure []
  | succ levels ih =>
    refine (steady_view fun _ => rfl).bind fun kind => ?_
    split
    · exact (steady_view fun _ => rfl).bind fun children => steady_takeAmong ih rule _ children
    · exact steady_pure []

theorem steady_flattenFrom (levels root steps index : Nat) : Steady slack (flattenFrom levels root steps index) := by
  induction steps generalizing index with
  | zero => exact follows_fail _ _
  | succ steps ih =>
    refine (steady_view fun _ => rfl).bind fun child => ?_
    cases child with
    | none => exact steady_pure 0
    | some top =>
      refine (steady_takeNested levels top).bind fun nested => (steady_insertChain root top nested).bind fun _ => ?_
      exact (ih _).bind fun rest => steady_pure _

theorem steady_flatten (root : Nat) : Steady slack (flatten root) :=
  (steady_view fun _ => rfl).bind fun nodes => steady_flattenFrom nodes root nodes 0

/-! ### Pruning -/

theorem steady_pruneNode (node : Nat) : Steady slack (pruneNode node) := by
  refine (steady_view fun _ => rfl).bind fun idle => (steady_view fun _ => rfl).bind fun parent => ?_
  cases parent with
  | none => exact steady_pure 0
  | some parent =>
    simp only
    split
    · exact (steady_removeChild parent node).bind fun _ => (steady_report _).bind fun _ => steady_pure 1
    · exact steady_pure 0

theorem steady_pruneEach {prune : Nat → Pass Nat} (h : ∀ node, Steady slack (prune node)) (nodes : List Nat) :
    Steady slack (pruneEach prune nodes) := by
  induction nodes with
  | nil => exact steady_pure 0
  | cons node nodes ih => exact (h node).bind fun here => ih.bind fun rest => steady_pure (here + rest)

theorem steady_pruneWithin (levels node : Nat) : Steady slack (pruneWithin levels node) := by
  induction levels generalizing node with
  | zero => exact steady_pure 0
  | succ levels ih =>
    refine (steady_view fun _ => rfl).bind fun children => (steady_pruneEach ih children).bind fun below => ?_
    exact (steady_pruneNode node).bind fun here => steady_pure (below + here)

theorem steady_prune (node : Nat) : Steady slack (prune node) :=
  (steady_view fun _ => rfl).bind fun levels => steady_pruneWithin levels node

end Pass

end NestedStyles
