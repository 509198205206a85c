import NestedStyles.Walk.Basic
import NestedStyles.Proofs.Pass.Loosening
import NestedStyles.Proofs.Walk.Termination

/-!
# Evaluation with looser settings

An evaluation looks at the settings in three places. An unknown mixin is an error only if the run is strict, an
expansion is refused only past the limit, and the walk is bounded by the expansions that are left. So where an
evaluation succeeds, it takes the same steps with looser settings, with more expansions left all the way by what the
limits differ (`follows_walkChildren`).
-/

namespace NestedStyles

/-- How many more expansions the loose settings allow. -/
def Slack.extra (slack : Slack) : Nat := slack.looseLimit - slack.limit

theorem Slack.Holds.expansionsLeft_loosen {slack : Slack} {run : Run} (h : slack.Holds run) :
    (slack.loosen run).expansionsLeft = slack.extra + run.expansionsLeft := by
  have hle := slack.limit_le
  have hexpansions := h.expansions_le
  simp only [Run.expansionsLeft, Slack.loosen, Slack.extra, h.limit_eq]
  omega

namespace Pass

variable {α : Type} {slack : Slack}

/-! ### Visits -/

theorem steady_spliceAfter (parent anchor : Nat) (nodes : List Nat) :
    Steady slack (spliceAfter parent anchor nodes) := by
  refine (steady_view fun _ => rfl).bind fun start => (steady_insertChain parent start nodes).bind fun _ => ?_
  cases nodes.getLast? with
  | none => exact steady_pure ()
  | some last => exact steady_editRun fun _ => ⟨rfl, rfl, rfl, rfl⟩

theorem steady_substituteText (node : Nat) : Steady slack (substituteText node) :=
  steady_edit (fun _ => rfl) fun _ => rfl

theorem steady_assign (node : Nat) (name value : String) (guarded : Bool) :
    Steady slack (assign node name value guarded) := by
  refine (steady_view fun _ => rfl).bind fun taken => ?_
  split
  · exact (steady_report _).bind fun _ => steady_detach node
  · refine (steady_view fun _ => rfl).bind fun value => (steady_report _).bind fun _ => ?_
    exact Follows.bind (steady_editRun fun _ => ⟨rfl, rfl, rfl, rfl⟩) fun _ => steady_detach node

/-- What is refused with the loose limit is refused with the tight one. -/
theorem steady_countExpansion : Steady slack countExpansion := by
  intro w a w₁ hw hrun
  have hle := slack.limit_le
  simp only [countExpansion, run_bind, run_view, hw.limit_eq] at hrun ⊢
  split at hrun
  · cases hrun
  · next hlimit =>
    obtain ⟨⟩ := hrun
    refine ⟨⟨hw.strict_eq, hw.limit_eq, Nat.le_of_not_lt hlimit⟩, ?_⟩
    rw [if_neg]
    · rfl
    · simp only [Slack.loosen]
      omega

/-- What is an error in a strict run only. -/
theorem steady_refuseStrict {x : Pass α} (e : CompileError) (hx : Steady slack x) :
    Steady slack (do if ← view (·.run.strict) then fail e else x) := by
  intro w a w₁ hw hrun
  simp only [run_bind, run_view, hw.strict_eq] at hrun ⊢
  split at hrun
  · cases hrun
  · next hstrict =>
    rw [if_neg]
    · exact hx hw hrun
    · exact fun hloose => hstrict (slack.strict_of_loose hloose)

theorem steady_copyAll (values : ParamValues) (nodes : List Nat) : Steady slack (copyAll values nodes) := by
  induction nodes with
  | nil => exact steady_pure []
  | cons node nodes ih =>
    refine (steady_view fun _ => rfl).bind fun body => (steady_makeNode _).bind fun copy => ?_
    exact ih.bind fun copies => steady_pure _

theorem steady_expand (node : Nat) (name : String) (args : List String) : Steady slack (expand node name args) := by
  refine (steady_view fun _ => rfl).bind fun parent => ?_
  cases parent with
  | none => exact steady_pure ()
  | some parent =>
    refine (steady_view fun _ => rfl).bind fun definition => ?_
    cases definition with
    | none =>
      refine steady_refuseStrict _ ((steady_view fun _ => rfl).bind fun active => ?_)
      exact (steady_report _).bind fun _ => steady_detach node
    | some definition =>
      refine steady_countExpansion.bind fun _ => (steady_view fun _ => rfl).bind fun params => ?_
      refine (steady_view fun _ => rfl).bind fun (values, events) => (steady_reportAll events).bind fun _ => ?_
      refine (steady_view fun _ => rfl).bind fun body => (steady_copyAll values body).bind fun copies => ?_
      refine (steady_report _).bind fun _ => (steady_spliceAfter parent node copies).bind fun _ => ?_
      exact steady_removeChild parent node

theorem chooseBranch_loosen (w : Workspace) (conditional : Nat) (nodes : List Nat) :
    chooseBranch { w with run := slack.loosen w.run } conditional nodes = chooseBranch w conditional nodes := by
  induction nodes with
  | nil => rfl
  | cons node nodes ih =>
    simp only [chooseBranch, ih]
    rfl

theorem steady_resolveConditional (node : Nat) : Steady slack (editRun (·.resolveConditional node)) := by
  refine steady_editRun fun run => ?_
  have hpending : (slack.loosen run).pending.contains node = run.pending.contains node := rfl
  unfold Run.resolveConditional
  rw [hpending]
  split
  · exact ⟨rfl, rfl, rfl, rfl⟩
  · exact ⟨rfl, rfl, rfl, rfl⟩

theorem steady_decideConditional (node : Nat) : Steady slack (decideConditional node) := by
  refine (steady_view fun _ => rfl).bind fun parent => ?_
  cases parent with
  | none => exact steady_pure ()
  | some parent =>
    refine (steady_view fun _ => rfl).bind fun branches => ?_
    refine (steady_view fun w => chooseBranch_loosen w node branches).bind fun (chosen, events) => ?_
    refine (steady_reportAll events).bind fun _ => (steady_editDocument _).bind fun _ => ?_
    have hleave : Steady slack (removeChild parent node >>= fun _ => editRun (·.resolveConditional node)) :=
      (steady_removeChild parent node).bind fun _ => steady_resolveConditional node
    cases chosen with
    | none => exact hleave
    | some branch =>
      refine (steady_view fun _ => rfl).bind fun body => (steady_editDocument _).bind fun _ => ?_
      exact (steady_spliceAfter parent node body).bind fun _ => hleave

theorem steady_visit (node : Nat) : Steady slack (visit node) := by
  refine (steady_view fun _ => rfl).bind fun kind => (steady_report _).bind fun _ => ?_
  refine Follows.bind (steady_editStats fun _ => rfl) fun _ => ?_
  cases kind with
  | rule | declaration => exact steady_substituteText node
  | assignment name value guarded => exact steady_assign node name value guarded
  | inclusion name args => exact steady_expand node name args
  | conditional => exact steady_decideConditional node
  | _ => exact steady_pure ()

/-! ### The walk -/

theorem follows_walk {walkBelow walkBelow' : Nat → Pass Unit}
    (h : ∀ node, Follows slack (walkBelow node) (walkBelow' node)) (node : Nat) :
    Follows slack (walk walkBelow node) (walk walkBelow' node) := by
  refine (steady_view fun _ => rfl).bind fun home => (steady_visit node).bind fun _ => ?_
  refine (steady_view fun _ => rfl).bind fun scope => (h node).bind fun _ => ?_
  have hclear (node : Nat) : Steady slack (editRun (·.clearInsertionPoint node)) :=
    steady_editRun fun _ => ⟨rfl, rfl, rfl, rfl⟩
  refine Follows.bind (steady_editRun fun _ => ⟨rfl, rfl, rfl, rfl⟩) fun _ => ?_
  cases home with
  | none => exact (hclear node).bind fun _ => steady_pure false
  | some parent =>
    exact (hclear parent).bind fun _ => (hclear node).bind fun _ => steady_view fun _ => rfl

theorem follows_turn {onward onward' : Nat → Nat → Pass Unit}
    (h : ∀ node index, Follows slack (onward node index) (onward' node index)) (node index : Nat) :
    Follows slack (turn onward node index) (turn onward' node index) := by
  refine (steady_view fun _ => rfl).bind fun child => ?_
  cases child with
  | none => exact steady_pure ()
  | some child => exact (follows_walk (h · 0) child).bind fun gone => h node _

section Bounds

variable {anew anew' : Nat → Nat → Nat → Pass Unit} {expansions : Nat}
  (hanew : ∀ visits node index, Follows slack (anew visits node index) (anew' visits node index))

include hanew

/-- With as many more expansions in both places, the walk starts anew at the same time. -/
theorem follows_renewing {onward onward' : Nat → Nat → Pass Unit}
    (h : ∀ node index, Follows slack (onward node index) (onward' node index)) (node index : Nat) :
    Follows slack (renewing expansions anew onward node index)
      (renewing (slack.extra + expansions) anew' onward' node index) := by
  intro w a w₁ hw hrun
  simp only [renewing, run_bind, run_view, hw.expansionsLeft_loosen, Nat.add_lt_add_iff_left] at hrun ⊢
  split at hrun
  · next hlt =>
    rw [if_pos hlt]
    exact hanew _ node index hw hrun
  · next hnot =>
    rw [if_neg hnot]
    exact h node index hw hrun

theorem follows_walkUntil (visits : Nat) :
    ∀ node index, Follows slack (walkUntil expansions anew visits node index)
      (walkUntil (slack.extra + expansions) anew' visits node index) := by
  induction visits with
  | zero => exact follows_turn (follows_renewing hanew fun _ _ => follows_fail _ _)
  | succ visits ih => exact follows_turn (follows_renewing hanew ih)

end Bounds

theorem exists_walkChildren_eq (expansions : Nat) : ∃ anew, walkChildren expansions = walkUntil expansions anew := by
  cases expansions with
  | zero => exact ⟨_, rfl⟩
  | succ expansions => exact ⟨_, rfl⟩

theorem follows_walkChildren (expansions visits : Nat) :
    ∀ node index, Follows slack (walkChildren expansions visits node index)
      (walkChildren (slack.extra + expansions) visits node index) := by
  induction expansions generalizing visits with
  | zero =>
    obtain ⟨anew, hloose⟩ := exists_walkChildren_eq slack.extra
    rw [Nat.add_zero, hloose]
    exact follows_walkUntil (fun _ _ _ => follows_fail _ _) visits
  | succ expansions ih => exact follows_walkUntil ih visits

theorem steady_evaluate (node : Nat) : Steady slack (evaluate node) := by
  intro w a w₁ hw hrun
  simp only [evaluate, run_bind, run_view] at hrun ⊢
  rw [hw.expansionsLeft_loosen]
  exact follows_walk (follows_walkChildren _ _ · 0) node hw hrun

end Pass

end NestedStyles
