import NestedStyles.Proofs.Pass.Trimming
import NestedStyles.Proofs.Walk.Loop

/-!
# What a visit does, step by step

Once a visit has been logged and counted, and an assignment has bound its name, all that is left to do consists of a few
kinds of steps (`Step`): links between nodes are changed and nodes are added, events other than visits are logged, the
insertion point of the parent is moved, an expansion is counted, a conditional is resolved (`visit_steps`). What none
of these steps changes, a visit does not change either (`Steps.eq`).
-/

namespace NestedStyles

open Document

/-! ### What is reported besides visits -/

theorem Arguments.visited?_fill (scope : Reference.Lookup) (mixin : String) (filling : Filling) (param : Param)
    (h : ∀ e ∈ filling.events, e.visited? = none) :
    ∀ e ∈ (filling.fill scope mixin param).events, e.visited? = none := by
  unfold Filling.fill
  split
  · exact h
  · split
    · exact h
    · split
      · exact h
      · intro e he
        rcases List.mem_append.1 he with he | he
        · exact h e he
        · rw [List.mem_singleton.1 he]
          rfl

theorem Arguments.visited?_bind (scope : Reference.Lookup) (mixin : String) (params : List Param)
    (args : List String) : ∀ e ∈ (bind scope mixin params args).2, e.visited? = none := by
  have hfilled : ∀ (params : List Param) (filling : Filling), (∀ e ∈ filling.events, e.visited? = none) →
      ∀ e ∈ (params.foldl (Filling.fill scope mixin) filling).events, e.visited? = none := by
    intro params
    induction params with
    | nil => exact fun _ h => h
    | cons param params ih => exact fun filling h => ih _ (visited?_fill scope mixin filling param h)
  intro e he
  simp only [bind, List.mem_append, List.mem_map] at he
  rcases he with (he | he) | ⟨name, -, rfl⟩
  · split at he
    · rw [List.mem_singleton.1 he]
      rfl
    · simp at he
  · exact hfilled params _ (by simp) e he
  · rfl

namespace Pass

theorem visited?_chooseBranch (w : Workspace) (conditional : Nat) (nodes : List Nat) :
    ∀ e ∈ (chooseBranch w conditional nodes).2, e.visited? = none := by
  induction nodes with
  | nil => simp [chooseBranch]
  | cons node nodes ih =>
    unfold chooseBranch
    cases w.doc.kind node with
    | branch condition =>
      cases condition with
      | none => simp
      | some condition =>
        simp only
        split
        · simp [Event.visited?]
        · exact List.forall_mem_cons.2 ⟨rfl, ih⟩
    | _ => exact List.forall_mem_cons.2 ⟨rfl, ih⟩

/-! ### Steps -/

/-- A step of the work at a node whose parent is `home`. The kind of a conditional is not touched. -/
inductive Step (home : Option Nat) (w : Workspace) : Workspace → Prop
  | linked {doc : Document} (h : ∀ x, w.doc.kind x = .conditional → doc.kind x = .conditional) :
      Step home w { w with doc }
  | reported {events : List Event} (h : ∀ e ∈ events, e.visited? = none) :
      Step home w { w with log := events ++ w.log }
  | pointed {parent last : Nat} (h : home = some parent) :
      Step home w { w with run := w.run.setInsertionPoint parent last }
  | counted (n : Nat) : Step home w { w with run := { w.run with stats := { w.run.stats with mixinsExpanded := n } } }
  | resolved (node : Nat) : Step home w { w with run := w.run.resolveConditional node }

/-- A number of steps, one after the other. -/
abbrev Steps (home : Option Nat) : Workspace → Workspace → Prop := Relation.ReflTransGen (Step home)

variable {α β : Type} {home : Option Nat}

theorem Steps.eq {γ : Type} {f : Workspace → γ} {w w' : Workspace} (h : Steps home w w')
    (hf : ∀ {w w'}, Step home w w' → f w' = f w) : f w' = f w := by
  induction h with
  | refl => rfl
  | tail _ hstep ih => rw [hf hstep, ih]

/-- A success of the pass consists of steps. -/
def Does (home : Option Nat) (x : Pass α) : Prop := ∀ ⦃w a w'⦄, x w = .ok a w' → Steps home w w'

theorem Does.bind {x : Pass α} {f : α → Pass β} (hx : Does home x) (hf : ∀ a, Does home (f a)) :
    Does home (x >>= f) := by
  intro w b w' hrun
  obtain ⟨a, w₁, hfirst, hrest⟩ := exists_of_bind_eq_ok hrun
  exact (hx hfirst).trans (hf a hrest)

theorem does_pure (a : α) : Does home (pure a) := by
  rintro w _ _ ⟨⟩
  exact .refl

theorem does_view (f : Workspace → α) : Does home (view f) := by
  rintro w _ _ ⟨⟩
  exact .refl

theorem does_fail (e : CompileError) : Does home (fail e : Pass α) := by
  rintro w _ _ ⟨⟩

theorem does_edit {f : Workspace → Workspace} (h : ∀ w, Step home w (f w)) : Does home (edit f) := by
  rintro w _ _ ⟨⟩
  exact .single (h w)

theorem does_editDocument {f : Document → Document} (h : ∀ doc x, (f doc).kind x = doc.kind x) :
    Does home (editDocument f) :=
  does_edit fun w => .linked fun x hx => (h w.doc x).trans hx

theorem does_reportAll {events : List Event} (h : ∀ e ∈ events, e.visited? = none) : Does home (reportAll events) :=
  does_edit fun _ => .reported fun e he => h e (List.mem_reverse.1 he)

theorem does_report {event : Event} (h : event.visited? = none) : Does home (report event) :=
  does_edit fun _ => .reported (List.forall_mem_singleton.2 h)

theorem does_removeChild (parent node : Nat) : Does home (removeChild parent node) :=
  does_editDocument fun doc x => kind_removeChild doc parent node x

theorem does_removeChildren (parent : Nat) (nodes : List Nat) : Does home (removeChildren parent nodes) := by
  apply does_editDocument
  intro doc x
  induction nodes generalizing doc with
  | nil => rfl
  | cons node nodes ih => rw [List.foldl_cons, ih, kind_removeChild]

theorem does_detach (node : Nat) : Does home (detach node) :=
  does_editDocument fun doc x => kind_detach doc node x

theorem does_insertAfter (parent anchor node : Nat) : Does home (insertAfter parent anchor node) := by
  refine (does_view _).bind fun index => ?_
  cases index with
  | none => exact does_fail _
  | some index =>
    refine (does_view _).bind fun refusal => ?_
    cases refusal with
    | none => exact does_editDocument fun doc x => kind_place doc parent (index + 1) node x
    | some error => exact does_fail _

theorem does_insertChain (parent anchor : Nat) (nodes : List Nat) : Does home (insertChain parent anchor nodes) := by
  induction nodes generalizing anchor with
  | nil => exact does_pure ()
  | cons node nodes ih => exact (does_insertAfter parent anchor node).bind fun _ => ih node

theorem does_spliceAfter {parent : Nat} (hparent : home = some parent) (anchor : Nat) (nodes : List Nat) :
    Does home (spliceAfter parent anchor nodes) := by
  refine (does_view _).bind fun start => (does_insertChain parent start nodes).bind fun _ => ?_
  cases nodes.getLast? with
  | none => exact does_pure ()
  | some last => exact does_edit fun _ => .pointed hparent

theorem does_countExpansion : Does home countExpansion := by
  refine (does_view _).bind fun expanded => (does_view _).bind fun limit => ?_
  split
  · exact does_fail _
  · exact does_edit fun _ => .counted expanded

theorem does_instantiate (f : Fragment) : Does home (makeNode (·.instantiate f)) := by
  rintro w _ _ ⟨⟩
  refine .single (.linked fun x hx => ?_)
  by_cases hlt : x < w.doc.next
  · exact ((instantiate_spec w.doc f).kind_eq hlt).trans hx
  · -- a number that is not in use stands for a blank node
    rw [kind, node_of_le (by omega)] at hx
    cases hx

theorem does_copyAll (values : ParamValues) (nodes : List Nat) : Does home (copyAll values nodes) := by
  induction nodes with
  | nil => exact does_pure []
  | cons node nodes ih =>
    refine (does_view _).bind fun body => (does_instantiate _).bind fun copy => ?_
    exact ih.bind fun copies => does_pure _

/-! ### Visits -/

variable {w w' : Workspace} {node : Nat}

theorem steps_substituteText (hrun : substituteText node w = .ok () w') : Steps home w w' := by
  obtain ⟨⟩ := hrun
  refine .single (.linked fun x hx => ?_)
  rw [kind_setKind]
  split
  · next h =>
    rw [h.1, hx]
    rfl
  · exact hx

theorem steps_expand {name : String} {args : List String} (hrun : expand node name args w = .ok () w') :
    Steps (w.doc.parent node) w w' := by
  rw [expand, run_bind, run_view] at hrun
  generalize w.doc.parent node = home at hrun ⊢
  cases home with
  | none => exact does_pure () hrun
  | some parent =>
    refine Does.bind (does_view _) (fun definition => ?_) hrun
    cases definition with
    | none =>
      refine (does_view _).bind fun strict => ?_
      split
      · exact does_fail _
      · exact (does_view _).bind fun active => (does_report rfl).bind fun _ => does_detach node
    | some definition =>
      refine does_countExpansion.bind fun _ => (does_view _).bind fun params => ?_
      intro w a w' hrun
      -- what is reported depends on the arguments, so the state is needed to see that none of it is a visit
      rw [run_bind, run_view] at hrun
      have hevents := Arguments.visited?_bind w.run.lookup name params args
      refine Does.bind (does_reportAll hevents) (fun _ => (does_view _).bind fun body => ?_) hrun
      refine (does_copyAll _ body).bind fun copies => (does_report rfl).bind fun _ => ?_
      exact (does_spliceAfter rfl node copies).bind fun _ => does_removeChild parent node

theorem steps_decideConditional (hrun : decideConditional node w = .ok () w') : Steps (w.doc.parent node) w w' := by
  rw [decideConditional, run_bind, run_view] at hrun
  generalize w.doc.parent node = home at hrun ⊢
  cases home with
  | none => exact does_pure () hrun
  | some parent =>
    refine Does.bind (does_view _) (fun branches => ?_) hrun
    intro w a w' hrun
    rw [run_bind, run_view] at hrun
    have hevents := visited?_chooseBranch w node branches
    have hleave : Does (some parent) (removeChild parent node >>= fun _ => editRun (·.resolveConditional node)) :=
      (does_removeChild parent node).bind fun _ => does_edit fun _ => .resolved node
    refine Does.bind (does_reportAll hevents) (fun _ => (does_removeChildren node branches).bind fun _ => ?_) hrun
    cases (chooseBranch w node branches).1 with
    | none => exact hleave
    | some branch =>
      refine (does_view _).bind fun body => (does_removeChildren branch body).bind fun _ => ?_
      exact (does_spliceAfter rfl node body).bind fun _ => hleave

/-- The variables in scope after an assignment. -/
def assigned (run : Run) (node : Nat) (name value : String) (guarded : Bool) : Scope :=
  if guarded && run.scope.contains name then run.scope
  else run.scope.insert name { value := run.substitute value, origin := some node }

theorem steps_assign {name value : String} {guarded : Bool} (hrun : assign node name value guarded w = .ok () w') :
    Steps home { w with run := { w.run with scope := assigned w.run node name value guarded } } w' := by
  simp only [assign, run_bind, run_view] at hrun
  unfold assigned
  by_cases htaken : (guarded && w.run.scope.contains name) = true
  · rw [if_pos htaken] at hrun ⊢
    exact Does.bind (does_report rfl) (fun _ => does_detach node) hrun
  · rw [if_neg htaken] at hrun ⊢
    -- it makes no difference that the name is bound before the report
    let bound : Workspace := { w with run := w.run.bind name { value := w.run.substitute value, origin := some node } }
    have hrest : (report (.bound name (w.run.substitute value)) >>= fun _ => detach node) bound = .ok () w' := hrun
    exact Does.bind (does_report rfl) (fun _ => does_detach node) hrest

/-- The variables in scope once a node has been visited: those before, and what an assignment binds. -/
def scopeAfter (w : Workspace) (node : Nat) : Scope :=
  match w.doc.kind node with
  | .assignment name value guarded => assigned w.run node name value guarded
  | _ => w.run.scope

/-- The state in which a visit has been logged and counted, and an assignment has bound its name. -/
def begun (w : Workspace) (node : Nat) : Workspace :=
  { counted w node with run := { (counted w node).run with scope := scopeAfter w node } }

/-- All that a visit does from there on. -/
theorem visit_steps (hrun : visit node w = .ok () w') : Steps (w.doc.parent node) (begun w node) w' := by
  rw [visit_run] at hrun
  have hsame (h : scopeAfter w node = w.run.scope) : begun w node = counted w node := by
    rw [begun, h]
    rfl
  cases hkind : w.doc.kind node with
  | rule | declaration =>
    rw [hkind] at hrun
    rw [hsame (by simp [scopeAfter, hkind])]
    exact steps_substituteText hrun
  | inclusion name args =>
    rw [hkind] at hrun
    rw [hsame (by simp [scopeAfter, hkind])]
    exact steps_expand hrun
  | conditional =>
    rw [hkind] at hrun
    rw [hsame (by simp [scopeAfter, hkind])]
    exact steps_decideConditional hrun
  | assignment name value guarded =>
    rw [hkind] at hrun
    have hscope : scopeAfter w node = assigned w.run node name value guarded := by simp [scopeAfter, hkind]
    rw [begun, hscope]
    exact steps_assign hrun
  | _ =>
    rw [hkind] at hrun
    rw [hsame (by simp [scopeAfter, hkind])]
    exact does_pure () hrun

end Pass

end NestedStyles
