import NestedStyles.Walk.Basic
import NestedStyles.Proofs.Walk.Visit

/-!
# The walk as a loop

`Walks` is the loop over the children of a node as a relation, with no bounds: it holds of an outcome when the loop
comes to an end with it. The child list changes under the loop. What carries every proof about it is a cursor: the
children in front of it have been walked and stay, and those behind it are still to be walked. One turn (`Turned`)
visits the first of these and walks what is below it. It then stands in front of the cursor or has left, with a body put
behind the cursor in its place. By induction over the turns, the loop changes nothing but the nodes behind the cursor,
and every error is one of the stylesheet (`Walks.swept`).
-/

namespace NestedStyles

open Document Semantics

namespace Pass

/-- Leaves a node that stood under `home` when the walk came to it. -/
def leave (node : Nat) (home : Option Nat) (scope : Scope) (w : Workspace) : Workspace :=
  let run := { w.run with scope }
  let run := match home with
    | some parent => run.clearInsertionPoint parent
    | none => run
  { w with run := run.clearInsertionPoint node }

/-- Whether a node that stood under `home` no longer does. -/
def hasLeft (w : Workspace) (node : Nat) : Option Nat → Bool
  | some parent => w.doc.parent node ≠ some parent
  | none => false

/-- The loop over the children of a node from a position on ends with an outcome. -/
inductive Walks : Nat → Nat → Workspace → Outcome Unit → Prop
  | done {node index : Nat} {w : Workspace} (hchild : w.doc.childAt? node index = none) : Walks node index w (.ok () w)
  | refused {node index child : Nat} {w w' : Workspace} {e : CompileError}
      (hchild : w.doc.childAt? node index = some child) (hvisit : visit child w = .error e w') :
      Walks node index w (.error e w')
  | stopped {node index child : Nat} {w w₁ w' : Workspace} {e : CompileError}
      (hchild : w.doc.childAt? node index = some child) (hvisit : visit child w = .ok () w₁)
      (hbelow : Walks child 0 w₁ (.error e w')) : Walks node index w (.error e w')
  | next {node index child : Nat} {w w₁ w₂ : Workspace} {outcome : Outcome Unit}
      (hchild : w.doc.childAt? node index = some child) (hvisit : visit child w = .ok () w₁)
      (hbelow : Walks child 0 w₁ (.ok () w₂))
      (hrest : Walks node (if hasLeft w₂ child (w.doc.parent child) then index else index + 1)
        (leave child (w.doc.parent child) w₁.run.scope w₂) outcome) : Walks node index w outcome

/-- The walk of a node and of what is below it ends with an outcome. -/
inductive Evaluates (node : Nat) (w : Workspace) : Outcome Bool → Prop
  | refused {e : CompileError} {w' : Workspace} (hvisit : visit node w = .error e w') : Evaluates node w (.error e w')
  | stopped {e : CompileError} {w₁ w' : Workspace} (hvisit : visit node w = .ok () w₁)
      (hbelow : Walks node 0 w₁ (.error e w')) : Evaluates node w (.error e w')
  | done {w₁ w₂ : Workspace} (hvisit : visit node w = .ok () w₁) (hbelow : Walks node 0 w₁ (.ok () w₂)) :
      Evaluates node w
        (.ok (hasLeft w₂ node (w.doc.parent node)) (leave node (w.doc.parent node) w₁.run.scope w₂))

/-! ### Advancing -/

/-- The state `w'` comes after `w` in an evaluation that works at and below `tops`, in the child list of `site`. -/
structure Advanced (w w' : Workspace) (tops : List Nat) (site : Nat) : Prop where
  wf : w'.doc.WellFormed
  frame : Frame w.doc w'.doc tops (some site)
  setting : w.run.SameSetting w'.run
  le_expansions : w.run.stats.mixinsExpanded ≤ w'.run.stats.mixinsExpanded
  expansions_le : w'.run.stats.mixinsExpanded ≤ max w.run.stats.mixinsExpanded w.run.expansionLimit

variable {w w₁ w₂ w' : Workspace} {tops tops' : List Nat} {site site' : Nat}

theorem Advanced.refl (hwf : w.doc.WellFormed) (tops : List Nat) (site : Nat) : Advanced w w tops site :=
  ⟨hwf, Frame.refl _ _ _, Run.SameSetting.refl _, Nat.le_refl _, by omega⟩

theorem Advanced.trans (hwf : w.doc.WellFormed) (h₁ : Advanced w w₁ tops site) (h₂ : Advanced w₁ w₂ tops' site')
    (htops : ∀ t ∈ tops', ¬ w.doc.Outside tops t) (hsite : site' = site ∨ ¬ w.doc.Outside tops site') :
    Advanced w w₂ tops site where
  wf := h₂.wf
  frame := by
    apply h₁.frame.trans hwf h₂.frame htops
    rintro y hy
    obtain rfl := Option.some.inj hy
    exact hsite.imp (congrArg some ·.symm) id
  setting := h₁.setting.trans h₂.setting
  le_expansions := Nat.le_trans h₁.le_expansions h₂.le_expansions
  expansions_le := by
    have hle₁ := h₁.expansions_le
    have hle₂ := h₂.expansions_le
    rw [h₁.setting.limit] at hle₂
    omega

theorem Advanced.mono (h : Advanced w w' tops site) (htops : ∀ t ∈ tops, t ∈ tops') : Advanced w w' tops' site where
  wf := h.wf
  frame := h.frame.mono (fun _ hx => ⟨hx.1, fun t ht => hx.2 t (htops t ht)⟩) fun _ hy => Or.inl hy
  setting := h.setting
  le_expansions := h.le_expansions
  expansions_le := h.expansions_le

theorem Like.advanced (h : Like w w') (hwf : w.doc.WellFormed) (tops : List Nat) (site : Nat) :
    Advanced w w' tops site where
  wf := h.doc_eq ▸ hwf
  frame := by
    rw [h.doc_eq]
    exact Frame.refl _ _ _
  setting := h.setting
  le_expansions := Nat.le_of_eq h.expansions_eq.symm
  expansions_le := by
    rw [h.expansions_eq]
    omega

/-- Leaving a node touches only the scope and the insertion points. -/
theorem Advanced.leave (h : Advanced w w' tops site) (node : Nat) (home : Option Nat) (scope : Scope) :
    Advanced w (leave node home scope w') tops site := by
  obtain ⟨hwf, hframe, ⟨h₁, h₂, h₃, h₄, h₅⟩, hle, hlimit⟩ := h
  cases home <;> exact ⟨hwf, hframe, ⟨h₁, h₂, h₃, h₄, h₅⟩, hle, hlimit⟩

theorem lookup_leave (node : Nat) (home : Option Nat) (scope : Scope) (w : Workspace) :
    (leave node home scope w).run.lookup = fun name => scope[name]?.map (·.value) := by
  cases home <;> rfl

theorem insertionPoints_leave (node parent : Nat) (scope : Scope) (w : Workspace) (k : Nat) :
    (leave node (some parent) scope w).run.insertionPoints[k]? =
      if k = node ∨ k = parent then none else w.run.insertionPoints[k]? := by
  simp only [Pass.leave, Run.clearInsertionPoint, Std.TreeMap.getElem?_erase, Std.compare_eq_iff_eq]
  by_cases hn : k = node
  · simp [hn]
  · by_cases hp : k = parent
    · simp [hp]
    · simp [hn, hp, Ne.symm hn, Ne.symm hp]

/-! ### One turn of the loop -/

/-- Of the children of `node`, the walk has passed `pre` and `todo` is left. Nothing will be inserted among those that
it has passed. -/
structure Cursor (w : Workspace) (node : Nat) (pre todo : List Nat) : Prop where
  wf : w.doc.WellFormed
  children_eq : w.doc.children node = pre ++ todo
  point : ∀ last, w.run.insertionPoints[node]? = some last → last ∉ pre

theorem Cursor.start (hwf : w.doc.WellFormed) (node : Nat) : Cursor w node [] (w.doc.children node) :=
  ⟨hwf, rfl, by simp⟩

theorem Cursor.childAt?_eq {node : Nat} {pre todo : List Nat} (h : Cursor w node pre todo) :
    w.doc.childAt? node pre.length = todo.head? := childAt?_length h.children_eq

theorem Cursor.parent_eq {node child : Nat} {pre post : List Nat} (h : Cursor w node pre (child :: post)) :
    w.doc.parent child = some node := h.wf.mem_children_iff.1 (by simp [h.children_eq])

/-- The child at the cursor. -/
theorem Cursor.exists_eq_cons {node child : Nat} {pre todo : List Nat} (h : Cursor w node pre todo)
    (hchild : w.doc.childAt? node pre.length = some child) : ∃ post, todo = child :: post := by
  rw [h.childAt?_eq, List.head?_eq_some_iff] at hchild
  exact hchild

/-- A turn of the loop over the children of `node`, with the cursor between `pre` and `child :: post`, has put it
between `passed` and `todo`. -/
structure Turned (node child : Nat) (pre post : List Nat) (w w' : Workspace) (r : Reaction) (passed todo : List Nat) :
    Prop where
  advanced : Advanced w w' (child :: post) node
  children_eq : w'.doc.children node = passed ++ todo
  passed_eq : passed = pre ++ (r.kept.map fun _ => child).toList
  left_eq : hasLeft w' child (some node) = r.kept.isNone
  inside : ∀ t ∈ todo, ¬ w.doc.Outside (child :: post) t
  kind_eq : ∀ kind, r.kept = some kind → w'.doc.kind child = kind
  /-- The body is among the nodes still to be walked, and in front of them unless there was an insertion point. -/
  contents : ∃ m₁ m₂, post = m₁ ++ m₂ ∧ (w.run.insertionPoints[node]? = none → m₁ = []) ∧
    todo.map w'.doc.fragment = m₁.map w.doc.fragment ++ r.body ++ m₂.map w.doc.fragment
  lookup_eq : w'.run.lookup = r.scope
  point_eq : w'.run.insertionPoints[node]? = none
  points_shrink : ∀ k : Nat, w'.run.insertionPoints[k]?.isSome → w.run.insertionPoints[k]?.isSome

section Turn

variable {node child : Nat} {pre post body : List Nat} {r : Reaction}

theorem advanced_of_visited (hwf : w.doc.WellFormed) (h : Visited child node w w' r body)
    (hr : w.env.react w.run.lookup w.run.stats.mixinsExpanded (w.doc.fragment child) = .ok r) (post : List Nat) :
    Advanced w w' (child :: post) node := by
  have hexp := h.expansions
  have hadvanced : Advanced w w' [child] node := by
    refine ⟨h.wf, h.frame hwf, h.setting, ?_, ?_⟩
    · rw [hexp]
      exact Env.react_expansions_le hr
    · rcases Env.react_cases hr with ⟨hr, hlimit⟩ | ⟨hr, _⟩
      · have : w.run.stats.mixinsExpanded < w.run.expansionLimit := hlimit
        omega
      · omega
  exact hadvanced.mono (by simp)

variable (hwf : w.doc.WellFormed) (hparent : w.doc.parent child = some node)
  (hvisited : Visited child node w w₁ r body)

include hwf hparent hvisited in
/-- A visit, and then what the walk does below the visited node. -/
theorem advanced_below
    (hr : w.env.react w.run.lookup w.run.stats.mixinsExpanded (w.doc.fragment child) = .ok r)
    (hbelow : Advanced w₁ w₂ (w₁.doc.children child) child) (post : List Nat) :
    Advanced w w₂ (child :: post) node := by
  refine (advanced_of_visited hwf hvisited hr post).trans hwf hbelow ?_ (Or.inr ?_)
  · intro t ht
    have hp := hwf.mem_children_iff.1 (hvisited.children_subset hwf hparent ht)
    exact not_outside_of_spans List.mem_cons_self (Spans.of_parent hp)
  · exact not_outside_of_mem List.mem_cons_self

include hwf hparent hvisited in
theorem not_spans_home : ¬ w₁.doc.Spans child node := by
  intro hspan
  exact hwf.not_spans_parent hparent ((hvisited.frame hwf).spans_of_spans hwf (hwf.outside_parent hparent) hspan)

omit hparent in
include hwf hvisited in
/-- The walk below the child touches neither the child nor what is not below it. -/
theorem outside_below {x : Nat} (hx : x < w.doc.next) (h : x = child ∨ ¬ w₁.doc.Spans child x) :
    w₁.doc.Outside (w₁.doc.children child) x :=
  hvisited.wf.outside_children (Nat.lt_of_lt_of_le hx (hvisited.frame hwf).next_le) h

include hwf hparent hvisited in
/-- The content of the nodes behind the cursor stays as it is while the walk is below the child. -/
theorem clear_todo {todo : List Nat}
    (hlist : w₁.doc.children node = pre ++ (r.kept.map fun _ => child).toList ++ todo) {t : Nat} (ht : t ∈ todo) :
    w₁.doc.Clear (w₁.doc.children child) (some child) t := by
  have hwf₁ := hvisited.wf
  have hmem : t ∈ w₁.doc.children node := by simp [hlist, ht]
  have hchild := hvisited.parent_eq hwf hparent
  have hne : t ≠ child := by
    rintro rfl
    rw [hwf₁.mem_children_iff, hchild] at hmem
    have hnd := hwf₁.nodup_children node
    rcases hkept : r.kept with _ | kind
    · simp [hkept] at hmem
    · rw [hlist, hkept, List.nodup_append] at hnd
      exact hnd.2.2 t (by simp) t ht rfl
  intro x hx
  have hnot : ¬ w₁.doc.Spans child x := by
    refine hwf₁.not_spans_of_sibling (hwf₁.mem_children_iff.1 hmem) hne ?_ (not_spans_home hwf hparent hvisited) hx
    intro p hp
    rw [hchild] at hp
    obtain ⟨_, _, rfl⟩ := Option.map_eq_some_iff.1 hp
    rfl
  refine ⟨⟨hx.lt_next (hwf₁.child_lt_next hmem), ?_⟩, ?_⟩
  · exact fun s hs hspan => hnot ((Spans.of_parent (hwf₁.mem_children_iff.1 hs)).trans hspan)
  · rintro h
    obtain rfl := Option.some.inj h
    exact hnot (Spans.refl _ _)

omit hwf in
include hvisited in
/-- A visit, and a walk below the visited node, make a turn. -/
theorem Cursor.turned (hcursor : Cursor w node pre (child :: post))
    (hr : w.env.react w.run.lookup w.run.stats.mixinsExpanded (w.doc.fragment child) = .ok r)
    (hbelow : Advanced w₁ w₂ (w₁.doc.children child) child)
    (hshrink : ∀ k : Nat, w₂.run.insertionPoints[k]?.isSome → w₁.run.insertionPoints[k]?.isSome) :
    ∃ passed todo, Turned node child pre post w (leave child (some node) w₁.run.scope w₂) r passed todo := by
  have hparent := hcursor.parent_eq
  obtain ⟨hwf, hlist, hpoint⟩ := hcursor
  have hchild := hwf.mem_children_iff.2 hparent
  -- an old insertion point may put the body behind some of the nodes that are still to come
  obtain ⟨m₁, m₂, hpost, hnil, hlist₁⟩ := hvisited.children_parent hwf hlist hpoint
  have hnode := outside_below hwf hvisited (hwf.parent_lt_next hparent)
    (Or.inr (not_spans_home hwf hparent hvisited))
  have hself := outside_below hwf hvisited (hwf.child_lt_next hchild) (Or.inl rfl)
  have hpost_ne : ∀ t ∈ post, t ≠ child := by
    rintro t ht rfl
    exact (hwf.not_mem_of_children_eq hlist).2 ht
  have hkeep : ∀ t ∈ m₁ ++ body ++ m₂, w₂.doc.fragment t = w₁.doc.fragment t := fun t ht =>
    hbelow.frame.fragment_eq hvisited.wf hbelow.wf (clear_todo hwf hparent hvisited hlist₁ ht)
  have hsibling : ∀ t ∈ post, w₁.doc.fragment t = w.doc.fragment t := fun t ht =>
    hvisited.fragment_sibling hwf (by simp [hlist, ht]) (hpost_ne t ht) hchild
  refine ⟨pre ++ (r.kept.map fun _ => child).toList, m₁ ++ body ++ m₂, ?_, ?_, rfl, ?_, ?_, ?_, ?_, ?_, ?_, ?_⟩
  · exact (advanced_below hwf hparent hvisited hr hbelow post).leave _ _ _
  · rw [← hlist₁]
    exact hbelow.frame.children_eq hnode fun h => hwf.parent_ne hparent (Option.some.inj h)
  · have hp : w₂.doc.parent child = r.kept.map fun _ => node := by
      rw [hbelow.frame.parent_eq hself, hvisited.parent_eq hwf hparent]
    change decide (w₂.doc.parent child ≠ some node) = _
    rw [hp]
    cases r.kept <;> simp
  · intro t ht
    simp only [List.mem_append] at ht
    have hin : t ∈ post → ¬ w.doc.Outside (child :: post) t := fun ht =>
      not_outside_of_mem (List.mem_cons_of_mem _ ht)
    rcases ht with (ht | ht) | ht
    · exact hin (by simp [hpost, ht])
    · exact fun hout => hvisited.body_inside ht ⟨hout.1, by simpa using hout.2 child List.mem_cons_self⟩
    · exact hin (by simp [hpost, ht])
  · intro kind hkept
    rw [← hvisited.kind_eq hkept]
    exact hbelow.frame.kind_eq hself
  · refine ⟨m₁, m₂, hpost, hnil, ?_⟩
    change (m₁ ++ body ++ m₂).map w₂.doc.fragment = _
    rw [List.map_congr_left hkeep, List.map_append, List.map_append, hvisited.body]
    congr 1
    · congr 1
      exact List.map_congr_left fun t ht => hsibling t (by simp [hpost, ht])
    · exact List.map_congr_left fun t ht => hsibling t (by simp [hpost, ht])
  · rw [lookup_leave, ← hvisited.scope]
    rfl
  · rw [insertionPoints_leave, if_pos (Or.inr rfl)]
  · intro k
    rw [insertionPoints_leave]
    split
    · simp
    · next hk =>
      rw [not_or] at hk
      intro h
      rw [← hvisited.points hk.2]
      exact hshrink k h

end Turn

theorem Turned.cursor {node child : Nat} {pre post passed todo : List Nat} {r : Reaction}
    (h : Turned node child pre post w w' r passed todo) : Cursor w' node passed todo :=
  ⟨h.advanced.wf, h.children_eq, by simp [h.point_eq]⟩

/-- The position of the cursor is that at which the loop goes on. -/
theorem Turned.length_passed {node child : Nat} {pre post passed todo : List Nat} {r : Reaction}
    (h : Turned node child pre post w w' r passed todo) :
    (if hasLeft w' child (some node) then pre.length else pre.length + 1) = passed.length := by
  rw [h.left_eq, h.passed_eq]
  cases r.kept <;> simp

/-! ### The whole loop -/

/-- What a loop over the children of `node` has done once it has come to an outcome. -/
def Swept (node : Nat) (todo : List Nat) (w : Workspace) : Outcome Unit → Prop
  | .ok _ w' => Advanced w w' todo node ∧
      ∀ k : Nat, w'.run.insertionPoints[k]?.isSome → w.run.insertionPoints[k]?.isSome
  | .error e w' => Advanced w w' todo node ∧ e.isInternal = false

theorem Walks.swept {node index : Nat} {outcome : Outcome Unit} (h : Walks node index w outcome)
    {pre todo : List Nat} (hcursor : Cursor w node pre todo) (hindex : index = pre.length) :
    Swept node todo w outcome := by
  induction h generalizing pre todo with
  | done hchild => exact ⟨Advanced.refl hcursor.wf _ _, fun _ hk => hk⟩
  | @refused node index child w w' e hchild hvisit =>
    obtain ⟨post, rfl⟩ := hcursor.exists_eq_cons (hindex ▸ hchild)
    have hreacts := visit_reacts hcursor.wf hcursor.parent_eq
    rw [hvisit] at hreacts
    exact ⟨hreacts.2.advanced hcursor.wf _ _, Env.react_error hreacts.1⟩
  | @stopped node index child w w₁ w' e hchild hvisit hbelow ih =>
    obtain ⟨post, rfl⟩ := hcursor.exists_eq_cons (hindex ▸ hchild)
    have hreacts := visit_reacts hcursor.wf hcursor.parent_eq
    rw [hvisit] at hreacts
    obtain ⟨r, body, hr, hvisited⟩ := hreacts
    obtain ⟨hadvanced, hinternal⟩ := ih (Cursor.start hvisited.wf child) rfl
    exact ⟨advanced_below hcursor.wf hcursor.parent_eq hvisited hr hadvanced post, hinternal⟩
  | @next node index child w w₁ w₂ outcome hchild hvisit hbelow hrest ih ihrest =>
    obtain ⟨post, rfl⟩ := hcursor.exists_eq_cons (hindex ▸ hchild)
    have hreacts := visit_reacts hcursor.wf hcursor.parent_eq
    rw [hvisit] at hreacts
    obtain ⟨r, body, hr, hvisited⟩ := hreacts
    obtain ⟨hadvanced, hshrink⟩ := ih (Cursor.start hvisited.wf child) rfl
    obtain ⟨passed, todo, hturned⟩ := hcursor.turned hvisited hr hadvanced hshrink
    rw [hcursor.parent_eq] at ihrest
    have hswept := ihrest hturned.cursor (hindex ▸ hturned.length_passed)
    cases outcome with
    | ok _ w' =>
      refine ⟨hturned.advanced.trans hcursor.wf hswept.1 hturned.inside (Or.inl rfl), ?_⟩
      exact fun k hk => hturned.points_shrink k (hswept.2 k hk)
    | error e w' =>
      exact ⟨hturned.advanced.trans hcursor.wf hswept.1 hturned.inside (Or.inl rfl), hswept.2⟩

/-! ### A whole walk -/

/-- What is done at a node, or below it, and whether it fails only for what the stylesheet says. -/
def Completed (node : Nat) (w : Workspace) {α : Type} : Outcome α → Prop
  | .ok _ w' => ∃ site, Advanced w w' [node] site
  | .error e w' => (∃ site, Advanced w w' [node] site) ∧ e.isInternal = false

/-- A visit, and then what the walk does below the node, wherever the node is. -/
theorem advanced_of_visit {node : Nat} (hwf : w.doc.WellFormed) (hlt : node < w.doc.next)
    (hvisit : visit node w = .ok () w₁) :
    w₁.doc.WellFormed ∧ ∀ {w₂}, Advanced w₁ w₂ (w₁.doc.children node) node →
      Advanced w w₂ [node] ((w.doc.parent node).getD node) := by
  rcases hparent : w.doc.parent node with _ | parent
  · obtain ⟨w', kind, hvisit', hdoc, hexp, hsetting, _⟩ := visit_of_parent_none hwf hlt hparent
    obtain ⟨-, rfl⟩ : () = () ∧ w₁ = w' := by simpa [hvisit] using hvisit'
    have hadvanced : Advanced w w₁ [node] node :=
      ⟨hdoc.wf, hdoc.frame hwf _, hsetting, Nat.le_of_eq hexp.symm, by omega⟩
    refine ⟨hdoc.wf, fun hbelow => hadvanced.trans hwf hbelow ?_ (Or.inl rfl)⟩
    intro t ht
    rw [hdoc.children_eq] at ht
    exact not_outside_of_spans List.mem_cons_self (Spans.of_parent (hwf.mem_children_iff.1 ht))
  · have hreacts := visit_reacts hwf hparent
    rw [hvisit] at hreacts
    obtain ⟨r, body, hr, hvisited⟩ := hreacts
    exact ⟨hvisited.wf, fun hbelow => advanced_below hwf hparent hvisited hr hbelow []⟩

/-- A visit that fails, wherever the node is. -/
theorem like_of_refused {node : Nat} {e : CompileError} (hwf : w.doc.WellFormed) (hlt : node < w.doc.next)
    (hvisit : visit node w = .error e w') : Like w w' ∧ e.isInternal = false := by
  rcases hparent : w.doc.parent node with _ | parent
  · obtain ⟨_, _, hvisit', _⟩ := visit_of_parent_none hwf hlt hparent
    simp [hvisit] at hvisit'
  · have hreacts := visit_reacts hwf hparent
    rw [hvisit] at hreacts
    exact ⟨hreacts.2, Env.react_error hreacts.1⟩

theorem Evaluates.completed {node : Nat} {outcome : Outcome Bool} (h : Evaluates node w outcome)
    (hwf : w.doc.WellFormed) (hlt : node < w.doc.next) : Completed node w outcome := by
  cases h with
  | @refused e w' hvisit =>
    obtain ⟨hlike, hinternal⟩ := like_of_refused hwf hlt hvisit
    exact ⟨⟨node, hlike.advanced hwf _ _⟩, hinternal⟩
  | stopped hvisit hbelow =>
    obtain ⟨hwf₁, hadvanced⟩ := advanced_of_visit hwf hlt hvisit
    have hswept := hbelow.swept (Cursor.start hwf₁ node) rfl
    exact ⟨⟨_, hadvanced hswept.1⟩, hswept.2⟩
  | done hvisit hbelow =>
    obtain ⟨hwf₁, hadvanced⟩ := advanced_of_visit hwf hlt hvisit
    have hswept := hbelow.swept (Cursor.start hwf₁ node) rfl
    exact ⟨_, (hadvanced hswept.1).leave _ _ _⟩

end Pass

end NestedStyles
