import NestedStyles.Proofs.Import.Grafting

/-!
# Expanding imports as a loop

`Sweeps` is the loop over the children of a node that expands the imports among them and below them, with no bound on
its steps, and `Expands` is the expansion of a whole document with it. As in an evaluation there is a cursor in the
child list. The nodes that take the place of an import stand in front of the cursor at once, since the imports in them
are expanded already. So the loop does what `spliceAll` says of the fragments behind the cursor
(`Sweeps.agrees`), and it ends after at most as many turns as there are nodes behind the cursor (`sweeps_sweep`).
-/

namespace NestedStyles.Import

open Document Pass

/-- Counts some more imports. -/
def plus (count : Nat) : Outcome Nat → Outcome Nat
  | .ok n w => .ok (count + n) w
  | .error e w => .error e w

/-- The loop over the children of a node from a position on ends with an outcome, where `expand` says the same of the
expansion of a single import. -/
inductive Sweeps (expand : Nat → Nat → String → Workspace → Outcome (Nat × Nat) → Prop) :
    Nat → Nat → Workspace → Outcome Nat → Prop
  | done {node index : Nat} {w : Workspace} (hchild : w.doc.childAt? node index = none) :
      Sweeps expand node index w (.ok 0 w)
  | refused {node index child : Nat} {href : String} {w w' : Workspace} {e : CompileError}
      (hchild : w.doc.childAt? node index = some child) (hkind : reference? (w.doc.kind child) = some href)
      (hexpand : expand node child href w (.error e w')) : Sweeps expand node index w (.error e w')
  | replaced {node index child nodes count : Nat} {href : String} {w w₁ : Workspace} {outcome : Outcome Nat}
      (hchild : w.doc.childAt? node index = some child) (hkind : reference? (w.doc.kind child) = some href)
      (hexpand : expand node child href w (.ok (nodes, count) w₁))
      (hrest : Sweeps expand node (index + nodes) w₁ outcome) : Sweeps expand node index w (plus count outcome)
  | stopped {node index child : Nat} {w w' : Workspace} {e : CompileError}
      (hchild : w.doc.childAt? node index = some child) (hkind : reference? (w.doc.kind child) = none)
      (hbelow : Sweeps expand child 0 w (.error e w')) : Sweeps expand node index w (.error e w')
  | passed {node index child count : Nat} {w w₁ : Workspace} {outcome : Outcome Nat}
      (hchild : w.doc.childAt? node index = some child) (hkind : reference? (w.doc.kind child) = none)
      (hbelow : Sweeps expand child 0 w (.ok count w₁)) (hrest : Sweeps expand node (index + 1) w₁ outcome) :
      Sweeps expand node index w (plus count outcome)

/-- The expansion of a single import ends with an outcome, where `nested` says the same of the expansion of a whole
document while the given sources are under way. -/
inductive Replaces (library : Library) (underway : List String) (nested : List String → Workspace → Outcome Nat → Prop)
    (parent node : Nat) (href : String) (w : Workspace) : Outcome (Nat × Nat) → Prop
  | unavailable {e : CompileError} {w' : Workspace} (hfetch : fetch library underway href w = .error e w') :
      Replaces library underway nested parent node href w (.error e w')
  | stopped {source : Source} {doc : Document} {e : CompileError} {w₁ w₂ : Workspace}
      (hfetch : fetch library underway href w = .ok (source, doc) w₁)
      (hnested : nested (source.uri :: underway) { w₁ with doc } (.error e w₂)) :
      Replaces library underway nested parent node href w (.error e { w₂ with doc := w₁.doc })
  | misplaced {source : Source} {doc : Document} {count : Nat} {e : CompileError} {w₁ w₂ w' : Workspace}
      (hfetch : fetch library underway href w = .ok (source, doc) w₁)
      (hnested : nested (source.uri :: underway) { w₁ with doc } (.ok count w₂))
      (hreplace : replace parent node w₂.doc { w₂ with doc := w₁.doc } = .error e w') :
      Replaces library underway nested parent node href w (.error e w')
  | done {source : Source} {doc : Document} {count nodes : Nat} {w₁ w₂ w' : Workspace}
      (hfetch : fetch library underway href w = .ok (source, doc) w₁)
      (hnested : nested (source.uri :: underway) { w₁ with doc } (.ok count w₂))
      (hreplace : replace parent node w₂.doc { w₂ with doc := w₁.doc } = .ok nodes w') :
      Replaces library underway nested parent node href w (.ok (nodes, count + 1) w')

/-- The expansion of the imports of a document, which nest at most `levels` deep, ends with an outcome. -/
def Expands (library : Library) : (levels : Nat) → (underway : List String) → Workspace → Outcome Nat → Prop
  | 0, _ =>
    Sweeps (fun _ _ href w outcome => outcome = .error (.importDepth href library.maxDepth) w) root 0
  | levels + 1, underway =>
    Sweeps (Replaces library underway (Expands library levels)) root 0

/-! ### One turn of the loop -/

/-- In the child list of `node`, between `pre` and `post`, the nodes in `first` with the content `fs` have taken the
place of `child`, which may be among them. -/
structure Placed (w w' : Workspace) (node child : Nat) (pre first post : List Nat) (fs : List Fragment) : Prop where
  wf : w'.doc.WellFormed
  run_eq : w'.run = w.run
  frame : Frame w.doc w'.doc [child] (some node)
  children_eq : w'.doc.children node = pre ++ first ++ post
  fragments : first.map w'.doc.fragment = fs

/-- The outcome of a loop is the expected one. The nodes behind the cursor, `todo`, have been replaced by others with
the expected content. -/
def Agrees (node : Nat) (pre todo : List Nat) (w : Workspace) (expected : Expansion) : Outcome Nat → Prop
  | .ok n w' => ∃ fs new, expected = .ok (fs, n) ∧ w'.doc.WellFormed ∧ w'.run = w.run ∧
      Frame w.doc w'.doc todo (some node) ∧ w'.doc.children node = pre ++ new ∧ new.map w'.doc.fragment = fs
  | .error e w' => expected = .error e ∧ w'.doc.WellFormed ∧ w'.run = w.run

variable {w w₁ w' : Workspace} {node child : Nat} {pre first post : List Nat} {fs : List Fragment}

/-- The content of the nodes that are still to come is not touched by a turn. -/
theorem Placed.fragments_post (h : Placed w w₁ node child pre first post fs) (hwf : w.doc.WellFormed)
    (hlist : w.doc.children node = pre ++ child :: post) :
    post.map w₁.doc.fragment = post.map w.doc.fragment := by
  apply List.map_congr_left
  intro t ht
  apply h.frame.fragment_eq hwf h.wf
  apply hwf.clear_of_sibling (by simp [hlist, ht])
  intro s hs
  rw [List.mem_singleton.1 hs]
  refine ⟨by simp [hlist], ?_⟩
  rintro rfl
  exact (hwf.not_mem_of_children_eq hlist).2 ht

theorem Placed.directory?_eq (h : Placed w w₁ node child pre first post fs) (hwf : w.doc.WellFormed)
    (hlist : w.doc.children node = pre ++ child :: post) : w₁.doc.directory? = w.doc.directory? := by
  have hparent : w.doc.parent child = some node := hwf.mem_children_iff.1 (by simp [hlist])
  have hout : w.doc.Outside [child] root :=
    outside_singleton.2 ⟨hwf.root_lt_next, hwf.not_spans_root (hwf.ne_root_of_parent hparent)⟩
  unfold directory?
  rw [h.frame.kind_eq hout]

/-- A turn, and then the rest of the loop. -/
theorem Placed.agrees (h : Placed w w₁ node child pre first post fs) (hwf : w.doc.WellFormed) (count : Nat)
    {expected : Expansion} {outcome : Outcome Nat} (hrest : Agrees node (pre ++ first) post w₁ expected outcome) :
    Agrees node pre (child :: post) w (prepend fs count expected) (plus count outcome) := by
  cases outcome with
  | error e w' =>
    obtain ⟨rfl, hwf', hrun⟩ := hrest
    exact ⟨rfl, hwf', hrun.trans h.run_eq⟩
  | ok n w' =>
    obtain ⟨rest, new, rfl, hwf', hrun, hframe, hlist', hfragments⟩ := hrest
    have hnd := h.wf.nodup_children node
    rw [h.children_eq, List.nodup_append] at hnd
    have hkept : first.map w'.doc.fragment = fs := by
      rw [← h.fragments]
      apply List.map_congr_left
      intro c hc
      apply hframe.fragment_eq h.wf hwf'
      apply h.wf.clear_of_sibling (by simp [h.children_eq, hc])
      exact fun t ht => ⟨by simp [h.children_eq, ht], fun heq => hnd.2.2 c (by simp [hc]) t ht heq.symm⟩
    refine ⟨fs ++ rest, first ++ new, rfl, hwf', hrun.trans h.run_eq, ?_, ?_, ?_⟩
    · have hmono : Frame w.doc w₁.doc (child :: post) (some node) :=
        h.frame.mono (fun x hx => ⟨hx.1, by simpa using hx.2 child List.mem_cons_self⟩) fun _ hy => Or.inl hy
      refine hmono.trans hwf hframe ?_ fun _ hy => Or.inl hy
      exact fun t ht => not_outside_of_mem (List.mem_cons_of_mem _ ht)
    · rw [hlist', List.append_assoc]
    · rw [List.map_append, hkept, hfragments]

/-- A node that is no import stays, with the imports below it expanded. -/
theorem Agrees.placed {count : Nat} {expected : Expansion} (hwf : w.doc.WellFormed)
    (hlist : w.doc.children node = pre ++ child :: post)
    (h : Agrees child [] (w.doc.children child) w expected (.ok count w₁)) :
    ∃ below, expected = .ok (below, count) ∧
      Placed w w₁ node child pre [child] post [⟨w.doc.kind child, below⟩] := by
  obtain ⟨below, new, rfl, hwf₁, hrun, hframe, hnew, hfragments⟩ := h
  have hparent : w.doc.parent child = some node := hwf.mem_children_iff.1 (by simp [hlist])
  have hbelow : ∀ {x}, ¬ w.doc.Spans child x ∨ x = child → x < w.doc.next → w.doc.Outside (w.doc.children child) x := by
    intro x hx hlt
    refine ⟨hlt, ?_⟩
    intro t ht hspan
    have hp := hwf.mem_children_iff.1 ht
    rcases hx with hx | rfl
    · exact hx ((Spans.of_parent hp).trans hspan)
    · exact hwf.not_spans_parent hp hspan
  refine ⟨below, rfl, hwf₁, hrun, ?_, ?_, ?_⟩
  · refine hframe.mono (fun x hx => hbelow (Or.inl (by simpa using hx.2)) hx.1) ?_
    intro y hy
    obtain rfl := Option.some.inj hy
    exact Or.inr (not_outside_of_mem List.mem_cons_self)
  · rw [hframe.children_eq (hbelow (Or.inl (hwf.not_spans_parent hparent)) (hwf.parent_lt_next hparent)), hlist]
    · simp
    · exact fun h => hwf.parent_ne hparent (Option.some.inj h)
  · have hkind := hframe.kind_eq (hbelow (Or.inr rfl) (lt_next_of_parent hparent))
    rw [List.map_singleton, hwf₁.fragment_eq, hkind, hnew, List.nil_append, hfragments]

/-! ### The whole loop -/

/-- The outcomes of the expansion of a single import are those that `content` says, in a document of the given
directory. -/
def Sound (expand : Nat → Nat → String → Workspace → Outcome (Nat × Nat) → Prop) (content : String → Expansion)
    (directory : Option String) : Prop :=
  ∀ ⦃w node child href pre post outcome⦄, w.doc.WellFormed → w.doc.directory? = directory →
    w.doc.children node = pre ++ child :: post → expand node child href w outcome →
    match outcome with
    | .ok (nodes, count) w' => ∃ fs first, content href = .ok (fs, count) ∧ first.length = nodes ∧
        Placed w w' node child pre first post fs
    | .error e w' => content href = .error e ∧ w'.doc.WellFormed ∧ w'.run = w.run

/-- The expansion of a single import exchanges it for nodes with the content that `content` says, or leaves the document
as it is. -/
def Exact (expand : Nat → Nat → String → Workspace → Outcome (Nat × Nat) → Prop) (content : String → Expansion)
    (directory : Option String) : Prop :=
  ∀ ⦃w node child href pre post outcome⦄, w.doc.WellFormed → w.doc.directory? = directory →
    w.doc.children node = pre ++ child :: post → expand node child href w outcome →
    match outcome with
    | .ok (nodes, count) w' => ∃ copies, content href = .ok (copies.map w'.doc.fragment, count) ∧
        copies.length = nodes ∧ Exchanged w.doc w'.doc [child] (fun _ => copies) ∧ w'.run = w.run
    | .error e w' => content href = .error e ∧ w'.doc = w.doc ∧ w'.run = w.run

variable {expand : Nat → Nat → String → Workspace → Outcome (Nat × Nat) → Prop} {content : String → Expansion}
  {directory : Option String} {todo : List Nat}

theorem Exact.sound (h : Exact expand content directory) : Sound expand content directory := by
  intro w node child href pre post outcome hwf hdirectory hlist hexpand
  have hexact := h hwf hdirectory hlist hexpand
  cases outcome with
  | error e w' =>
    obtain ⟨hcontent, hdoc, hrun⟩ := hexact
    exact ⟨hcontent, by rw [hdoc]; exact hwf, hrun⟩
  | ok found w' =>
    obtain ⟨nodes, count⟩ := found
    obtain ⟨copies, hcontent, hlength, hexchanged, hrun⟩ := hexact
    have hparent : w.doc.parent child = some node := hwf.mem_children_iff.1 (by simp [hlist])
    exact ⟨_, copies, hcontent, hlength, hexchanged.wf, hrun, hexchanged.frame hwf hparent,
      hexchanged.children_eq_append hwf hlist, rfl⟩

theorem Sweeps.agrees {index : Nat} {outcome : Outcome Nat} (h : Sweeps expand node index w outcome)
    (hsound : Sound expand content directory) (hwf : w.doc.WellFormed) (hdirectory : w.doc.directory? = directory)
    (hlist : w.doc.children node = pre ++ todo) (hindex : index = pre.length) :
    Agrees node pre todo w (spliceAll content (todo.map w.doc.fragment)) outcome := by
  induction h generalizing pre todo with
  | done hchild =>
    rw [hindex, childAt?_length hlist, List.head?_eq_none_iff] at hchild
    subst hchild
    exact ⟨[], [], rfl, hwf, rfl, Frame.refl _ _ _, hlist, rfl⟩
  | @refused node index child href w w' e hchild hkind hexpand =>
    rw [hindex, childAt?_length hlist, List.head?_eq_some_iff] at hchild
    obtain ⟨post, rfl⟩ := hchild
    obtain ⟨hcontent, hwf', hrun⟩ := hsound hwf hdirectory hlist hexpand
    refine ⟨?_, hwf', hrun⟩
    rw [List.map_cons, hwf.fragment_eq child, spliceAll, splice, hkind]
    simp only [hcontent]
  | @replaced node index child nodes count href w w₁ outcome hchild hkind hexpand hrest ih =>
    rw [hindex, childAt?_length hlist, List.head?_eq_some_iff] at hchild
    obtain ⟨post, rfl⟩ := hchild
    obtain ⟨fs, first, hcontent, hlength, hplaced⟩ := hsound hwf hdirectory hlist hexpand
    -- the cursor jumps over all that has taken the place of the import
    have hagrees := ih hplaced.wf ((hplaced.directory?_eq hwf hlist).trans hdirectory) hplaced.children_eq
      (by rw [hindex, List.length_append, hlength])
    rw [hplaced.fragments_post hwf hlist] at hagrees
    rw [List.map_cons, hwf.fragment_eq child, spliceAll, splice, hkind]
    simp only [hcontent]
    exact hplaced.agrees hwf count hagrees
  | @stopped node index child w w' e hchild hkind hbelow ih =>
    rw [hindex, childAt?_length hlist, List.head?_eq_some_iff] at hchild
    obtain ⟨post, rfl⟩ := hchild
    obtain ⟨hcontent, hwf', hrun⟩ := ih hwf hdirectory (List.nil_append _).symm rfl
    refine ⟨?_, hwf', hrun⟩
    rw [List.map_cons, hwf.fragment_eq child, spliceAll, splice, hkind]
    simp only [hcontent]
  | @passed node index child count w w₁ outcome hchild hkind hbelow hrest ih ihrest =>
    rw [hindex, childAt?_length hlist, List.head?_eq_some_iff] at hchild
    obtain ⟨post, rfl⟩ := hchild
    obtain ⟨below, hcontent, hplaced⟩ := (ih hwf hdirectory (List.nil_append _).symm rfl).placed hwf hlist
    have hagrees := ihrest hplaced.wf ((hplaced.directory?_eq hwf hlist).trans hdirectory) hplaced.children_eq
      (by rw [hindex, List.length_append, List.length_singleton])
    rw [hplaced.fragments_post hwf hlist] at hagrees
    rw [List.map_cons, hwf.fragment_eq child, spliceAll, splice, hkind]
    simp only [hcontent]
    exact hplaced.agrees hwf count hagrees

/-! ### Enough steps -/

/-- With more steps than there are nodes behind the cursor, the loop does what it does without a bound. -/
theorem sweeps_sweep {perform : Nat → Nat → String → Pass (Nat × Nat)} (hsound : Sound expand content directory)
    (hperform : ∀ {w node child href pre post}, w.doc.WellFormed → w.doc.directory? = directory →
      w.doc.children node = pre ++ child :: post → expand node child href w (perform node child href w))
    {steps index : Nat} (hwf : w.doc.WellFormed) (hdirectory : w.doc.directory? = directory)
    (hlist : w.doc.children node = pre ++ todo) (hindex : index = pre.length)
    (hsteps : Fragment.sizeAll (todo.map w.doc.fragment) < steps) :
    Sweeps expand node index w (sweep perform steps node index w) := by
  induction steps generalizing w node index pre todo with
  | zero => omega
  | succ steps ih =>
    have hhead := childAt?_length hlist
    rw [← hindex] at hhead
    rw [sweep]
    simp only [run_bind, run_view]
    cases todo with
    | nil =>
      have hnone : w.doc.childAt? node index = none := hhead
      simp only [hnone, run_pure]
      exact Sweeps.done hnone
    | cons child post =>
      have hchild : w.doc.childAt? node index = some child := hhead
      have hsize := (w.doc.fragment child).size_pos
      rw [List.map_cons, Fragment.sizeAll_cons] at hsteps
      simp only [hchild, run_bind, run_view]
      cases hkind : reference? (w.doc.kind child) with
      | some href =>
        have hexpand : expand node child href w (perform node child href w) := hperform hwf hdirectory hlist
        simp only [run_bind]
        generalize perform node child href w = result at hexpand ⊢
        cases result with
        | error e w' => exact Sweeps.refused hchild hkind hexpand
        | ok found w₁ =>
          obtain ⟨nodes, count⟩ := found
          obtain ⟨fs, first, -, hlength, hplaced⟩ := hsound hwf hdirectory hlist hexpand
          -- what has taken the place of the import is in front of the cursor, and so does not count
          have hrest : Sweeps expand node (index + nodes) w₁ (sweep perform steps node (index + nodes) w₁) :=
            ih hplaced.wf ((hplaced.directory?_eq hwf hlist).trans hdirectory) hplaced.children_eq
              (by rw [hindex, List.length_append, hlength]) (by rw [hplaced.fragments_post hwf hlist]; omega)
          simp only
          generalize sweep perform steps node (index + nodes) w₁ = outcome at hrest ⊢
          cases outcome <;> exact Sweeps.replaced hchild hkind hexpand hrest
      | none =>
        have hless : Fragment.sizeAll ((w.doc.children child).map w.doc.fragment) < steps := by
          rw [hwf.fragment_eq child, Fragment.size_eq] at hsteps
          simp only at hsteps
          omega
        have hbelow : Sweeps expand child 0 w (sweep perform steps child 0 w) :=
          ih hwf hdirectory (List.nil_append _).symm rfl hless
        have hagrees := hbelow.agrees hsound hwf hdirectory (List.nil_append _).symm rfl
        simp only [run_bind]
        generalize sweep perform steps child 0 w = result at hbelow hagrees ⊢
        cases result with
        | error e w' => exact Sweeps.stopped hchild hkind hbelow
        | ok count w₁ =>
          obtain ⟨below, -, hplaced⟩ := hagrees.placed hwf hlist
          have hrest : Sweeps expand node (index + 1) w₁ (sweep perform steps node (index + 1) w₁) :=
            ih hplaced.wf ((hplaced.directory?_eq hwf hlist).trans hdirectory) hplaced.children_eq
              (by rw [hindex, List.length_append, List.length_singleton])
              (by rw [hplaced.fragments_post hwf hlist]; omega)
          simp only
          generalize sweep perform steps node (index + 1) w₁ = outcome at hrest ⊢
          cases outcome <;> exact Sweeps.passed hchild hkind hbelow hrest

end NestedStyles.Import
