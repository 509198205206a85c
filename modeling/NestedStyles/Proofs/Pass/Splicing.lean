import NestedStyles.Walk.Visit
import NestedStyles.Proofs.Document.Editing
import NestedStyles.Proofs.Document.Instantiation

/-!
# Running passes

What a pass comes to is an `Outcome`, and the pass is run by simplifying with the lemmas below. Insertions of a chain of
nodes succeed when the nodes are detached and not above their new parent (`Insertable`), and then nothing differs but
the child list of the parent (`insertChain_run`). Copies of nodes are new detached nodes with the same content, up to
the substitution (`copyAll_run`).
-/

namespace NestedStyles

/-- What a pass comes to. -/
abbrev Outcome (α : Type) := EStateM.Result CompileError Workspace α

namespace Outcome

variable {α β : Type}

/-- The state at the end, be it with a result or with an error. -/
def state : Outcome α → Workspace
  | .ok _ w => w
  | .error _ w => w

/-- The result, or the error if there is none. -/
def result : Outcome α → Except CompileError α
  | .ok a _ => .ok a
  | .error e _ => .error e

/-- What is read off the state at the end of a success. -/
def read? (f : Workspace → β) : Outcome α → Option β
  | .ok _ w => some (f w)
  | .error _ _ => none

theorem exists_of_result_eq_ok {outcome : Outcome α} {a : α} (h : result outcome = .ok a) :
    ∃ w, outcome = .ok a w := by
  cases outcome with
  | ok a' w =>
    obtain rfl := Except.ok.inj h
    exact ⟨w, rfl⟩
  | error e w => simp [result] at h

theorem exists_of_result_eq_error {outcome : Outcome α} {e : CompileError} (h : result outcome = .error e) :
    ∃ w, outcome = .error e w := by
  cases outcome with
  | ok a w => simp [result] at h
  | error e' w =>
    obtain rfl := Except.error.inj h
    exact ⟨w, rfl⟩

theorem exists_of_read?_eq_some {outcome : Outcome α} {f : Workspace → β} {b : β} (h : read? f outcome = some b) :
    ∃ a w, outcome = .ok a w ∧ f w = b := by
  cases outcome with
  | ok a w => exact ⟨a, w, rfl, Option.some.inj h⟩
  | error e w => simp [read?] at h

end Outcome

namespace Pass

variable {α β : Type}

/-! ### Single steps -/

@[simp]
theorem run_bind (x : Pass α) (f : α → Pass β) (w : Workspace) :
    (x >>= f) w = match x w with
      | .ok a w' => f a w'
      | .error e w' => .error e w' := by
  simp only [bind, EStateM.bind]
  cases x w <;> rfl

/-- A sequence of passes that succeeds does so in each of them. -/
theorem exists_of_bind_eq_ok {x : Pass α} {f : α → Pass β} {w w' : Workspace} {b : β}
    (h : (x >>= f) w = .ok b w') : ∃ a w₁, x w = .ok a w₁ ∧ f a w₁ = .ok b w' := by
  rw [run_bind] at h
  cases hfirst : x w with
  | ok a w₁ =>
    rw [hfirst] at h
    exact ⟨a, w₁, rfl, h⟩
  | error e w₁ => simp [hfirst] at h

@[simp]
theorem run_pure (a : α) (w : Workspace) : (pure a : Pass α) w = .ok a w := rfl

@[simp]
theorem run_view (f : Workspace → α) (w : Workspace) : view f w = .ok (f w) w := rfl

@[simp]
theorem run_edit (f : Workspace → Workspace) (w : Workspace) : edit f w = .ok () (f w) := rfl

@[simp]
theorem run_fail (e : CompileError) (w : Workspace) : (fail e : Pass α) w = .error e w := rfl

@[simp]
theorem run_report (event : Event) (w : Workspace) : report event w = .ok () { w with log := event :: w.log } := rfl

@[simp]
theorem run_reportAll (events : List Event) (w : Workspace) :
    reportAll events w = .ok () { w with log := events.reverse ++ w.log } := rfl

@[simp]
theorem run_editDocument (f : Document → Document) (w : Workspace) :
    editDocument f w = .ok () { w with doc := f w.doc } := rfl

@[simp]
theorem run_editRun (f : Run → Run) (w : Workspace) : editRun f w = .ok () { w with run := f w.run } := rfl

@[simp]
theorem run_editStats (f : Stats → Stats) (w : Workspace) :
    editStats f w = .ok () { w with run := { w.run with stats := f w.run.stats } } := rfl

@[simp]
theorem run_makeNode (f : Document → Document × Nat) (w : Workspace) :
    makeNode f w = .ok (f w.doc).2 { w with doc := (f w.doc).1 } := rfl

@[simp]
theorem run_removeChild (parent node : Nat) (w : Workspace) :
    removeChild parent node w = .ok () { w with doc := (w.doc.removeChild parent node).1 } := rfl

@[simp]
theorem run_detach (node : Nat) (w : Workspace) : detach node w = .ok () { w with doc := (w.doc.detach node).1 } := rfl

end Pass

namespace Document

variable {doc doc' : Document}

theorem childAt?_length {node : Nat} {pre todo : List Nat} (hlist : doc.children node = pre ++ todo) :
    doc.childAt? node pre.length = todo.head? := by
  rw [childAt?_eq, hlist, List.getElem?_append_right (Nat.le_refl _), Nat.sub_self, List.head?_eq_getElem?]

/-! ### Another child list -/

/-- The documents differ only in the child list of `parent`, and in who its members' parent is. -/
structure Relisted (doc doc' : Document) (parent : Nat) (list : List Nat) : Prop where
  wf : doc'.WellFormed
  next_eq : doc'.next = doc.next
  kind_eq : ∀ x, doc'.kind x = doc.kind x
  children_eq : ∀ x, doc'.children x = if x = parent then list else doc.children x

theorem WellFormed.relisted_self (hwf : doc.WellFormed) {parent : Nat} {list : List Nat}
    (h : doc.children parent = list) : Relisted doc doc parent list := by
  refine ⟨hwf, rfl, fun _ => rfl, ?_⟩
  intro x
  split
  · next hx => rw [hx, h]
  · rfl

theorem Relisted.frame {parent : Nat} {list tops : List Nat} (h : Relisted doc doc' parent list)
    (hwf : doc.WellFormed) (hlist : ∀ x, doc.Outside tops x → (x ∈ list ↔ x ∈ doc.children parent)) :
    Frame doc doc' tops (some parent) where
  next_le := Nat.le_of_eq h.next_eq.symm
  kind_eq _ := h.kind_eq _
  parent_eq := by
    intro x hx
    apply hwf.parent_congr h.wf
    intro p
    rw [h.children_eq]
    split
    · next hp => rw [hp]; exact hlist x hx
    · rfl
  children_eq := by
    intro x _ hne
    rw [h.children_eq, if_neg]
    rintro rfl
    exact hne rfl

/-- What does not span the parent keeps its content. -/
theorem Relisted.fragment_eq {parent id : Nat} {list : List Nat} (h : Relisted doc doc' parent list)
    (hwf : doc.WellFormed) (hnot : ¬ doc.Spans id parent) : doc'.fragment id = doc.fragment id := by
  apply hwf.fragment_congr h.wf
  intro x hx
  refine ⟨h.kind_eq x, ?_⟩
  rw [h.children_eq, if_neg]
  rintro rfl
  exact hnot hx

theorem WellFormed.relisted_removeChild (hwf : doc.WellFormed) (parent node : Nat) :
    Relisted doc (doc.removeChild parent node).1 parent ((doc.children parent).erase node) where
  wf := hwf.removeChild parent node
  next_eq := next_removeChild ..
  kind_eq := kind_removeChild doc parent node
  children_eq x := by
    rw [children_removeChild]
    by_cases hx : x = parent
    · rw [if_pos hx, if_pos hx.symm, hx]
    · rw [if_neg hx, if_neg (Ne.symm hx)]

theorem WellFormed.relisted_place (hwf : doc.WellFormed) {parent index node : Nat} (hlt : node < doc.next)
    (hplt : parent < doc.next) (hok : doc.refusal? parent index node = none) :
    Relisted doc (doc.place parent index node) parent ((doc.children parent).insertIdx index node) where
  wf := hwf.place hlt hplt hok
  next_eq := next_place ..
  kind_eq := kind_place doc parent index node
  children_eq := WellFormed.children_place_eq hplt

/-! ### Another kind -/

variable {node : Nat} {kind : Kind}

/-- The documents differ only in the kind of `node`. -/
structure Retyped (doc doc' : Document) (node : Nat) (kind : Kind) : Prop where
  wf : doc'.WellFormed
  next_eq : doc'.next = doc.next
  kind_eq : ∀ x, doc'.kind x = if x = node then kind else doc.kind x
  children_eq : ∀ x, doc'.children x = doc.children x

theorem Retyped.refl (hwf : doc.WellFormed) (node : Nat) : Retyped doc doc node (doc.kind node) where
  wf := hwf
  next_eq := rfl
  kind_eq x := by
    split
    · next hx => rw [hx]
    · rfl
  children_eq _ := rfl

theorem WellFormed.retyped_setKind (hwf : doc.WellFormed) (hlt : node < doc.next) (kind : Kind) :
    Retyped doc (doc.setKind node kind) node kind where
  wf := hwf.setKind node kind
  next_eq := next_setKind ..
  kind_eq x := by
    rw [kind_setKind]
    by_cases hx : x = node
    · rw [if_pos hx, if_pos ⟨hx.symm, hx ▸ hlt⟩]
    · rw [if_neg hx, if_neg (fun h => hx h.1.symm)]
  children_eq := children_setKind doc node kind

theorem Retyped.frame (h : Retyped doc doc' node kind) (hwf : doc.WellFormed) (site : Option Nat) :
    Frame doc doc' [node] site where
  next_le := Nat.le_of_eq h.next_eq.symm
  kind_eq := by
    intro x hx
    rw [h.kind_eq, if_neg]
    rintro rfl
    exact not_outside_of_mem (List.mem_singleton_self x) hx
  parent_eq := by
    intro x _
    apply hwf.parent_congr h.wf
    intro p
    rw [h.children_eq]
  children_eq _ _ := h.children_eq _

theorem Retyped.fragment_eq (h : Retyped doc doc' node kind) (hwf : doc.WellFormed) {id : Nat}
    (hspan : ¬ doc.Spans id node) : doc'.fragment id = doc.fragment id := by
  apply hwf.fragment_congr h.wf
  intro x hx
  refine ⟨?_, h.children_eq x⟩
  rw [h.kind_eq, if_neg]
  rintro rfl
  exact hspan hx

/-- A kept node has the children that it had, with the same content. -/
theorem Retyped.fragments_below (h : Retyped doc doc' node kind) (hwf : doc.WellFormed) :
    (doc'.children node).map doc'.fragment = (doc.children node).map doc.fragment := by
  rw [h.children_eq]
  apply List.map_congr_left
  intro c hc
  exact h.fragment_eq hwf (hwf.not_spans_parent (hwf.mem_children_iff.1 hc))

/-! ### Chains of insertions -/

/-- Nodes that can become children of `parent` one after the other. -/
structure Insertable (doc : Document) (parent : Nat) (nodes : List Nat) : Prop where
  nodup : nodes.Nodup
  lt_next : ∀ n ∈ nodes, n < doc.next
  ne_root : ∀ n ∈ nodes, n ≠ root
  detached : ∀ n ∈ nodes, doc.parent n = none
  not_above : ∀ n ∈ nodes, ¬ doc.Spans n parent

/-- The rest of the nodes can still be inserted once the first one has been. -/
theorem Insertable.tail {parent node : Nat} {nodes list : List Nat} (h : Insertable doc parent (node :: nodes))
    (hplt : parent < doc.next) (hwf : doc.WellFormed) (hdoc : Relisted doc doc' parent list)
    (hlist : ∀ x, x ≠ node → (x ∈ list ↔ x ∈ doc.children parent)) : Insertable doc' parent nodes := by
  obtain ⟨hnot, hnodup⟩ := List.nodup_cons.1 h.nodup
  have hframe : Frame doc doc' [node] (some parent) := by
    apply hdoc.frame hwf
    intro x hx
    apply hlist
    rintro rfl
    exact not_outside_of_mem (List.mem_singleton_self x) hx
  refine ⟨hnodup, ?_, ?_, ?_, ?_⟩
  · intro n hn
    rw [hdoc.next_eq]
    exact h.lt_next n (by simp [hn])
  · exact fun n hn => h.ne_root n (by simp [hn])
  · intro n hn
    have hne : n ≠ node := by
      rintro rfl
      exact hnot hn
    rw [← h.detached n (by simp [hn])]
    apply hwf.parent_congr hdoc.wf
    intro p
    rw [hdoc.children_eq]
    split
    · next hp => rw [hp]; exact hlist n hne
    · rfl
  · intro n hn hspan
    have hout : doc.Outside [node] parent := outside_singleton.2 ⟨hplt, h.not_above node (by simp)⟩
    exact h.not_above n (by simp [hn]) (hframe.spans_of_spans hwf hout hspan)

end Document

open Document

theorem insertIdx_length_append (l₁ l₂ : List Nat) (node : Nat) :
    (l₁ ++ l₂).insertIdx l₁.length node = l₁ ++ node :: l₂ := by
  induction l₁ with
  | nil => rfl
  | cons x l₁ ih => exact congrArg (List.cons x) ih

theorem idxOf?_append_cons {l₁ l₂ : List Nat} {anchor : Nat} (h : anchor ∉ l₁) :
    (l₁ ++ anchor :: l₂).idxOf? anchor = some l₁.length := by
  induction l₁ with
  | nil => simp [List.idxOf?_cons]
  | cons x l₁ ih =>
    simp only [List.mem_cons, not_or] at h
    rw [List.cons_append, List.idxOf?_cons, ih h.2]
    simp [Ne.symm h.1]

namespace Pass

variable {w : Workspace}

/-- A chain of insertable nodes goes in right after its anchor. -/
theorem insertChain_run (hwf : w.doc.WellFormed) {parent anchor : Nat} {nodes l₁ l₂ : List Nat}
    (hlist : w.doc.children parent = l₁ ++ anchor :: l₂) (hnodes : w.doc.Insertable parent nodes) :
    ∃ doc', insertChain parent anchor nodes w = .ok () { w with doc := doc' } ∧
      Relisted w.doc doc' parent (l₁ ++ anchor :: (nodes ++ l₂)) := by
  induction nodes generalizing w anchor l₁ with
  | nil => exact ⟨w.doc, rfl, hwf.relisted_self hlist⟩
  | cons node nodes ih =>
    have hanchor : anchor ∉ l₁ := (hwf.not_mem_of_children_eq hlist).1
    have hplt : parent < w.doc.next := lt_next_of_mem_children (show anchor ∈ _ by simp [hlist])
    have hok : w.doc.refusal? parent (l₁.length + 1) node = none := by
      refine hwf.refusal?_eq_none_iff.2
        ⟨hnodes.ne_root node (by simp), hnodes.detached node (by simp), hnodes.not_above node (by simp), ?_⟩
      rw [hlist]
      simp
    have hplaced := hwf.relisted_place (hnodes.lt_next node (by simp)) hplt hok
    have hinserted : (l₁ ++ anchor :: l₂).insertIdx (l₁.length + 1) node = (l₁ ++ [anchor]) ++ node :: l₂ := by
      simpa using insertIdx_length_append (l₁ ++ [anchor]) l₂ node
    rw [hlist, hinserted] at hplaced
    have hlist' : (w.doc.place parent (l₁.length + 1) node).children parent = (l₁ ++ [anchor]) ++ node :: l₂ := by
      rw [hplaced.children_eq, if_pos rfl]
    have hrest : (w.doc.place parent (l₁.length + 1) node).Insertable parent nodes := by
      apply hnodes.tail hplt hwf hplaced
      intro x hx
      rw [hlist]
      simp [hx]
    obtain ⟨doc', hrun, hdoc'⟩ :=
      ih (w := { w with doc := w.doc.place parent (l₁.length + 1) node }) hplaced.wf hlist' hrest
    refine ⟨doc', ?_, hdoc'.wf, hdoc'.next_eq.trans hplaced.next_eq, ?_, ?_⟩
    · rw [insertChain, run_bind, insertAfter, run_bind, run_view, indexOf?_eq, hlist]
      simp only [idxOf?_append_cons hanchor, insertAt, run_bind, run_view, hok, run_editDocument]
      exact hrun
    · exact fun x => (hdoc'.kind_eq x).trans (hplaced.kind_eq x)
    · intro x
      rw [hdoc'.children_eq]
      split
      · simp
      · next hx => rw [hplaced.children_eq, if_neg hx]

/-- The node after which `spliceAfter` inserts. -/
def spliceStart (w : Workspace) (parent anchor : Nat) : Nat :=
  match w.run.insertionPoints[parent]? with
  | some last => if w.doc.parent last = some parent then last else anchor
  | none => anchor

theorem spliceStart_mem (hwf : w.doc.WellFormed) {parent anchor : Nat} (h : anchor ∈ w.doc.children parent) :
    spliceStart w parent anchor ∈ w.doc.children parent := by
  unfold spliceStart
  split
  · split
    · next hlast => exact hwf.mem_children_iff.2 hlast
    · exact h
  · exact h

/-- The state of a run after nodes have been inserted under `parent`. -/
def pointedAt (run : Run) (parent : Nat) (nodes : List Nat) : Run :=
  match nodes.getLast? with
  | some last => run.setInsertionPoint parent last
  | none => run

theorem spliceAfter_run (hwf : w.doc.WellFormed) {parent anchor : Nat} {nodes : List Nat}
    (hanchor : anchor ∈ w.doc.children parent) (hnodes : w.doc.Insertable parent nodes) :
    ∃ doc' l₁ l₂, w.doc.children parent = l₁ ++ spliceStart w parent anchor :: l₂ ∧
      spliceAfter parent anchor nodes w = .ok () { w with doc := doc', run := pointedAt w.run parent nodes } ∧
      Relisted w.doc doc' parent (l₁ ++ spliceStart w parent anchor :: (nodes ++ l₂)) := by
  obtain ⟨l₁, l₂, hlist⟩ := List.append_of_mem (spliceStart_mem hwf hanchor)
  obtain ⟨doc', hrun, hdoc'⟩ := insertChain_run hwf hlist hnodes
  refine ⟨doc', l₁, l₂, hlist, ?_, hdoc'⟩
  unfold spliceAfter
  rw [run_bind, run_view]
  change (insertChain parent (spliceStart w parent anchor) nodes >>= _) w = _
  rw [run_bind, hrun]
  unfold pointedAt
  cases nodes.getLast? <;> rfl

/-! ### Removing many children -/

private theorem foldl_erase_self (l : List Nat) : l.foldl List.erase l = [] := by
  induction l with
  | nil => rfl
  | cons x l ih => rw [List.foldl_cons, List.erase_cons_head, ih]

/-- Taking some children away one after the other. -/
theorem removeChildren_run (hwf : w.doc.WellFormed) (parent : Nat) (nodes : List Nat) :
    ∃ doc', removeChildren parent nodes w = .ok () { w with doc := doc' } ∧
      Relisted w.doc doc' parent (nodes.foldl List.erase (w.doc.children parent)) := by
  refine ⟨nodes.foldl (fun doc node => (doc.removeChild parent node).1) w.doc, rfl, ?_⟩
  generalize w.doc = doc at hwf
  induction nodes generalizing doc with
  | nil => exact hwf.relisted_self rfl
  | cons node nodes ih =>
    have hfirst := hwf.relisted_removeChild parent node
    have hrest := ih _ hfirst.wf
    rw [List.foldl_cons, List.foldl_cons]
    rw [hfirst.children_eq, if_pos rfl] at hrest
    refine ⟨hrest.wf, hrest.next_eq.trans hfirst.next_eq, ?_, ?_⟩
    · exact fun x => (hrest.kind_eq x).trans (hfirst.kind_eq x)
    · intro x
      rw [hrest.children_eq]
      split
      · rfl
      · next hx => rw [hfirst.children_eq, if_neg hx]

theorem removeChildren_all_run (hwf : w.doc.WellFormed) (parent : Nat) :
    ∃ doc', removeChildren parent (w.doc.children parent) w = .ok () { w with doc := doc' } ∧
      Relisted w.doc doc' parent [] := by
  obtain ⟨doc', hrun, hdoc'⟩ := removeChildren_run hwf parent (w.doc.children parent)
  rw [foldl_erase_self] at hdoc'
  exact ⟨doc', hrun, hdoc'⟩

/-! ### Copying -/

/-- The document has got new detached nodes with the given contents, and is otherwise as before. -/
structure Copied (doc doc' : Document) (copies : List Nat) (contents : List Fragment) : Prop where
  wf : doc'.WellFormed
  instantiated : ∃ size, Instantiated doc doc' size
  nodup : copies.Nodup
  range : ∀ c ∈ copies, doc.next ≤ c ∧ c < doc'.next
  detached : ∀ c ∈ copies, doc'.parent c = none
  fragments : copies.map doc'.fragment = contents

theorem Copied.frame {doc doc' : Document} {copies : List Nat} {contents : List Fragment}
    (h : Copied doc doc' copies contents) (tops : List Nat) (site : Option Nat) : Frame doc doc' tops site := by
  obtain ⟨size, hsize⟩ := h.instantiated
  exact hsize.frame tops site

/-- Copies can go anywhere among the nodes that were there before. -/
theorem Copied.insertable {doc doc' : Document} {copies : List Nat} {contents : List Fragment}
    (h : Copied doc doc' copies contents) (hwf : doc.WellFormed) {parent : Nat} (hplt : parent < doc.next) :
    doc'.Insertable parent copies where
  nodup := h.nodup
  lt_next c hc := (h.range c hc).2
  ne_root := by
    rintro c hc rfl
    have hle := (h.range root hc).1
    have hlt := hwf.root_lt_next
    omega
  detached := h.detached
  not_above := by
    intro c hc hspan
    have hout : doc.Outside [] parent := ⟨hplt, by simp⟩
    have hlt := hwf.lt_next_of_spans ((h.frame [] none).spans_of_spans hwf hout hspan) hplt
    have hle := (h.range c hc).1
    omega

theorem copyAll_run (hwf : w.doc.WellFormed) (values : ParamValues) {nodes : List Nat}
    (hlt : ∀ n ∈ nodes, n < w.doc.next) :
    ∃ doc' copies, copyAll values nodes w = .ok copies { w with doc := doc' } ∧
      Copied w.doc doc' copies
        (nodes.map fun n => (w.doc.fragment n).mapText (Reference.substitute (values[·]?))) := by
  induction nodes generalizing w with
  | nil =>
    refine ⟨w.doc, [], rfl, hwf, ⟨0, rfl, fun _ _ => rfl⟩, List.nodup_nil, ?_, ?_, rfl⟩ <;> simp
  | cons node nodes ih =>
    generalize hf : (w.doc.fragment node).mapText (Reference.substitute (values[·]?)) = f
    have hfirst := instantiate_spec w.doc f
    have hpos := f.size_pos
    have hwf₁ := hwf.instantiate f
    obtain ⟨doc', copies, hrun, hcopied⟩ := ih (w := { w with doc := (w.doc.instantiate f).1 }) hwf₁ (by
      intro n hn
      rw [hfirst.next_eq]
      have := hlt n (by simp [hn])
      omega)
    obtain ⟨size, hsize⟩ := hcopied.instantiated
    simp only at hsize hcopied
    have hkeep : ∀ {n}, n < w.doc.next → (w.doc.instantiate f).1.fragment n = w.doc.fragment n := by
      intro n hn
      apply (hfirst.frame [] none).fragment_eq hwf hwf₁
      exact fun x hx => ⟨⟨hx.lt_next hn, by simp⟩, by simp⟩
    refine ⟨doc', w.doc.next :: copies, ?_, hcopied.wf, ?_, ?_, ?_, ?_, ?_⟩
    · rw [copyAll, run_bind, run_view]
      simp only [run_bind, run_makeNode, hf, hrun, run_pure, instantiate_id]
    · refine ⟨f.size + size, ?_, ?_⟩
      · rw [hsize.next_eq, hfirst.next_eq]
        omega
      · intro x hx
        rw [hsize.node_eq x (by rw [hfirst.next_eq]; omega), hfirst.node_eq x hx]
    · rw [List.nodup_cons]
      refine ⟨?_, hcopied.nodup⟩
      intro hmem
      have hle := (hcopied.range _ hmem).1
      rw [hfirst.next_eq] at hle
      omega
    · intro c hc
      have hle := hsize.next_eq
      rw [hfirst.next_eq] at hle
      rw [List.mem_cons] at hc
      rcases hc with rfl | hc
      · omega
      · have hrange := hcopied.range c hc
        rw [hfirst.next_eq] at hrange
        omega
    · intro c hc
      rw [List.mem_cons] at hc
      rcases hc with rfl | hc
      · rw [hsize.parent_eq (by rw [hfirst.next_eq]; omega), parent_instantiate]
      · exact hcopied.detached c hc
    · rw [List.map_cons, List.map_cons, hcopied.fragments]
      congr 1
      · rw [(hsize.frame [] none).fragment_eq hwf₁ hcopied.wf, hwf.fragment_instantiate, hf]
        intro x hx
        exact ⟨⟨hx.lt_next (by rw [hfirst.next_eq]; omega), by simp⟩, by simp⟩
      · apply List.map_congr_left
        intro n hn
        rw [hkeep (hlt n (by simp [hn]))]

end Pass

end NestedStyles
