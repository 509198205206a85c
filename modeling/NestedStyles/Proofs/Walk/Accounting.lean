import NestedStyles.Proofs.Document.Traversal
import NestedStyles.Proofs.Walk.Visit

/-!
# Where a visit leaves the nodes

A visit accounts for the nodes at and below the visited one and for those that it makes (`visit_accounted`). Each of
them is the visited node, or stands below it, or stands at or below a node that has come into the child list of its
parent, or is skipped. Nodes are skipped at a conditional only: its children are, and with them what is below those that
are not the branch taken. Nothing is in two of these places.
-/

namespace NestedStyles

open Document

namespace Document

variable {doc doc' : Document}

/-- The node is one of `tops` or is below one of them. -/
def Below (doc : Document) (tops : List Nat) (x : Nat) : Prop := ∃ t ∈ tops, doc.Spans t x

theorem below_cons {t x : Nat} {tops : List Nat} : doc.Below (t :: tops) x ↔ doc.Spans t x ∨ doc.Below tops x := by
  simp [Below]

theorem below_append {x : Nat} {tops tops' : List Nat} :
    doc.Below (tops ++ tops') x ↔ doc.Below tops x ∨ doc.Below tops' x := by
  simp [Below, or_and_right, exists_or]

theorem not_below_nil (x : Nat) : ¬ doc.Below [] x := by simp [Below]

theorem below_congr_mem {tops tops' : List Nat} (h : ∀ t, t ∈ tops ↔ t ∈ tops') {x : Nat} :
    doc.Below tops x ↔ doc.Below tops' x := by
  simp only [Below, h]

theorem WellFormed.spans_iff_below (hwf : doc.WellFormed) {id x : Nat} :
    doc.Spans id x ↔ x = id ∨ doc.Below (doc.children id) x := hwf.spans_iff

/-- A subtree whose child lists are the same has the same nodes. -/
theorem WellFormed.spans_congr (hwf : doc.WellFormed) (hwf' : doc'.WellFormed) {id : Nat}
    (h : ∀ y, doc.Spans id y → doc'.children y = doc.children y) {x : Nat} : doc'.Spans id x ↔ doc.Spans id x := by
  induction id using hwf.children_induction with
  | step id ih =>
    rw [hwf'.spans_iff, hwf.spans_iff, h id (Spans.refl doc id)]
    refine or_congr_right (exists_congr fun c => and_congr_right fun hc => ih c hc ?_)
    intro y hy
    exact h y ((Spans.of_parent (hwf.mem_children_iff.1 hc)).trans hy)

theorem WellFormed.below_congr (hwf : doc.WellFormed) (hwf' : doc'.WellFormed) {tops : List Nat}
    (h : ∀ t ∈ tops, ∀ y, doc.Spans t y → doc'.children y = doc.children y) {x : Nat} :
    doc'.Below tops x ↔ doc.Below tops x :=
  exists_congr fun t => and_congr_right fun ht => hwf.spans_congr hwf' (h t ht)

theorem Frame.below_congr {tops ids : List Nat} {site : Option Nat} (hf : Frame doc doc' tops site)
    (hwf : doc.WellFormed) (hwf' : doc'.WellFormed) (hclear : ∀ id ∈ ids, doc.Clear tops site id) {x : Nat} :
    doc'.Below ids x ↔ doc.Below ids x := by
  apply hwf.below_congr hwf'
  intro id hid y hy
  obtain ⟨hout, hne⟩ := hclear id hid y hy
  exact hf.children_eq hout hne

/-- In a copy of a fragment, every node but the top has a parent. -/
theorem WellFormed.exists_parent_instantiate (hwf : doc.WellFormed) (f : Fragment) {x : Nat} (hx : doc.next < x)
    (hlt : x < (doc.instantiate f).1.next) : ∃ p, (doc.instantiate f).1.parent x = some p := by
  have hwf' := hwf.instantiate f
  rw [(instantiate_spec doc f).next_eq] at hlt
  have hmem : x ∈ (doc.instantiate f).1.descendants doc.next := by
    rw [(laid_instantiate doc f).descendants_eq hwf', List.mem_range'_1]
    omega
  rcases Spans.iff_eq_or_parent.1 (hwf'.mem_descendants.1 hmem) with rfl | ⟨p, hp, -⟩
  · omega
  · exact ⟨p, hp⟩

/-- The nodes that have come into the child list of `parent`. -/
def arrivals (doc doc' : Document) (parent : Nat) : List Nat :=
  (doc'.children parent).filter fun c => c ∉ doc.children parent

theorem mem_arrivals {parent b : Nat} :
    b ∈ doc.arrivals doc' parent ↔ b ∈ doc'.children parent ∧ b ∉ doc.children parent := by
  simp [arrivals]

/-! ### What a replacement leaves where -/

namespace Replacement

variable {parent node start : Nat} {before after body emptied : List Nat}
  (h : Replacement doc doc' parent node start before after body emptied) (hwf : doc.WellFormed)
include h hwf

/-- The nodes of the body are those that have come into the child list. -/
theorem mem_body (b : Nat) : b ∈ body ↔ b ∈ doc.arrivals doc' parent := by
  have hnode : node ∈ before ++ start :: after := h.split ▸ hwf.mem_children_iff.2 h.parent_node
  have hnodup := h.nodup
  rw [mem_arrivals, h.children_parent, hnodup.mem_erase_iff, h.split]
  simp only [List.nodup_append, List.nodup_cons, List.mem_cons, List.mem_append] at hnode hnodup ⊢
  grind

/-- Below the replaced node, only what was emptied has other children than before. -/
theorem children_eq_inside {y : Nat} (hspan : doc.Spans node y) (hnot : y ∉ emptied) :
    doc'.children y = doc.children y := by
  have hne : y ≠ parent := by
    rintro rfl
    exact hwf.not_spans_parent h.parent_node hspan
  rw [h.children_eq (hspan.lt_next (lt_next_of_parent h.parent_node)) hne, if_neg hnot]

/-- If every new node has got a parent, all of them are at or below the body. -/
theorem below_body_of_new (hlinked : ∀ x, doc.next ≤ x → x < doc'.next → ∃ p, doc'.parent x = some p) {x : Nat}
    (hx : doc.next ≤ x) (hlt : x < doc'.next) : doc'.Below body x := by
  obtain ⟨rank, hrank⟩ := h.wf.ranked
  induction hr : rank x using Nat.strongRecOn generalizing x with
  | ind r ih =>
    obtain ⟨p, hp⟩ := hlinked x hx hlt
    have hmem := h.wf.mem_children_iff.2 hp
    have hnot : ∀ {q}, x ∉ doc.children q := fun hold => Nat.not_lt.2 hx (hwf.child_lt_next hold)
    by_cases hnew : doc.next ≤ p
    · obtain ⟨b, hb, hspan⟩ := ih (rank p) (hr ▸ hrank hp) hnew (h.wf.parent_lt_next hp) rfl
      exact ⟨b, hb, hspan.down hp⟩
    · -- among the old nodes only the parent has got new children
      by_cases hpp : p = parent
      · subst hpp
        exact ⟨x, (h.mem_body hwf x).2 (mem_arrivals.2 ⟨hmem, hnot⟩), Spans.refl _ _⟩
      · rw [h.children_eq (by omega) hpp] at hmem
        split at hmem
        · simp at hmem
        · exact absurd hmem hnot

omit hwf in
/-- What is below a new node is new. -/
theorem le_of_spans {b x : Nat} (hb : doc.next ≤ b) (hspan : doc'.Spans b x) : doc.next ≤ x :=
  Spans.climb (motive := fun x => doc.next ≤ x) hb
    (fun hp _ ih => h.children_new ih (h.wf.mem_children_iff.2 hp)) hspan

end Replacement

end Document

theorem Visited.mem_body {w w' : Workspace} {node parent : Nat} {r : Semantics.Reaction} {body : List Nat}
    (h : Visited node parent w w' r body) (hwf : w.doc.WellFormed) (b : Nat) :
    b ∈ body ↔ b ∈ w.doc.arrivals w'.doc parent := by
  rcases h.change with ⟨_, _, hdoc, rfl⟩ | ⟨_, _, _, _, _, hdoc, _⟩
  · simp [mem_arrivals, hdoc.children_eq]
  · exact hdoc.mem_body hwf b

/-! ### Stops -/

namespace Pass

/-- The walk comes to a node in a state. -/
structure Stop where
  node : Nat
  state : Workspace

namespace Stop

/-- The child whose body takes the place of the node, if this is a conditional. -/
def chosen? (stop : Stop) : Option Nat := (chooseBranch stop.state stop.node (stop.state.doc.children stop.node)).1

/-- The stop is at a conditional, and the walk will not come to `x` because it is a child of that conditional, or is
below a child other than the one that was chosen. -/
def Skips (stop : Stop) (x : Nat) : Prop :=
  stop.state.doc.kind stop.node = .conditional ∧
    ∃ c ∈ stop.state.doc.children stop.node, x = c ∨ stop.chosen? ≠ some c ∧ stop.state.doc.Spans c x

theorem Skips.spans {stop : Stop} {x : Nat} (h : stop.Skips x) (hwf : stop.state.doc.WellFormed) :
    stop.state.doc.Spans stop.node x ∧ x ≠ stop.node := by
  obtain ⟨-, c, hc, hx⟩ := h
  have hp := hwf.mem_children_iff.1 hc
  have hspan : stop.state.doc.Spans c x := by
    rcases hx with rfl | ⟨-, hspan⟩
    · exact Spans.refl _ _
    · exact hspan
  refine ⟨(Spans.of_parent hp).trans hspan, ?_⟩
  rintro rfl
  exact hwf.not_spans_parent hp hspan

theorem chosen?_mem (stop : Stop) (hwf : stop.state.doc.WellFormed) {branch : Nat}
    (h : stop.chosen? = some branch) : branch ∈ stop.state.doc.children stop.node := by
  have hchosen := chooseBranch_chosen hwf stop.node (stop.state.doc.children stop.node)
  unfold chosen? at h
  rw [h] at hchosen
  exact hchosen.1

section Conditional

variable {stop : Stop} {x : Nat} {body : List Nat} (hwf : stop.state.doc.WellFormed)
  (hbody : ∀ t, t ∈ body ↔ ∃ branch, stop.chosen? = some branch ∧ t ∈ stop.state.doc.children branch)
include hwf hbody

/-- What is at or below a conditional is the conditional, or is skipped, or is at or below a child of the branch that is
taken. -/
theorem spans_iff_of_conditional (hkind : stop.state.doc.kind stop.node = .conditional) :
    stop.state.doc.Spans stop.node x ↔ x = stop.node ∨ stop.Skips x ∨ stop.state.doc.Below body x := by
  constructor
  · intro hspan
    rcases hwf.spans_iff.1 hspan with rfl | ⟨c, hc, hcx⟩
    · exact Or.inl rfl
    · by_cases hchosen : stop.chosen? = some c
      · rcases hwf.spans_iff.1 hcx with rfl | ⟨t, ht, htx⟩
        · exact Or.inr (Or.inl ⟨hkind, x, hc, Or.inl rfl⟩)
        · exact Or.inr (Or.inr ⟨t, (hbody t).2 ⟨c, hchosen, ht⟩, htx⟩)
      · exact Or.inr (Or.inl ⟨hkind, c, hc, Or.inr ⟨hchosen, hcx⟩⟩)
  · rintro (rfl | hskip | ⟨t, ht, htx⟩)
    · exact Spans.refl _ _
    · exact (hskip.spans hwf).1
    · obtain ⟨branch, hbranch, htb⟩ := (hbody t).1 ht
      have hparent := hwf.mem_children_iff.1 (stop.chosen?_mem hwf hbranch)
      exact ((Spans.of_parent hparent).down (hwf.mem_children_iff.1 htb)).trans htx

theorem Skips.not_below (h : stop.Skips x) : ¬ stop.state.doc.Below body x := by
  rintro ⟨t, ht, htx⟩
  obtain ⟨-, c, hc, hx⟩ := h
  obtain ⟨branch, hbranch, htb⟩ := (hbody t).1 ht
  have hpb := hwf.mem_children_iff.1 (stop.chosen?_mem hwf hbranch)
  have hpc := hwf.mem_children_iff.1 hc
  have hpt := hwf.mem_children_iff.1 htb
  have hbx := (Spans.of_parent hpt).trans htx
  rcases hx with rfl | ⟨hne, hcx⟩
  · -- a sibling of the branch is not below a child of it
    obtain rfl := hwf.eq_of_spans_siblings hpb hpc hbx (Spans.refl _ _)
    exact hwf.not_spans_parent hpt htx
  · exact hne (hwf.eq_of_spans_siblings hpb hpc hbx hcx ▸ hbranch)

end Conditional

end Stop

variable {w w' : Workspace} {node parent : Nat} {body : List Nat}

/-- The visit of `node` has left every node that was at or below it, and every new one, in one of four places. -/
structure Accounted (w w' : Workspace) (node : Nat) (body : List Nat) : Prop where
  place_iff : ∀ x, w.doc.Spans node x ∨ w.doc.next ≤ x ∧ x < w'.doc.next ↔
    x = node ∨ Stop.Skips ⟨node, w⟩ x ∨ w'.doc.Below (w'.doc.children node) x ∨ w'.doc.Below body x
  skipped : ∀ x, Stop.Skips ⟨node, w⟩ x → ¬ w'.doc.Below (w'.doc.children node) x ∧ ¬ w'.doc.Below body x

theorem Accounted.congr {body' : List Nat} (h : Accounted w w' node body) (hbody : ∀ b, b ∈ body ↔ b ∈ body') :
    Accounted w w' node body' where
  place_iff x := by
    rw [h.place_iff, below_congr_mem hbody]
  skipped x hx := by
    rw [← below_congr_mem hbody]
    exact h.skipped x hx

theorem accounted_retyped (hwf : w.doc.WellFormed) {kind : Kind} (h : Retyped w.doc w'.doc node kind)
    (hkind : w.doc.kind node ≠ .conditional) : Accounted w w' node [] where
  place_iff x := by
    have hbelow : w'.doc.Below (w.doc.children node) x ↔ w.doc.Below (w.doc.children node) x :=
      hwf.below_congr h.wf fun t _ y _ => h.children_eq y
    have hnew : ¬ (w.doc.next ≤ x ∧ x < w.doc.next) := by omega
    rw [h.children_eq, hbelow, hwf.spans_iff_below, h.next_eq]
    simp [Stop.Skips, hkind, hnew, not_below_nil]
  skipped x hx := absurd hx.1 hkind

/-- A node that is replaced by new nodes. -/
theorem accounted_replaced (hwf : w.doc.WellFormed) {start : Nat} {before after : List Nat}
    (h : Replacement w.doc w'.doc parent node start before after body []) (hkind : w.doc.kind node ≠ .conditional)
    (hnew : ∀ b ∈ body, w.doc.next ≤ b)
    (hlinked : ∀ x, w.doc.next ≤ x → x < w'.doc.next → ∃ p, w'.doc.parent x = some p) :
    Accounted w w' node body where
  place_iff x := by
    have hchildren : w'.doc.children node = w.doc.children node :=
      h.children_eq_inside hwf (Spans.refl _ _) List.not_mem_nil
    have hbelow : w'.doc.Below (w.doc.children node) x ↔ w.doc.Below (w.doc.children node) x := by
      apply hwf.below_congr h.wf
      intro t ht y hy
      have hspan := (Spans.of_parent (hwf.mem_children_iff.1 ht)).trans hy
      exact h.children_eq_inside hwf hspan List.not_mem_nil
    have hbody : w'.doc.Below body x ↔ w.doc.next ≤ x ∧ x < w'.doc.next := by
      constructor
      · rintro ⟨b, hb, hspan⟩
        have hmem := (mem_arrivals.1 ((h.mem_body hwf b).1 hb)).1
        exact ⟨h.le_of_spans (hnew b hb) hspan, hspan.lt_next (h.wf.child_lt_next hmem)⟩
      · rintro ⟨hx, hlt⟩
        exact h.below_body_of_new hwf hlinked hx hlt
    rw [hchildren, hbelow, hbody, hwf.spans_iff_below]
    simp [Stop.Skips, hkind, or_assoc]
  skipped x hx := absurd hx.1 hkind

/-- A conditional that is replaced by what is in the branch that is taken. -/
theorem accounted_decided (hwf : w.doc.WellFormed) {start : Nat} {before after emptied : List Nat}
    (h : Replacement w.doc w'.doc parent node start before after body emptied)
    (hkind : w.doc.kind node = .conditional) (hnext : w'.doc.next = w.doc.next)
    (hbody : ∀ t, t ∈ body ↔ ∃ branch, Stop.chosen? ⟨node, w⟩ = some branch ∧ t ∈ w.doc.children branch)
    (hemptied : ∀ x, x ∈ emptied ↔ x = node ∨ Stop.chosen? ⟨node, w⟩ = some x) : Accounted w w' node body := by
  have hchosen : ∀ {branch}, Stop.chosen? ⟨node, w⟩ = some branch → w.doc.parent branch = some node := fun hb =>
    hwf.mem_children_iff.1 (Stop.chosen?_mem ⟨node, w⟩ hwf hb)
  have hnone : w'.doc.children node = [] := by
    rw [h.children_eq (lt_next_of_parent h.parent_node) (hwf.parent_ne h.parent_node), if_pos]
    exact (hemptied node).2 (Or.inl rfl)
  -- nothing at or above the chosen branch is below one of its children
  have hsame : ∀ {x}, w'.doc.Below body x ↔ w.doc.Below body x := by
    apply hwf.below_congr h.wf
    intro t ht y hy
    obtain ⟨branch, hb, htb⟩ := (hbody t).1 ht
    have hpt := hwf.mem_children_iff.1 htb
    have hnot : ¬ w.doc.Spans y branch := fun hspan => hwf.not_spans_parent hpt (hy.trans hspan)
    apply h.children_eq_inside hwf (((Spans.of_parent (hchosen hb)).down hpt).trans hy)
    rw [hemptied]
    rintro (rfl | hy')
    · exact hnot (Spans.of_parent (hchosen hb))
    · obtain rfl := Option.some.inj (hb.symm.trans hy')
      exact hnot (Spans.refl _ _)
  constructor
  · intro x
    have hspans : w.doc.Spans node x ↔ x = node ∨ Stop.Skips ⟨node, w⟩ x ∨ w.doc.Below body x :=
      Stop.spans_iff_of_conditional hwf hbody hkind
    have hnew : ¬ (w.doc.next ≤ x ∧ x < w.doc.next) := by omega
    rw [hnone, hsame, hnext, hspans]
    simp [hnew, not_below_nil]
  · intro x hskip
    rw [hnone, hsame]
    exact ⟨not_below_nil x, hskip.not_below hwf hbody⟩

/-! ### Visits -/

/-- Of the new nodes, only the copies themselves have no parent. -/
theorem copyAll_linked (hwf : w.doc.WellFormed) (values : ParamValues) {nodes copies : List Nat}
    (hnodes : ∀ n ∈ nodes, n < w.doc.next) (hrun : copyAll values nodes w = .ok copies w') {x : Nat}
    (hx : w.doc.next ≤ x) (hlt : x < w'.doc.next) : x ∈ copies ∨ ∃ p, w'.doc.parent x = some p := by
  induction nodes generalizing w copies with
  | nil =>
    obtain ⟨⟩ := hrun
    omega
  | cons node nodes ih =>
    generalize hf : (w.doc.fragment node).mapText (Reference.substitute (values[·]?)) = f
    have hfirst := instantiate_spec w.doc f
    have hwf₁ := hwf.instantiate f
    have hnodes₁ : ∀ n ∈ nodes, n < (w.doc.instantiate f).1.next := by
      intro n hn
      have := hnodes n (List.mem_cons_of_mem _ hn)
      rw [hfirst.next_eq]
      omega
    obtain ⟨doc', rest, hrest, hcopied⟩ :=
      copyAll_run (w := { w with doc := (w.doc.instantiate f).1 }) hwf₁ values hnodes₁
    obtain ⟨size, hsize⟩ := hcopied.instantiated
    rw [copyAll, run_bind, run_view] at hrun
    simp only [run_bind, run_makeNode, hf, hrest, run_pure, instantiate_id] at hrun
    obtain ⟨rfl, rfl⟩ : w.doc.next :: rest = copies ∧ { w with doc := doc' } = w' := by simpa using hrun
    by_cases hold : x < (w.doc.instantiate f).1.next
    · by_cases htop : x = w.doc.next
      · exact Or.inl (htop ▸ List.mem_cons_self)
      · obtain ⟨p, hp⟩ := hwf.exists_parent_instantiate f (by omega) hold
        exact Or.inr ⟨p, (hsize.parent_eq hold).trans hp⟩
    · exact (ih hwf₁ hnodes₁ hrest (by simpa using hold)).imp_left (List.mem_cons_of_mem _)

theorem chooseBranch_counted (w : Workspace) (node conditional : Nat) (nodes : List Nat) :
    chooseBranch (counted w node) conditional nodes = chooseBranch w conditional nodes := by
  induction nodes with
  | nil => rfl
  | cons first nodes ih =>
    simp only [chooseBranch, ih]
    rfl

section Visit

variable (hwf : w.doc.WellFormed) (hparent : w.doc.parent node = some parent)
include hwf

private theorem accounted_kept {kind : Kind} (h : Retyped w.doc w'.doc node kind)
    (hkind : w.doc.kind node ≠ .conditional) : Accounted w w' node (w.doc.arrivals w'.doc parent) := by
  apply (accounted_retyped hwf h hkind).congr
  simp [mem_arrivals, h.children_eq]

include hparent

private theorem accounted_detached (hkind : w.doc.kind node ≠ .conditional) (hdoc : w'.doc = (w.doc.detach node).1) :
    Accounted w w' node (w.doc.arrivals w'.doc parent) := by
  obtain ⟨before, after, hreplaced⟩ := hwf.replacement_detach hparent
  have hnext : w'.doc.next = w.doc.next := by
    rw [hdoc, Document.detach, hparent]
    exact next_removeChild ..
  rw [← hdoc] at hreplaced
  refine (accounted_replaced hwf hreplaced hkind (by simp) ?_).congr (hreplaced.mem_body hwf)
  intro x hx hlt
  omega

private theorem accounted_assigned {name value : String} {guarded : Bool}
    (hkind : w.doc.kind node = .assignment name value guarded)
    (hrun : assign node name value guarded (counted w node) = .ok () w') :
    Accounted w w' node (w.doc.arrivals w'.doc parent) := by
  apply accounted_detached hwf hparent (by simp [hkind])
  simp only [assign, run_bind, run_view] at hrun
  split at hrun
  · obtain ⟨⟩ := hrun
    rfl
  · obtain ⟨⟩ := hrun
    rfl

/-- A node that copies of the children of a definition have taken the place of. -/
private theorem accounted_copied (hkind : w.doc.kind node ≠ .conditional) (definition : Nat) (values : ParamValues)
    (event : List Nat → Event) (run : Run) (log : List Event)
    (hrun : (do
      let copies ← copyAll values (w.doc.children definition)
      report (event copies)
      spliceAfter parent node copies
      removeChild parent node) { w with run, log } = .ok () w')
    (hpoints : run.insertionPoints = w.run.insertionPoints) :
    Accounted w w' node (w.doc.arrivals w'.doc parent) := by
  have hnodes : ∀ n ∈ w.doc.children definition, n < w.doc.next := fun n hn => hwf.child_lt_next hn
  obtain ⟨doc₁, copies, hcopy, hcopied⟩ := copyAll_run (w := { w with run, log }) hwf values hnodes
  obtain ⟨doc₂, start, before, after, hsplice, hdoc, -, -, hnext, hparents⟩ :=
    splice_copies hwf hparent hcopied run (event copies :: log) hpoints
  simp only [run_bind, hcopy, run_report, hsplice, run_removeChild] at hrun
  obtain ⟨⟩ := hrun
  refine (accounted_replaced hwf hdoc hkind (fun b hb => (hcopied.range b hb).1) ?_).congr (hdoc.mem_body hwf)
  intro x hx hlt
  rcases copyAll_linked (w := { w with run, log }) hwf values hnodes hcopy hx (hnext ▸ hlt) with hmem | ⟨p, hp⟩
  · have hlist := (mem_arrivals.1 ((hdoc.mem_body hwf x).1 hmem)).1
    exact ⟨parent, hdoc.wf.mem_children_iff.1 hlist⟩
  · exact ⟨p, hparents hx hp⟩

private theorem accounted_expanded {name : String} {args : List String}
    (hkind : w.doc.kind node = .inclusion name args)
    (hrun : expand node name args (counted w node) = .ok () w') :
    Accounted w w' node (w.doc.arrivals w'.doc parent) := by
  have hnot : w.doc.kind node ≠ .conditional := by simp [hkind]
  have hdoc : (counted w node).doc = w.doc := rfl
  simp only [expand, run_bind, run_view, hdoc, hparent] at hrun
  cases hmixin : (counted w node).run.mixins[name]? with
  | none =>
    simp only [hmixin, run_bind, run_view] at hrun
    split at hrun
    · simp at hrun
    · apply accounted_detached hwf hparent hnot
      obtain ⟨⟩ := hrun
      rfl
  | some definition =>
    simp only [hmixin] at hrun
    obtain ⟨⟨⟩, w₁, hcount, hrun⟩ := exists_of_bind_eq_ok hrun
    simp only [countExpansion, run_bind, run_view] at hcount
    split at hcount
    · simp at hcount
    · obtain ⟨⟩ := hcount
      simp only [run_bind, run_view, run_reportAll] at hrun
      apply accounted_copied hwf hparent hnot definition _ fun copies => .expanding name copies.length parent
      · simp only [run_bind]
        exact hrun
      · rfl

private theorem accounted_conditional (hkind : w.doc.kind node = .conditional)
    (hrun : decideConditional node (counted w node) = .ok () w') :
    Accounted w w' node (w.doc.arrivals w'.doc parent) := by
  have hchosen : (chooseBranch (counted w node) node (w.doc.children node)).1 = Stop.chosen? ⟨node, w⟩ := by
    rw [chooseBranch_counted]
    rfl
  obtain ⟨w₁, start, before, after, hrun₁, hreplaced, -, -, hnext, -⟩ :=
    decideConditional_run (w := counted w node) hwf hparent hchosen rfl
  obtain ⟨-, rfl⟩ := EStateM.Result.ok.inj (hrun₁.symm.trans hrun)
  refine (accounted_decided hwf hreplaced hkind hnext ?_ ?_).congr (hreplaced.mem_body hwf)
  · intro t
    cases Stop.chosen? ⟨node, w⟩ with
    | none => simp
    | some branch =>
      simp only [Option.map_some, Option.getD_some, Option.some.injEq, exists_eq_left']
      rfl
  · intro x
    cases Stop.chosen? ⟨node, w⟩ with
    | none => simp
    | some branch => simp [or_comm, eq_comm]

/-- A visit accounts for every node that was at or below its own, and for every new one. -/
theorem visit_accounted {r : Semantics.Reaction} (hvisit : visit node w = .ok () w')
    (hvisited : Visited node parent w w' r body) : Accounted w w' node body := by
  suffices h : Accounted w w' node (w.doc.arrivals w'.doc parent) from
    h.congr fun b => (hvisited.mem_body hwf b).symm
  have hsame := Retyped.refl hwf node
  rw [visit_run] at hvisit
  generalize hkind : w.doc.kind node = kind at hvisit
  cases kind with
  | assignment name value guarded => exact accounted_assigned hwf hparent hkind hvisit
  | inclusion name args => exact accounted_expanded hwf hparent hkind hvisit
  | conditional => exact accounted_conditional hwf hparent hkind hvisit
  | rule | declaration =>
    obtain ⟨⟩ := hvisit
    exact accounted_kept hwf (hwf.retyped_setKind (lt_next_of_parent hparent) _) (by simp [hkind])
  | _ =>
    obtain ⟨⟩ := hvisit
    exact accounted_kept hwf hsame (by simp [hkind])

end Visit

end Pass

end NestedStyles
