import NestedStyles.Proofs.Walk.Accounting
import NestedStyles.Proofs.Walk.Tally
import NestedStyles.Proofs.Walk.Termination

/-!
# The walk comes to every node once

A walk that succeeds makes a list of stops (`Tours`), each at a node and in the state in which the walk comes to it.
What a turn of the loop finds at and below the nodes behind the cursor falls into four parts: the child, what is
skipped at it, what the walk below the child comes to, and what the rest of the loop comes to (`Turned.places`). No two
of them have a node in common. So by induction the stops are at different nodes, and they are at all nodes except those
that some stop skips (`Tours.covers`). Nothing else is counted or logged as a visit (`Tours.tally_eq`).
-/

namespace NestedStyles

open Document Semantics

namespace Pass

/-- The loop over the children of a node from a position on succeeds, and makes the stops in the list. -/
inductive Tours : Nat → Nat → Workspace → List Stop → Workspace → Prop
  | done {node index : Nat} {w : Workspace} (hchild : w.doc.childAt? node index = none) : Tours node index w [] w
  | next {node index child : Nat} {w w₁ w₂ w' : Workspace} {below rest : List Stop}
      (hchild : w.doc.childAt? node index = some child) (hvisit : visit child w = .ok () w₁)
      (hbelow : Tours child 0 w₁ below w₂)
      (hrest : Tours node (if hasLeft w₂ child (w.doc.parent child) then index else index + 1)
        (leave child (w.doc.parent child) w₁.run.scope w₂) rest w') :
      Tours node index w (⟨child, w⟩ :: below ++ rest) w'

variable {w w₁ w₂ w' : Workspace} {node index : Nat} {stops : List Stop}

theorem Tours.walks (h : Tours node index w stops w') : Walks node index w (.ok () w') := by
  induction h with
  | done hchild => exact Walks.done hchild
  | next hchild hvisit _ _ ihbelow ihrest => exact Walks.next hchild hvisit ihbelow ihrest

theorem Walks.exists_tours {outcome : Outcome Unit} (h : Walks node index w outcome) (hok : outcome = .ok () w') :
    ∃ stops, Tours node index w stops w' := by
  induction h generalizing w' with
  | done hchild =>
    obtain ⟨⟩ := hok
    exact ⟨[], Tours.done hchild⟩
  | refused | stopped => cases hok
  | next hchild hvisit _ _ ihbelow ihrest =>
    obtain ⟨below, hbelow⟩ := ihbelow rfl
    obtain ⟨rest, hrest⟩ := ihrest hok
    exact ⟨_, Tours.next hchild hvisit hbelow hrest⟩

theorem Tours.tally_eq (h : Tours node index w stops w') :
    w'.tally = (w.tally.1 + stops.length, (stops.map Stop.node).reverse ++ w.tally.2) := by
  induction h with
  | done => rfl
  | next hchild hvisit _ _ ihbelow ihrest =>
    rw [ihrest, tally_leave, ihbelow, tally_visit hvisit]
    refine Prod.ext ?_ ?_
    · simp only [List.length_cons, List.length_append, List.cons_append]
      omega
    · simp

/-! ### Sets of nodes -/

/-- The stops are at different nodes, and those of a given set except the ones that are skipped. -/
structure Covers (stops : List Stop) (region : Nat → Prop) : Prop where
  nodup : (stops.map Stop.node).Nodup
  mem_iff : ∀ x, x ∈ stops.map Stop.node ↔ region x ∧ ∀ stop ∈ stops, ¬ stop.Skips x
  skipped : ∀ stop ∈ stops, ∀ x, stop.Skips x → region x

theorem Covers.nil : Covers [] fun _ => False := ⟨List.nodup_nil, by simp, by simp⟩

/-- A stop, those below it and those after it cover what they do if nothing is covered or skipped twice. -/
theorem Covers.cons {stop : Stop} {below rest : List Stop} {region region₁ region₂ : Nat → Prop}
    (h₁ : Covers below region₁) (h₂ : Covers rest region₂)
    (hregion : ∀ x, region x ↔ x = stop.node ∨ stop.Skips x ∨ region₁ x ∨ region₂ x)
    (hnode : ¬ stop.Skips stop.node ∧ ¬ region₁ stop.node ∧ ¬ region₂ stop.node)
    (hskips : ∀ x, stop.Skips x → ¬ region₁ x ∧ ¬ region₂ x) (hdisjoint : ∀ x, region₁ x → ¬ region₂ x) :
    Covers (stop :: below ++ rest) region := by
  obtain ⟨hnodup₁, hmem₁, hskipped₁⟩ := h₁
  obtain ⟨hnodup₂, hmem₂, hskipped₂⟩ := h₂
  constructor
  · rw [List.cons_append, List.map_cons, List.nodup_cons, List.map_append, List.mem_append, List.nodup_append]
    refine ⟨?_, hnodup₁, hnodup₂, ?_⟩
    · rintro (hmem | hmem)
      · exact hnode.2.1 ((hmem₁ _).1 hmem).1
      · exact hnode.2.2 ((hmem₂ _).1 hmem).1
    · rintro x hx _ hy rfl
      exact hdisjoint x ((hmem₁ x).1 hx).1 ((hmem₂ x).1 hy).1
  · intro x
    simp only [List.cons_append, List.map_cons, List.map_append, List.mem_cons, List.mem_append, hmem₁, hmem₂,
      hregion, or_imp, forall_and, forall_eq]
    constructor
    · rintro (rfl | ⟨hx, hnot⟩ | ⟨hx, hnot⟩)
      · exact ⟨Or.inl rfl, hnode.1, fun s hs h => hnode.2.1 (hskipped₁ s hs _ h),
          fun s hs h => hnode.2.2 (hskipped₂ s hs _ h)⟩
      · exact ⟨Or.inr (Or.inr (Or.inl hx)), fun h => (hskips x h).1 hx, hnot,
          fun s hs h => hdisjoint x hx (hskipped₂ s hs x h)⟩
      · exact ⟨Or.inr (Or.inr (Or.inr hx)), fun h => (hskips x h).2 hx,
          fun s hs h => hdisjoint x (hskipped₁ s hs x h) hx, hnot⟩
    · rintro ⟨rfl | hskip | hx | hx, hnot, hnot₁, hnot₂⟩
      · exact Or.inl rfl
      · exact absurd hskip hnot
      · exact Or.inr (Or.inl ⟨hx, hnot₁⟩)
      · exact Or.inr (Or.inr ⟨hx, hnot₂⟩)
  · intro s hs x hx
    rw [hregion]
    simp only [List.cons_append, List.mem_cons, List.mem_append] at hs
    rcases hs with rfl | hs | hs
    · exact Or.inr (Or.inl hx)
    · exact Or.inr (Or.inr (Or.inl (hskipped₁ s hs x hx)))
    · exact Or.inr (Or.inr (Or.inr (hskipped₂ s hs x hx)))

/-! ### The places of a turn -/

/-- The nodes behind the cursor with what is below them, and those that are new in the end. -/
def Ahead (w w' : Workspace) (todo : List Nat) (x : Nat) : Prop :=
  w.doc.Below todo x ∨ w.doc.next ≤ x ∧ x < w'.doc.next

section Turn

variable {child : Nat} {pre post passed todo body : List Nat} {r : Reaction}

/-- What is behind the child is not touched by its visit. -/
theorem Cursor.clear_post (hcursor : Cursor w node pre (child :: post)) {t : Nat} (ht : t ∈ post) :
    w.doc.Clear [child] (some node) t := by
  have hwf := hcursor.wf
  apply hwf.clear_of_sibling (by simp [hcursor.children_eq, ht])
  intro s hs
  obtain rfl := List.mem_singleton.1 hs
  refine ⟨hwf.mem_children_iff.2 hcursor.parent_eq, ?_⟩
  rintro rfl
  exact (hwf.not_mem_of_children_eq hcursor.children_eq).2 ht

variable (hcursor : Cursor w node pre (child :: post)) (hvisited : Visited child node w w₁ r body)
  (hbelow : Advanced w₁ w₂ (w₁.doc.children child) child)
  (hturned : Turned node child pre post w (leave child (some node) w₁.run.scope w₂) r passed todo)
include hcursor hvisited hbelow hturned

/-- The list behind the cursor after a turn is there once the child has been visited. It consists of the body and of
what was behind the child. -/
theorem Turned.mem_todo :
    w₁.doc.children node = pre ++ (r.kept.map fun _ => child).toList ++ todo ∧ ∀ t, t ∈ todo ↔ t ∈ body ∨ t ∈ post := by
  have hparent := hcursor.parent_eq
  obtain ⟨hwf, hlist, hpoint⟩ := hcursor
  obtain ⟨m₁, m₂, hpost, -, hlist₁⟩ := hvisited.children_parent hwf hlist hpoint
  have hsame : w₂.doc.children node = w₁.doc.children node := by
    apply hbelow.frame.children_eq
    · exact outside_below hwf hvisited (hwf.parent_lt_next hparent) (Or.inr (not_spans_home hwf hparent hvisited))
    · exact fun h => hwf.parent_ne hparent (Option.some.inj h)
  have hlist₂ : w₂.doc.children node = passed ++ todo := hturned.children_eq
  rw [hsame, hlist₁, hturned.passed_eq] at hlist₂
  obtain rfl := List.append_cancel_left hlist₂
  refine ⟨hlist₁, fun t => ?_⟩
  rw [hpost, List.mem_append, List.mem_append, List.mem_append, or_assoc, or_left_comm]

/-- The walk below the child leaves what is behind the cursor alone. -/
theorem Turned.clear_ahead {t : Nat} (ht : t ∈ todo) : w₁.doc.Clear (w₁.doc.children child) (some child) t :=
  clear_todo hcursor.wf hcursor.parent_eq hvisited (hturned.mem_todo hcursor hvisited hbelow).1 ht

variable (hvisit : visit child w = .ok () w₁)
include hvisit

/-- What a turn finds behind the cursor, and what it makes in its visit, is the child, is skipped, stands below the
child when the walk goes there, or stands behind the cursor afterwards. -/
theorem Turned.places (x : Nat) :
    w.doc.Below (child :: post) x ∨ w.doc.next ≤ x ∧ x < w₁.doc.next ↔
      x = child ∨ Stop.Skips ⟨child, w⟩ x ∨ w₁.doc.Below (w₁.doc.children child) x ∨ w₂.doc.Below todo x := by
  have hwf := hcursor.wf
  have hmem := (hturned.mem_todo hcursor hvisited hbelow).2
  have hplace := (visit_accounted hwf hcursor.parent_eq hvisit hvisited).place_iff x
  have hpost : w₁.doc.Below post x ↔ w.doc.Below post x :=
    (hvisited.frame hwf).below_congr hwf hvisited.wf fun t ht => hcursor.clear_post ht
  have htodo : w₂.doc.Below todo x ↔ w₁.doc.Below body x ∨ w₁.doc.Below post x := by
    rw [hbelow.frame.below_congr hvisited.wf hbelow.wf fun t ht => hturned.clear_ahead hcursor hvisited hbelow ht,
      ← below_append]
    exact below_congr_mem fun t => by rw [hmem, List.mem_append]
  rw [below_cons, or_right_comm, hplace, htodo, hpost]
  simp only [or_assoc]

/-- What stands behind the cursor after a turn is in no other place. -/
theorem Turned.apart {x : Nat} (hx : w₂.doc.Below todo x) :
    x < w₁.doc.next ∧ x ≠ child ∧ ¬ w₁.doc.Below (w₁.doc.children child) x ∧ ¬ Stop.Skips ⟨child, w⟩ x := by
  have hwf := hcursor.wf
  have hmem := (hturned.mem_todo hcursor hvisited hbelow).2
  have hclear : ∀ t ∈ todo, w₁.doc.Clear (w₁.doc.children child) (some child) t := fun t ht =>
    hturned.clear_ahead hcursor hvisited hbelow ht
  rw [hbelow.frame.below_congr hvisited.wf hbelow.wf hclear] at hx
  obtain ⟨t, ht, hspan⟩ := hx
  obtain ⟨hout, hne⟩ := hclear t ht x hspan
  refine ⟨hout.1, fun h => hne (congrArg some h.symm), fun ⟨c, hc, hcx⟩ => hout.2 c hc hcx, ?_⟩
  intro hskip
  rcases (hmem t).1 ht with hbody | hpost
  · exact ((visit_accounted hwf hcursor.parent_eq hvisit hvisited).skipped x hskip).2 ⟨t, hbody, hspan⟩
  · -- a node that is skipped was below the child, and so not below a sibling of it
    have hclear := hcursor.clear_post hpost
    have hold := (hvisited.frame hwf).spans_of_clear hwf hvisited.wf hclear hspan
    exact (hclear x hold).1.2 child (List.mem_singleton_self child) (hskip.spans hwf).1

/-- A turn covers what is behind the cursor if the walk below the child and the rest of the loop do. -/
theorem Turned.covers {below rest : List Stop} (hle : w₂.doc.next ≤ w'.doc.next)
    (hcovers₁ : Covers below (Ahead w₁ w₂ (w₁.doc.children child))) (hcovers₂ : Covers rest (Ahead w₂ w' todo)) :
    Covers (⟨child, w⟩ :: below ++ rest) (Ahead w w' (child :: post)) := by
  have hwf := hcursor.wf
  have hle₁ : w.doc.next ≤ w₁.doc.next := (hvisited.frame hwf).next_le
  have hle₂ : w₁.doc.next ≤ w₂.doc.next := hbelow.frame.next_le
  have hchild : child < w.doc.next := lt_next_of_parent hcursor.parent_eq
  have hapart := fun x => hturned.apart hcursor hvisited hbelow hvisit (x := x)
  have hlt : ∀ x, w₁.doc.Below (w₁.doc.children child) x → x < w₁.doc.next := by
    rintro x ⟨c, hc, hspan⟩
    exact hspan.lt_next (hvisited.wf.child_lt_next hc)
  refine hcovers₁.cons hcovers₂ ?_ ⟨?_, ?_, ?_⟩ ?_ ?_
  · intro x
    have hnew : w.doc.next ≤ x ∧ x < w'.doc.next ↔ w.doc.next ≤ x ∧ x < w₁.doc.next ∨
        w₁.doc.next ≤ x ∧ x < w₂.doc.next ∨ w₂.doc.next ≤ x ∧ x < w'.doc.next := by omega
    unfold Ahead
    rw [hnew, ← or_assoc, hturned.places hcursor hvisited hbelow hvisit, or_assoc, or_assoc, or_or_or_comm]
  · exact fun hskip => (hskip.spans hwf).2 rfl
  · rintro (⟨c, hc, hspan⟩ | hnew)
    · exact hvisited.wf.not_spans_parent (hvisited.wf.mem_children_iff.1 hc) hspan
    · simp only at hnew
      omega
  · rintro (hahead | hnew)
    · exact (hapart child hahead).2.1 rfl
    · simp only at hnew
      omega
  · intro x hskip
    have hx : x < w.doc.next := (hskip.spans hwf).1.lt_next hchild
    have hnot := (visit_accounted hwf hcursor.parent_eq hvisit hvisited).skipped x hskip
    constructor
    · rintro (hahead | hnew)
      · exact hnot.1 hahead
      · omega
    · rintro (hahead | hnew)
      · exact (hapart x hahead).2.2.2 hskip
      · omega
  · rintro x (hahead₁ | hnew₁) (hahead₂ | hnew₂)
    · exact (hapart x hahead₂).2.2.1 hahead₁
    · have := hlt x hahead₁
      omega
    · have := (hapart x hahead₂).1
      omega
    · omega

end Turn

/-! ### The whole walk -/

/-- A child that was kept is not touched by the rest of the loop. -/
theorem Turned.clear_kept {child : Nat} {pre post passed todo : List Nat} {r : Reaction} {kind : Kind}
    (h : Turned node child pre post w w' r passed todo) (hkept : r.kept = some kind) :
    w'.doc.Clear todo (some node) child := by
  have hwf := h.advanced.wf
  have hpassed : child ∈ passed := by simp [h.passed_eq, hkept]
  apply hwf.clear_of_sibling (by simp [h.children_eq, hpassed])
  intro t ht
  refine ⟨by simp [h.children_eq, ht], ?_⟩
  rintro rfl
  have hnodup := hwf.nodup_children node
  rw [h.children_eq, List.nodup_append] at hnodup
  exact hnodup.2.2 t hpassed t ht rfl

/-- The loop covers what is behind the cursor, and stops at all that stands there in the end. -/
theorem Tours.covers (h : Tours node index w stops w') {pre todo : List Nat} (hcursor : Cursor w node pre todo)
    (hindex : index = pre.length) :
    Covers stops (Ahead w w' todo) ∧
      ∃ walked, w'.doc.children node = pre ++ walked ∧ ∀ x, w'.doc.Below walked x → x ∈ stops.map Stop.node := by
  induction h generalizing pre todo with
  | @done node index w hchild =>
    rw [hindex, hcursor.childAt?_eq, List.head?_eq_none_iff] at hchild
    subst hchild
    refine ⟨⟨List.nodup_nil, ?_, by simp⟩, [], hcursor.children_eq, fun x hx => absurd hx (not_below_nil x)⟩
    intro x
    simp [Ahead, not_below_nil]
  | @next node index child w w₁ w₂ w' below rest hchild hvisit hbelow hrest ihbelow ihrest =>
    obtain ⟨post, rfl⟩ := hcursor.exists_eq_cons (hindex ▸ hchild)
    have hparent := hcursor.parent_eq
    have hreacts := visit_reacts hcursor.wf hparent
    rw [hvisit] at hreacts
    obtain ⟨r, body, hr, hvisited⟩ := hreacts
    obtain ⟨hadvanced, hshrink⟩ := hbelow.walks.swept (Cursor.start hvisited.wf child) rfl
    obtain ⟨passed, todo, hturned⟩ := hcursor.turned hvisited hr hadvanced hshrink
    rw [hparent] at hrest ihrest
    have hpassed := hindex ▸ hturned.length_passed
    obtain ⟨hcovers₁, walked₁, hwalked₁, hreached₁⟩ := ihbelow (Cursor.start hvisited.wf child) rfl
    obtain ⟨hcovers₂, walked₂, hwalked₂, hreached₂⟩ := ihrest hturned.cursor hpassed
    have hswept := (hrest.walks.swept hturned.cursor hpassed).1
    refine ⟨hturned.covers hcursor hvisited hadvanced hvisit hswept.frame.next_le hcovers₁ hcovers₂,
      (r.kept.map fun _ => child).toList ++ walked₂, ?_, ?_⟩
    · rw [hwalked₂, hturned.passed_eq, List.append_assoc]
    · intro x hx
      rw [List.cons_append, List.map_cons, List.map_append, List.mem_cons, List.mem_append]
      rcases below_append.1 hx with ⟨t, ht, hspan⟩ | hx
      · obtain ⟨kind, hkept, rfl⟩ : ∃ kind, r.kept = some kind ∧ child = t := by simpa using ht
        have hspan₂ : w₂.doc.Spans child x :=
          hswept.frame.spans_of_clear hturned.advanced.wf hswept.wf (hturned.clear_kept hkept) hspan
        rcases hadvanced.wf.spans_iff_below.1 hspan₂ with rfl | hx
        · exact Or.inl rfl
        · rw [hwalked₁] at hx
          exact Or.inr (Or.inl (hreached₁ x hx))
      · exact Or.inr (Or.inr (hreached₂ x hx))

/-- The walk of a node succeeds, and makes the stops in the list. -/
inductive Toured (node : Nat) (w : Workspace) : List Stop → Workspace → Prop
  | intro {w₁ w₂ : Workspace} {below : List Stop} (hvisit : visit node w = .ok () w₁)
      (hbelow : Tours node 0 w₁ below w₂) :
      Toured node w (⟨node, w⟩ :: below) (leave node (w.doc.parent node) w₁.run.scope w₂)

theorem Toured.tally_eq (h : Toured node w stops w') :
    w'.tally = (w.tally.1 + stops.length, (stops.map Stop.node).reverse ++ w.tally.2) := by
  obtain ⟨hvisit, hbelow⟩ := h
  rw [tally_leave, hbelow.tally_eq, tally_visit hvisit]
  refine Prod.ext ?_ ?_
  · simp only [List.length_cons]
    omega
  · simp

/-- A node that has no parent and is no conditional is kept, so that nothing comes after what is below it. -/
theorem Toured.covers {top : Nat} (h : Toured top w stops w') (hwf : w.doc.WellFormed) (hlt : top < w.doc.next)
    (hparent : w.doc.parent top = none) (hkind : w.doc.kind top ≠ .conditional) :
    Covers stops (Ahead w w' [top]) ∧ ∀ x, w'.doc.Spans top x → x ∈ stops.map Stop.node := by
  obtain @⟨w₁, w₂, below, hvisit, hbelow⟩ := h
  obtain ⟨_, kind, hvisit', hdoc, -⟩ := visit_of_parent_none hwf hlt hparent
  obtain ⟨-, rfl⟩ := EStateM.Result.ok.inj (hvisit.symm.trans hvisit')
  have hcursor := Cursor.start hdoc.wf top
  obtain ⟨hcovers, walked, hwalked, hreached⟩ := hbelow.covers hcursor rfl
  have hadvanced := (hbelow.walks.swept hcursor rfl).1
  have hle : w₁.doc.next ≤ w₂.doc.next := hadvanced.frame.next_le
  have hplace := (accounted_retyped hwf hdoc hkind).place_iff
  have hnext := hdoc.next_eq
  constructor
  · show Covers (⟨top, w⟩ :: below) (Ahead w w₂ [top])
    rw [← List.append_nil (_ :: below)]
    refine hcovers.cons Covers.nil ?_ ⟨?_, ?_, not_false⟩ ?_ ?_
    · intro x
      have hnone : ¬ (w.doc.next ≤ x ∧ x < w₁.doc.next) := by omega
      have htop : w.doc.Spans top x ↔ x = top ∨ Stop.Skips ⟨top, w⟩ x ∨ w₁.doc.Below (w₁.doc.children top) x := by
        simpa [hnone, not_below_nil] using hplace x
      simp only [Ahead, below_cons, not_below_nil, or_false, htop, hnext, or_assoc]
    · exact fun hskip => hkind hskip.1
    · rintro (⟨c, hc, hspan⟩ | hnew)
      · exact hdoc.wf.not_spans_parent (hdoc.wf.mem_children_iff.1 hc) hspan
      · simp only at hnew
        omega
    · exact fun x hskip => absurd hskip.1 hkind
    · exact fun x _ => not_false
  · intro x hspan
    rcases hadvanced.wf.spans_iff_below.1 hspan with rfl | hx
    · exact List.mem_cons_self
    · rw [hwalked] at hx
      exact List.mem_cons_of_mem _ (hreached x hx)

/-- An evaluation of the whole document that succeeds visits no node twice. It visits the nodes that are in the tree at
the start and those that it makes, except for those that are skipped at a conditional. All nodes that are in the tree
at the end are among them. As many visits are counted. -/
theorem evaluate_root_visits_once {gone : Bool} (hwf : w.doc.WellFormed) {directory : Option String}
    (hroot : w.doc.kind root = .stylesheet directory) (hrun : evaluate root w = .ok gone w') :
    ∃ stops, Toured root w stops w' ∧
      w'.log.filterMap Event.visited? = (stops.map Stop.node).reverse ++ w.log.filterMap Event.visited? ∧
      w'.run.stats.visits = w.run.stats.visits + stops.length ∧
      (stops.map Stop.node).Nodup ∧
      (∀ id, id ∈ stops.map Stop.node ↔
        (id ∈ w.doc.descendants root ∨ w.doc.next ≤ id ∧ id < w'.doc.next) ∧ ∀ stop ∈ stops, ¬ stop.Skips id) ∧
      ∀ id ∈ w'.doc.descendants root, id ∈ stops.map Stop.node := by
  have hevaluates := evaluates_evaluate hwf hwf.root_lt_next
  rw [hrun] at hevaluates
  obtain ⟨site, hadvanced⟩ := hevaluates.completed hwf hwf.root_lt_next
  obtain ⟨stops, htoured⟩ : ∃ stops, Toured root w stops w' := by
    cases hevaluates with
    | done hvisit hbelow =>
      obtain ⟨below, hbelow⟩ := hbelow.exists_tours rfl
      exact ⟨_, Toured.intro hvisit hbelow⟩
  obtain ⟨⟨hnodup, hmem, -⟩, hreached⟩ := htoured.covers hwf hwf.root_lt_next hwf.parent_root (by simp [hroot])
  obtain ⟨hvisits, hlog⟩ := Prod.mk.inj htoured.tally_eq
  refine ⟨stops, htoured, hlog, hvisits, hnodup, ?_, ?_⟩
  · intro id
    rw [hmem, hwf.mem_descendants, Ahead, below_cons]
    simp [not_below_nil]
  · intro id hid
    exact hreached id (hadvanced.wf.mem_descendants.1 hid)

/-- A variable, a conditional with a comment and two branches of which the second one is taken, and a rule. The branch
and the rule include a mixin with two nodes in its body. -/
def patchwork : Workspace where
  doc := (Document.instantiate
    ⟨#[{ kind := .stylesheet none, slots := #[1, 2, 9] }, { kind := .assignment "c" "red" false, parent := some 0 },
       { kind := .conditional, parent := some 0, slots := #[3, 4, 6] },
       { kind := .comment "", parent := some 2 },
       { kind := .branch (some "$c == blue"), parent := some 2, slots := #[5] },
       { kind := .raw "x", parent := some 4 },
       { kind := .branch none, parent := some 2, slots := #[7, 8] },
       { kind := .declaration "color" "$c", parent := some 6 },
       { kind := .inclusion "m" [], parent := some 6 },
       { kind := .rule ".a", parent := some 0, slots := #[10] },
       { kind := .inclusion "m" [], parent := some 9 }]⟩
    ⟨.mixin "m" [], [⟨.rule ".b", [⟨.raw "y", []⟩]⟩]⟩).1
  run := { mixins := Std.TreeMap.empty.insert "m" 11, expansionLimit := 2 }

theorem evaluate_patchwork :
    ∃ gone w' stops, evaluate root patchwork = .ok gone w' ∧ Toured root patchwork stops w' ∧
      stops.map Stop.node = [0, 1, 2, 7, 8, 14, 15, 9, 10, 16, 17] ∧ w'.run.stats.visits = 11 ∧
      ∀ id ∈ w'.doc.descendants root, id ∈ [0, 1, 2, 7, 8, 14, 15, 9, 10, 16, 17] := by
  have hwf : patchwork.doc.WellFormed := by
    apply WellFormed.instantiate
    refine (ofFragment_spec (f := ⟨.stylesheet none, [⟨.assignment "c" "red" false, []⟩,
      ⟨.conditional, [⟨.comment "", []⟩, ⟨.branch (some "$c == blue"), [⟨.raw "x", []⟩]⟩,
        ⟨.branch none, [⟨.declaration "color" "$c", []⟩, ⟨.inclusion "m" [], []⟩]⟩]⟩,
      ⟨.rule ".a", [⟨.inclusion "m" [], []⟩]⟩]⟩) ?_).1
    rfl
  have hvalue : Outcome.read? (fun w => (w.log.filterMap Event.visited?).reverse) (evaluate root patchwork) =
      some [0, 1, 2, 7, 8, 14, 15, 9, 10, 16, 17] := by
    decide +kernel
  have hroot : patchwork.doc.kind root = .stylesheet none := rfl
  obtain ⟨gone, w', hrun, hvisited⟩ := Outcome.exists_of_read?_eq_some hvalue
  obtain ⟨stops, htoured, hlog, hvisits, -, -, hreached⟩ := evaluate_root_visits_once hwf hroot hrun
  have hnodes : stops.map Stop.node = [0, 1, 2, 7, 8, 14, 15, 9, 10, 16, 17] := by
    rw [hlog] at hvisited
    simpa [patchwork] using hvisited
  refine ⟨gone, w', stops, hrun, htoured, hnodes, ?_, hnodes ▸ hreached⟩
  rw [hvisits, ← List.length_map Stop.node, hnodes]
  rfl

end Pass

end NestedStyles
