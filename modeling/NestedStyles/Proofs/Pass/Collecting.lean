import Mathlib.Data.List.Induction
import Std.Data.TreeMap.Lemmas
import Std.Data.TreeSet.Lemmas
import NestedStyles.Collecting
import NestedStyles.Proofs.Document.Order
import NestedStyles.Proofs.Document.Traversal
import NestedStyles.Proofs.Pass.Trimming

/-!
# What collecting gathers

Collecting comes by the nodes of the tree that are not inside of a definition, in document order. It takes out those of
them that are definitions, the `outermost` ones, and notes the conditionals. Each such node is found as it was, because
what has been taken out before is not below it (`collectWithin_gathers`). So the state of the run is that of meeting
these nodes one after the other (`collect_run`). Afterwards there is no definition left in the tree, and the mixins that
are known are definitions out of it. The last definition of a name is the one that counts (`collect_gathers`).
-/

namespace NestedStyles

open Document

/-- Whether a node is the definition of a mixin. -/
def Kind.isMixin : Kind → Bool
  | mixin _ _ => true
  | _ => false

/-- The name of the mixin that a node of the kind defines. -/
def Kind.mixinName? : Kind → Option String
  | mixin name _ => some name
  | _ => none

theorem Kind.isMixin_of_mixinName? {kind : Kind} {name : String} (h : kind.mixinName? = some name) :
    kind.isMixin = true := by
  cases kind <;> simp_all [mixinName?, isMixin]

/-- The run after collecting has come by a node of the given kind. -/
def Run.meet (run : Run) (kind : Kind) (node : Nat) : Run :=
  match kind with
  | .mixin name _ =>
    { run with
      mixins := run.mixins.insert name node
      stats.mixinsCollected := run.stats.mixinsCollected + 1 }
  | .conditional => (run.registerConditional node).1
  | _ => run

/-- The run after collecting has come by some nodes, in their order. -/
def Run.meetAll (doc : Document) (nodes : List Nat) (run : Run) : Run :=
  nodes.foldl (fun run node => run.meet (doc.kind node) node) run

namespace Run

variable {doc : Document} {run : Run}

@[simp]
theorem meetAll_nil (doc : Document) (run : Run) : run.meetAll doc [] = run := rfl

@[simp]
theorem meetAll_append (doc : Document) (l₁ l₂ : List Nat) (run : Run) :
    run.meetAll doc (l₁ ++ l₂) = (run.meetAll doc l₁).meetAll doc l₂ := List.foldl_append

@[simp]
theorem meetAll_singleton (doc : Document) (node : Nat) (run : Run) :
    run.meetAll doc [node] = run.meet (doc.kind node) node := rfl

theorem mixins_meet (run : Run) (kind : Kind) (node : Nat) (name : String) :
    (run.meet kind node).mixins[name]? =
      if kind.mixinName? = some name then some node else run.mixins[name]? := by
  cases kind with
  | mixin other params =>
    show (run.mixins.insert other node)[name]? = _
    rw [Std.TreeMap.getElem?_insert]
    simp [Kind.mixinName?]
  | _ => simp [meet, Kind.mixinName?, registerConditional]

theorem mem_pending_meet {kind : Kind} {node x : Nat} :
    x ∈ (run.meet kind node).pending ↔ x ∈ run.pending ∨ x = node ∧ kind = .conditional := by
  cases kind with
  | conditional =>
    show x ∈ run.pending.insert node ↔ _
    rw [Std.TreeSet.mem_insert, Std.LawfulEqCmp.compare_eq_iff_eq, and_iff_left rfl, or_comm, eq_comm (a := node)]
  | _ => simp [meet]

theorem stats_meet (run : Run) (kind : Kind) (node : Nat) :
    (run.meet kind node).stats =
      { run.stats with
        mixinsCollected := run.stats.mixinsCollected + if kind.isMixin then 1 else 0 } := by
  cases kind <;> rfl

/-- What collecting does not touch. -/
theorem settings_meetAll (doc : Document) (nodes : List Nat) (run : Run) :
    (run.meetAll doc nodes).insertionPoints = run.insertionPoints ∧
      (run.meetAll doc nodes).expansionLimit = run.expansionLimit := by
  induction nodes using List.reverseRecOn with
  | nil => exact ⟨rfl, rfl⟩
  | append_singleton nodes x ih =>
    rw [meetAll_append, meetAll_singleton]
    cases doc.kind x <;> exact ih

/-- The last definition of a name counts, and without one what was there before. -/
theorem mixins_meetAll (doc : Document) (nodes : List Nat) (run : Run) (name : String) :
    (run.meetAll doc nodes).mixins[name]? =
      (nodes.filter fun x => (doc.kind x).mixinName? = some name).getLast?.or run.mixins[name]? := by
  induction nodes using List.reverseRecOn with
  | nil => simp
  | append_singleton nodes x ih =>
    rw [meetAll_append, meetAll_singleton, mixins_meet, ih, List.filter_append]
    by_cases hx : (doc.kind x).mixinName? = some name
    · simp [hx]
    · simp [hx]

theorem mem_pending_meetAll {nodes : List Nat} {x : Nat} :
    x ∈ (run.meetAll doc nodes).pending ↔ x ∈ run.pending ∨ x ∈ nodes ∧ doc.kind x = .conditional := by
  induction nodes using List.reverseRecOn with
  | nil => simp
  | append_singleton nodes y ih =>
    rw [meetAll_append, meetAll_singleton, mem_pending_meet, ih, List.mem_append, List.mem_singleton]
    constructor
    · rintro ((hbefore | ⟨hmem, hkind⟩) | ⟨rfl, hkind⟩)
      · exact Or.inl hbefore
      · exact Or.inr ⟨Or.inl hmem, hkind⟩
      · exact Or.inr ⟨Or.inr rfl, hkind⟩
    · rintro (hbefore | ⟨hmem | rfl, hkind⟩)
      · exact Or.inl (Or.inl hbefore)
      · exact Or.inl (Or.inr ⟨hmem, hkind⟩)
      · exact Or.inr ⟨rfl, hkind⟩

/-- Each conditional counts, where none is there twice. -/
theorem size_pending_meetAll {nodes : List Nat} (hnodup : nodes.Nodup) (hnew : ∀ x ∈ nodes, x ∉ run.pending) :
    (run.meetAll doc nodes).pending.size =
      run.pending.size + (nodes.filter fun x => doc.kind x = .conditional).length := by
  induction nodes using List.reverseRecOn with
  | nil => simp
  | append_singleton nodes x ih =>
    rw [List.nodup_append] at hnodup
    have hbefore := ih hnodup.1 fun y hy => hnew y (List.mem_append_left _ hy)
    have hx : x ∉ (run.meetAll doc nodes).pending := by
      rw [mem_pending_meetAll]
      rintro (hmem | ⟨hmem, -⟩)
      · exact hnew x (by simp) hmem
      · exact hnodup.2.2 x hmem x List.mem_cons_self rfl
    rw [meetAll_append, meetAll_singleton, List.filter_append, List.length_append, ← Nat.add_assoc, ← hbefore]
    cases hkind : doc.kind x with
    | conditional =>
      show ((run.meetAll doc nodes).pending.insert x).size = _
      rw [Std.TreeSet.size_insert, if_neg (mt Std.TreeSet.contains_iff_mem.1 hx)]
      simp [hkind]
    | _ => simp [meet, hkind]

theorem stats_meetAll (doc : Document) (nodes : List Nat) (run : Run) :
    (run.meetAll doc nodes).stats =
      { run.stats with
        mixinsCollected :=
          run.stats.mixinsCollected + (nodes.filter fun x => (doc.kind x).isMixin).length } := by
  induction nodes using List.reverseRecOn with
  | nil => simp
  | append_singleton nodes x ih =>
    rw [meetAll_append, meetAll_singleton, stats_meet, ih, List.filter_append, List.length_append]
    cases hx : (doc.kind x).isMixin
    · simp [hx]
    · simp [hx, Nat.add_assoc]

end Run

namespace Fragment

mutual

/-- The fragment without the definitions below its top, and without all that is inside of them. -/
def unmixed : Fragment → Fragment
  | ⟨kind, children⟩ => ⟨kind, unmixedAll children⟩

def unmixedAll : List Fragment → List Fragment
  | [] => []
  | f :: fs => if f.kind.isMixin then unmixedAll fs else f.unmixed :: unmixedAll fs

end

theorem unmixedAll_eq (fs : List Fragment) :
    unmixedAll fs = (fs.filter fun f => !f.kind.isMixin).map unmixed := by
  induction fs with
  | nil => rfl
  | cons f fs ih =>
    rw [unmixedAll, ih]
    cases hf : f.kind.isMixin
    · simp [hf]
    · simp [hf]

end Fragment

namespace Document

variable {doc doc' : Document} {x y : Nat}

/-- Whether a node is not inside of a definition. -/
def isExposed (doc : Document) (x : Nat) : Bool := (doc.lineage x).tail.all fun y => !(doc.kind y).isMixin

/-- The nodes at and below a node that are not inside of a definition, in document order. -/
def exposed (doc : Document) (x : Nat) : List Nat := (doc.descendants x).filter doc.isExposed

/-- The definitions in the tree that are not inside of another one, in document order. -/
def outermost (doc : Document) : List Nat := (doc.exposed root).filter fun x => (doc.kind x).isMixin

namespace WellFormed

variable (hwf : doc.WellFormed)

include hwf

theorem isExposed_root : doc.isExposed root = true := hwf.isFree_of_parent_none hwf.parent_root

/-- A child of a node that is no definition is exposed if the node is. -/
theorem isExposed_child (hx : doc.isExposed x = true) (hmixin : (doc.kind x).isMixin = false)
    (hy : y ∈ doc.children x) : doc.isExposed y = true :=
  hwf.isFree_child (p := fun y => (doc.kind y).isMixin) hx hmixin hy

/-- What is inside of a definition is not exposed. -/
theorem isExposed_eq_false (hmixin : (doc.kind x).isMixin = true) (hspan : doc.Spans x y) (hne : x ≠ y) :
    doc.isExposed y = false :=
  hwf.isFree_eq_false (p := fun y => (doc.kind y).isMixin) hmixin hspan hne

theorem mem_outermost : x ∈ doc.outermost ↔
    doc.Spans root x ∧ doc.isExposed x = true ∧ (doc.kind x).isMixin = true := by
  simp only [outermost, exposed, List.mem_filter, hwf.mem_descendants, and_assoc]

theorem exposed_of_mixin (hx : doc.isExposed x = true) (hmixin : (doc.kind x).isMixin = true) :
    doc.exposed x = [x] :=
  hwf.filter_isFree_of (p := fun y => (doc.kind y).isMixin) hx hmixin

theorem exposed_eq (hx : doc.isExposed x = true) :
    doc.exposed x = x :: (doc.children x).flatMap doc.exposed :=
  hwf.filter_isFree_eq (p := fun y => (doc.kind y).isMixin) hx

theorem spans_of_mem_exposed (h : y ∈ doc.exposed x) : doc.Spans x y :=
  hwf.mem_descendants.1 (List.mem_filter.1 h).1

end WellFormed

/-- A definition that has been taken out has all that was below it. -/
theorem Unlinked.children_below (h : Unlinked doc doc' doc.outermost) (hwf : doc.WellFormed) (hx : x ∈ doc.outermost)
    (hspan : doc.Spans x y) : doc'.children y = doc.children y := by
  apply h.children_eq_of_not_mem
  intro c hc hgone
  have hp := hwf.mem_children_iff.1 hc
  have hne : x ≠ c := by
    rintro rfl
    exact hwf.not_spans_parent hp hspan
  have hnot := hwf.isExposed_eq_false (hwf.mem_outermost.1 hx).2.2 (hspan.down hp) hne
  simp [(hwf.mem_outermost.1 hgone).2.1] at hnot

/-- The rest of the tree is the tree without the definitions. -/
theorem Unlinked.fragment_eq_unmixed (h : Unlinked doc doc' doc.outermost) (hwf : doc.WellFormed)
    (hroot : doc.Spans root x) (hx : doc.isExposed x = true) (hmixin : (doc.kind x).isMixin = false) :
    doc'.fragment x = (doc.fragment x).unmixed := by
  induction x using hwf.children_induction with
  | step x ih =>
    have hstays : (doc.children x).filter (· ∉ doc.outermost) =
        (doc.children x).filter fun c => !(doc.kind c).isMixin := by
      apply List.filter_congr
      intro c hc
      have hspan := hroot.down (hwf.mem_children_iff.1 hc)
      rw [Bool.eq_iff_iff]
      simp [hwf.mem_outermost, hspan, hwf.isExposed_child hx hmixin hc]
    rw [h.wf.fragment_eq, hwf.fragment_eq, h.kind_eq, h.children_eq, hstays, Fragment.unmixed,
      Fragment.unmixedAll_eq, List.filter_map, List.map_map]
    have hkinds : (doc.children x).filter ((fun f : Fragment => !f.kind.isMixin) ∘ doc.fragment) =
        (doc.children x).filter fun c => !(doc.kind c).isMixin := by
      apply List.filter_congr
      intro c _
      simp [hwf.kind_fragment]
    rw [hkinds]
    congr 1
    apply List.map_congr_left
    intro c hc
    obtain ⟨hc, hkind⟩ := List.mem_filter.1 hc
    rw [Bool.not_eq_true'] at hkind
    exact ih c hc (hroot.down (hwf.mem_children_iff.1 hc)) (hwf.isExposed_child hx hmixin hc) hkind

end Document

namespace Pass

variable {start : Document} {w w₁ w₂ : Workspace} {node : Nat} {gone met met₁ met₂ : List Nat}

/-- Between two states collecting has come by the nodes of `met`, which are of the kinds that they have in `start`. -/
structure Gathers (start : Document) (w w' : Workspace) (met : List Nat) : Prop where
  unlinked : Unlinked w.doc w'.doc (met.filter fun x => (start.kind x).isMixin)
  run_eq : w'.run = w.run.meetAll start met

theorem Gathers.append (h₁ : Gathers start w w₁ met₁) (h₂ : Gathers start w₁ w₂ met₂) :
    Gathers start w w₂ (met₁ ++ met₂) where
  unlinked := by
    rw [List.filter_append]
    exact h₁.unlinked.append h₂.unlinked
  run_eq := by rw [h₂.run_eq, h₁.run_eq, Run.meetAll_append]

/-- The workspace with a node noted if it is a conditional. -/
def noted (w : Workspace) (node : Nat) : Workspace :=
  if w.doc.kind node = .conditional then { w with run := (w.run.registerConditional node).1 } else w

theorem doc_noted (w : Workspace) (node : Nat) : (noted w node).doc = w.doc := by
  unfold noted
  split <;> rfl

/-- Collecting at a node that is no definition goes on with its children. -/
theorem collectWithin_of_not_mixin (hmixin : (w.doc.kind node).isMixin = false) (levels : Nat) :
    collectWithin levels node w = match levels with
      | 0 => .ok () (noted w node)
      | levels + 1 => (w.doc.children node).forM (collectWithin levels) (noted w node) := by
  unfold collectWithin noted
  simp only [run_bind, run_view]
  cases hkind : w.doc.kind node with
  | mixin name params => simp [hkind, Kind.isMixin] at hmixin
  | conditional => cases levels <;> simp
  | _ => cases levels <;> simp

/-- A definition is taken out and remembered, whatever the number of levels. -/
theorem collectWithin_meets_mixin (hwf : w.doc.WellFormed) (hkind : w.doc.kind node = start.kind node)
    (hmixin : (start.kind node).isMixin = true) (levels : Nat) :
    ∃ w', collectWithin levels node w = .ok () w' ∧ Gathers start w w' [node] := by
  have hunlinked := hwf.unlinked_detach node
  have hdefinition : [node].filter (fun x => (start.kind x).isMixin) = [node] := by simp [hmixin]
  cases hstart : start.kind node with
  | mixin name params =>
    rw [hstart] at hkind
    unfold collectWithin registerMixin
    simp only [run_bind, run_view, hkind, run_report, run_detach]
    -- whether the name was taken makes a difference to the log only
    cases w.run.mixins[name]? with
    | none | some _ => exact ⟨_, rfl, by rwa [hdefinition], by rw [Run.meetAll_singleton, hstart]; rfl⟩
  | _ => simp [hstart, Kind.isMixin] at hmixin

theorem gathers_noted (hwf : w.doc.WellFormed) (hkind : w.doc.kind node = start.kind node)
    (hmixin : (start.kind node).isMixin = false) : Gathers start w (noted w node) [node] where
  unlinked := by
    rw [doc_noted, List.filter_cons_of_neg (by simp [hmixin])]
    exact hwf.unlinked_nil
  run_eq := by
    rw [Run.meetAll_singleton, noted, hkind]
    cases hstart : start.kind node with
    | mixin name params => simp [hstart, Kind.isMixin] at hmixin
    | _ => rfl

/-- Collecting at some children of a node, where `collect` does so at a single one of them. What it does at one child is
outside of what is below the others. -/
theorem forM_collect_gathers {collect : Nat → Pass Unit} {parent : Nat} {nodes : List Nat} (hwf : start.WellFormed)
    (hcollect : ∀ {w : Workspace} {gone : List Nat}, ∀ node ∈ nodes, Unlinked start w.doc gone →
      (∀ y ∈ gone, ¬ start.Spans node y) →
        ∃ w', collect node w = .ok () w' ∧ Gathers start w w' (start.exposed node))
    (hparent : ∀ node ∈ nodes, start.parent node = some parent) (hnodup : nodes.Nodup)
    (h : Unlinked start w.doc gone) (hgone : ∀ node ∈ nodes, ∀ y ∈ gone, ¬ start.Spans node y) :
    ∃ w', nodes.forM collect w = .ok () w' ∧ Gathers start w w' (nodes.flatMap start.exposed) := by
  induction nodes generalizing w gone with
  | nil => exact ⟨w, rfl, h.wf.unlinked_nil, rfl⟩
  | cons node nodes ih =>
    obtain ⟨hnotin, hnodup'⟩ := List.nodup_cons.1 hnodup
    obtain ⟨w₁, hrun₁, hgathers₁⟩ := hcollect node List.mem_cons_self h (hgone node List.mem_cons_self)
    have hgone₁ : ∀ other ∈ nodes, ∀ y ∈ gone ++ (start.exposed node).filter (fun x => (start.kind x).isMixin),
        ¬ start.Spans other y := by
      intro other hother y hy hspan
      rcases List.mem_append.1 hy with hy | hy
      · exact hgone other (.tail node hother) y hy hspan
      · have hnode := hwf.spans_of_mem_exposed (List.mem_filter.1 hy).1
        have heq := hwf.eq_of_spans_siblings (hparent node List.mem_cons_self) (hparent other (.tail node hother))
          hnode hspan
        exact hnotin (heq ▸ hother)
    obtain ⟨w₂, hrun₂, hgathers₂⟩ := ih (fun other hother => hcollect other (.tail node hother))
      (fun other hother => hparent other (.tail node hother)) hnodup' (h.append hgathers₁.unlinked) hgone₁
    refine ⟨w₂, ?_, ?_⟩
    · simp only [List.forM_eq_forM, List.forM_cons, run_bind, hrun₁]
      exact hrun₂
    · rw [List.flatMap_cons]
      exact hgathers₁.append hgathers₂

/-- Collecting at an exposed node comes by the exposed nodes at and below it, as long as nothing has been taken out
there yet. -/
theorem collectWithin_gathers (levels : Nat) (hwf : start.WellFormed) (h : Unlinked start w.doc gone)
    (hexposed : start.isExposed node = true) (hgone : ∀ y ∈ gone, ¬ start.Spans node y)
    (hsize : (start.fragment node).size ≤ levels + 1) :
    ∃ w', collectWithin levels node w = .ok () w' ∧ Gathers start w w' (start.exposed node) := by
  induction levels generalizing w node gone with
  | zero =>
    have hkind := h.kind_eq node
    by_cases hmixin : (start.kind node).isMixin = true
    · rw [hwf.exposed_of_mixin hexposed hmixin]
      exact collectWithin_meets_mixin h.wf hkind hmixin 0
    · rw [Bool.not_eq_true] at hmixin
      have hleaf : start.children node = [] := by
        rw [List.eq_nil_iff_forall_not_mem]
        intro c hc
        have hlt := hwf.size_fragment_lt hc
        have hpos := (start.fragment c).size_pos
        omega
      rw [hwf.exposed_eq hexposed, hleaf]
      exact ⟨noted w node, collectWithin_of_not_mixin (by rw [hkind, hmixin]) 0, gathers_noted h.wf hkind hmixin⟩
  | succ levels ih =>
    have hkind := h.kind_eq node
    by_cases hmixin : (start.kind node).isMixin = true
    · rw [hwf.exposed_of_mixin hexposed hmixin]
      exact collectWithin_meets_mixin h.wf hkind hmixin (levels + 1)
    · rw [Bool.not_eq_true] at hmixin
      have hparent : ∀ c ∈ start.children node, start.parent c = some node := fun c hc => hwf.mem_children_iff.1 hc
      have hchildren : w.doc.children node = start.children node :=
        h.children_eq_of_not_mem fun c hc hmem => hgone c hmem (Spans.of_parent (hparent c hc))
      have hnoted : Unlinked start (noted w node).doc gone := by
        rw [doc_noted]
        exact h
      obtain ⟨w', hrun, hgathers⟩ := forM_collect_gathers hwf
        (fun c hc hw hclear => by
          have hlt := hwf.size_fragment_lt hc
          exact ih hw (hwf.isExposed_child hexposed hmixin hc) hclear (by omega))
        hparent (hwf.nodup_children node) hnoted
        fun c hc y hy hspan => hgone y hy ((Spans.of_parent (hparent c hc)).trans hspan)
      refine ⟨w', ?_, ?_⟩
      · rw [collectWithin_of_not_mixin (by rw [hkind, hmixin]), hchildren]
        exact hrun
      · rw [hwf.exposed_eq hexposed]
        exact (gathers_noted h.wf hkind hmixin).append hgathers

/-- Collecting always ends. It has come by all exposed nodes of the tree then. -/
theorem collect_run (hwf : w.doc.WellFormed) :
    ∃ w', collect root w = .ok () w' ∧ Gathers w.doc w w' (w.doc.exposed root) := by
  have hsize := hwf.size_fragment_le_next root
  exact collectWithin_gathers w.doc.next hwf hwf.unlinked_nil hwf.isExposed_root (by simp) (by omega)

namespace Gathers

variable (h : Gathers w.doc w w₁ (w.doc.exposed root)) (hwf : w.doc.WellFormed)

include h hwf

/-- No definition is left in the tree. -/
theorem isMixin_eq_false (hroot : (w.doc.kind root).isMixin = false) {x : Nat} (hx : w₁.doc.Spans root x) :
    (w.doc.kind x).isMixin = false := by
  suffices hfree : w.doc.isExposed x = true ∧ (w.doc.kind x).isMixin = false from hfree.2
  refine Spans.climb (motive := fun x => w.doc.isExposed x = true ∧ (w.doc.kind x).isMixin = false)
    ⟨hwf.isExposed_root, hroot⟩ ?_ hx
  rintro c p hp hspan ⟨hexposed, hkind⟩
  have hc := h.unlinked.mem_children_iff.1 (h.unlinked.wf.mem_children_iff.2 hp)
  have hexposed' := hwf.isExposed_child hexposed hkind hc.1
  refine ⟨hexposed', ?_⟩
  rw [← Bool.not_eq_true]
  intro hmixin
  exact hc.2 (hwf.mem_outermost.2 ⟨h.unlinked.trimmed.spans hwf (hspan.down hp), hexposed', hmixin⟩)

/-- Where nothing had been collected before, the mixins are definitions that were in the tree and are out of it now. -/
theorem definition_detached (hroot : (w.doc.kind root).isMixin = false) (hmixins : w.run.mixins = ∅) {name : String}
    {definition : Nat} (hname : w₁.run.mixins[name]? = some definition) :
    w.doc.Spans root definition ∧ (w.doc.kind definition).isMixin = true ∧ definition < w₁.doc.next ∧
      w₁.doc.isAttached definition = false := by
  rw [h.run_eq, Run.mixins_meetAll, hmixins, Std.TreeMap.getElem?_emptyc, Option.or_none] at hname
  obtain ⟨hmem, hdefines⟩ := List.mem_filter.1 (List.mem_of_getLast? hname)
  have hmixin : (w.doc.kind definition).isMixin = true := Kind.isMixin_of_mixinName? (of_decide_eq_true hdefines)
  have hspan := hwf.spans_of_mem_exposed hmem
  refine ⟨hspan, hmixin, ?_, ?_⟩
  · rw [h.unlinked.next_eq]
    exact hspan.lt_next hwf.root_lt_next
  · rw [← Bool.not_eq_true, h.unlinked.wf.isAttached_iff]
    intro hattached
    simp [h.isMixin_eq_false hwf hroot hattached] at hmixin

end Gathers

/-- Collecting in a stylesheet takes out the outermost definitions, each with all that is below it. The tree that is
left is the one before without these definitions. The last of them with a name is the mixin of that name, and without
one the mixin is the one there was. The conditionals that are not inside of a definition come to those still to be
decided, and the definitions are counted. -/
theorem collect_gathers (w : Workspace) (hwf : w.doc.WellFormed) {directory : Option String}
    (hroot : w.doc.kind root = .stylesheet directory) :
    ∃ w', collect root w = .ok () w' ∧ w'.doc.next = w.doc.next ∧
      (∀ x, w'.doc.kind x = w.doc.kind x ∧
        w'.doc.parent x = (if x ∈ w.doc.outermost then none else w.doc.parent x) ∧
        w'.doc.children x = (w.doc.children x).filter (· ∉ w.doc.outermost)) ∧
      (∀ x ∈ w.doc.outermost, w'.doc.fragment x = w.doc.fragment x ∧
        ∀ y, w.doc.Spans x y → w'.doc.children y = w.doc.children y) ∧
      w'.doc.fragment root = (w.doc.fragment root).unmixed ∧
      (∀ name : String, w'.run.mixins[name]? =
        (w.doc.outermost.filter fun x => (w.doc.kind x).mixinName? = some name).getLast?.or w.run.mixins[name]?) ∧
      (∀ x, x ∈ w'.run.pending ↔
        x ∈ w.run.pending ∨ x ∈ w.doc.exposed root ∧ w.doc.kind x = .conditional) ∧
      w'.run.stats =
        { w.run.stats with mixinsCollected := w.run.stats.mixinsCollected + w.doc.outermost.length } := by
  obtain ⟨w', hrun, hgathers⟩ := collect_run hwf
  have hunlinked : Unlinked w.doc w'.doc w.doc.outermost := hgathers.unlinked
  have hbelow {x y : Nat} (hx : x ∈ w.doc.outermost) (hspan : w.doc.Spans x y) :=
    hunlinked.children_below hwf hx hspan
  refine ⟨w', hrun, hunlinked.next_eq, fun x => ⟨hunlinked.kind_eq x, hunlinked.parent_eq x, hunlinked.children_eq x⟩,
    fun x hx => ⟨?_, fun y => hbelow hx⟩, ?_, fun name => ?_, fun x => ?_, ?_⟩
  · exact hwf.fragment_congr hunlinked.wf fun y hy => ⟨hunlinked.kind_eq y, hbelow hx hy⟩
  · exact hunlinked.fragment_eq_unmixed hwf (Spans.refl w.doc root) hwf.isExposed_root (by rw [hroot]; rfl)
  · have hnamed : w.doc.outermost.filter (fun x => (w.doc.kind x).mixinName? = some name) =
        (w.doc.exposed root).filter fun x => (w.doc.kind x).mixinName? = some name := by
      rw [outermost, List.filter_filter]
      apply List.filter_congr
      intro x _
      cases w.doc.kind x <;> simp [Kind.mixinName?, Kind.isMixin]
    rw [hgathers.run_eq, Run.mixins_meetAll, hnamed]
  · rw [hgathers.run_eq, Run.mem_pending_meetAll]
  · rw [hgathers.run_eq, Run.stats_meetAll]
    rfl

/-- Two definitions of one mixin, one of them in a rule, with a definition and a conditional in the first one. There
were mixins before. -/
def scattered : Workspace where
  doc :=
    ⟨#[{ kind := .stylesheet none, slots := #[1, 5, 9] },
       { kind := .mixin "m" [], parent := some 0, slots := #[2, 3, 4] },
       { kind := .mixin "inner" [], parent := some 1 }, { kind := .conditional, parent := some 1 },
       { kind := .declaration "top" "0", parent := some 1 },
       { kind := .rule ".a", parent := some 0, slots := #[6, 8] },
       { kind := .conditional, parent := some 5, slots := #[7] },
       { kind := .mixin "m" [], parent := some 6 }, { kind := .comment "", parent := some 5 },
       { kind := .mixin "k" [], parent := some 0 }]⟩
  run := { mixins := ((∅ : Std.TreeMap String Nat).insert "m" 3).insert "old" 4 }

theorem collect_scattered :
    ∃ w', collect root scattered = .ok () w' ∧
      w'.doc.fragment root =
        ⟨.stylesheet none, [⟨.rule ".a", [⟨.conditional, []⟩, ⟨.comment "", []⟩]⟩]⟩ ∧
      w'.doc.children 1 = [2, 3, 4] ∧ w'.doc.parent 7 = none ∧
      w'.run.mixins["m"]? = some 7 ∧ w'.run.mixins["old"]? = some 4 ∧ w'.run.mixins["inner"]? = none ∧
      6 ∈ w'.run.pending ∧ 3 ∉ w'.run.pending ∧ w'.run.stats.mixinsCollected = 3 := by
  have hwf : scattered.doc.WellFormed :=
    (ofFragment_spec (f := ⟨.stylesheet none, [⟨.mixin "m" [], [⟨.mixin "inner" [], []⟩, ⟨.conditional, []⟩,
      ⟨.declaration "top" "0", []⟩]⟩, ⟨.rule ".a", [⟨.conditional, [⟨.mixin "m" [], []⟩]⟩, ⟨.comment "", []⟩]⟩,
      ⟨.mixin "k" [], []⟩]⟩) rfl).1
  obtain ⟨w', hrun, -, hnodes, -, hfragment, hmixins, hpending, hstats⟩ := collect_gathers scattered hwf rfl
  have houtermost : scattered.doc.outermost = [1, 7, 9] := by decide +kernel
  have hexposed : scattered.doc.exposed root = [0, 1, 5, 6, 7, 8, 9] := by decide +kernel
  refine ⟨w', hrun, ?_, ?_, ?_, ?_, ?_, ?_, ?_, ?_, ?_⟩
  · rw [hfragment]
    decide +kernel
  · rw [(hnodes 1).2.2, houtermost]
    decide +kernel
  · rw [(hnodes 7).2.1, houtermost]
    rfl
  · rw [hmixins, houtermost]
    decide +kernel
  · rw [hmixins, houtermost]
    decide +kernel
  · rw [hmixins, houtermost]
    decide +kernel
  · rw [hpending, hexposed]
    exact Or.inr ⟨by decide, rfl⟩
  · rw [hpending, hexposed]
    decide +kernel
  · rw [hstats, houtermost]
    rfl

end Pass

end NestedStyles
