import Mathlib.Data.List.Nodup
import Std.Data.TreeSet.Lemmas
import NestedStyles.Proofs.Document.Content
import NestedStyles.Proofs.Document.Instantiation
import NestedStyles.Proofs.Document.Verification

/-!
# Going up and down a document

The loops that follow the links of a document, each as a relation with no bound on its steps: the climb from a node to
the top in search of another one (`Climbs`), the listing of what is below the nodes on a stack (`Lists`), the reading of
a fragment (`Reads`) and the check (`Checks`). In a well-formed document they all end, and what they come to is what
the functions with a bound compute. In particular the descendants of a node are the node followed by the descendants of
its children (`WellFormed.descendants_eq`). They are the nodes that it spans, each listed once.
-/

namespace NestedStyles

theorem Fragment.sizeAll_reverse (fs : List Fragment) : sizeAll fs.reverse = sizeAll fs := by
  induction fs with
  | nil => rfl
  | cons f fs ih =>
    rw [List.reverse_cons, sizeAll_append, ih, sizeAll_cons, sizeAll_cons, sizeAll_nil]
    omega

theorem Fragment.length_le_sizeAll (fs : List Fragment) : fs.length ≤ sizeAll fs := by
  induction fs with
  | nil => exact Nat.le_refl 0
  | cons f fs ih =>
    have hpos := f.size_pos
    rw [List.length_cons, sizeAll_cons]
    omega

theorem Fragment.size_le_sizeAll {f : Fragment} {fs : List Fragment} (h : f ∈ fs) : f.size ≤ sizeAll fs := by
  obtain ⟨before, after, rfl⟩ := List.append_of_mem h
  rw [sizeAll_append, sizeAll_cons]
  omega

namespace Document

/-- The climb from a node in search of `target` ends, with the answer whether it was met. -/
inductive Climbs (doc : Document) (target : Nat) : Nat → Bool → Prop
  | found : Climbs doc target target true
  | missed {node : Nat} (hne : node ≠ target) (htop : doc.parent node = none) : Climbs doc target node false
  | up {node parent : Nat} {answer : Bool} (hne : node ≠ target) (hparent : doc.parent node = some parent)
      (hrest : Climbs doc target parent answer) : Climbs doc target node answer

/-- The loop that takes a node from a stack and puts its children there instead ends, with the nodes in the order in
which they were taken. -/
inductive Lists (doc : Document) : List Nat → List Nat → Prop
  | done : Lists doc [] []
  | take {id : Nat} {stack out : List Nat} (hrest : Lists doc (doc.children id ++ stack) out) :
      Lists doc (id :: stack) (id :: out)

mutual

/-- The reading of what is at and below a node ends with a fragment. -/
inductive Reads (doc : Document) : Nat → Fragment → Prop
  | node {id : Nat} {fs : List Fragment} (hbelow : ReadsAll doc (doc.children id) fs) :
      Reads doc id ⟨doc.kind id, fs⟩

inductive ReadsAll (doc : Document) : List Nat → List Fragment → Prop
  | nil : ReadsAll doc [] []
  | cons {id : Nat} {ids : List Nat} {f : Fragment} {fs : List Fragment} (hfirst : Reads doc id f)
      (hrest : ReadsAll doc ids fs) : ReadsAll doc (id :: ids) (f :: fs)

end

/-- The check of the nodes on a stack and of those below them ends with an answer. -/
inductive Checks (doc : Document) : Std.TreeSet Nat → List Nat → Except EditError Unit → Prop
  | done {seen : Std.TreeSet Nat} : Checks doc seen [] (.ok ())
  | twice {seen : Std.TreeSet Nat} {id : Nat} {stack : List Nat} (hseen : seen.contains id = true) :
      Checks doc seen (id :: stack) (.error (.inconsistent (.reachedTwice id)))
  | misplaced {seen : Std.TreeSet Nat} {id child : Nat} {stack : List Nat} (hseen : seen.contains id = false)
      (hfind : ((doc.children id).find? fun child => doc.parent child ≠ some id) = some child) :
      Checks doc seen (id :: stack) (.error (.inconsistent (.misplaced child id (doc.parent child))))
  | next {seen : Std.TreeSet Nat} {id : Nat} {stack : List Nat} {answer : Except EditError Unit}
      (hseen : seen.contains id = false)
      (hfind : ((doc.children id).find? fun child => doc.parent child ≠ some id) = none)
      (hrest : Checks doc (seen.insert id) ((doc.children id).reverse ++ stack) answer) :
      Checks doc seen (id :: stack) answer

variable {doc : Document}

/-! ### Upwards -/

/-- A climb ends at the top, or before if it meets what it looks for. -/
theorem WellFormed.climbs (hwf : doc.WellFormed) (target node : Nat) :
    doc.Climbs target node ((doc.lineage node).contains target) := by
  obtain ⟨rank, hrank⟩ := hwf.ranked
  induction hr : rank node using Nat.strongRecOn generalizing node with
  | ind r ih =>
    rw [hwf.lineage_eq]
    by_cases heq : node = target
    · subst heq
      rw [List.contains_cons, BEq.rfl, Bool.true_or]
      exact Climbs.found
    · cases hp : doc.parent node with
      | none =>
        have hmiss : [node].contains target = false := by simp [Ne.symm heq]
        simp only [hmiss]
        exact Climbs.missed heq hp
      | some parent =>
        have hskip : (node :: doc.lineage parent).contains target = (doc.lineage parent).contains target := by
          simp [Ne.symm heq]
        simp only [hskip]
        exact Climbs.up heq hp (ih (rank parent) (hr ▸ hrank hp) parent rfl)

/-! ### Downwards -/

theorem Lists.unique {stack out out' : List Nat} (h : doc.Lists stack out) (h' : doc.Lists stack out') :
    out = out' := by
  induction h generalizing out' with
  | done =>
    cases h'
    rfl
  | take _ ih =>
    cases h' with
    | take hrest' => rw [ih hrest']

theorem Lists.append {stack stack' out out' : List Nat} (h : doc.Lists stack out) (h' : doc.Lists stack' out') :
    doc.Lists (stack ++ stack') (out ++ out') := by
  induction h with
  | done => exact h'
  | take _ ih =>
    rw [List.append_assoc] at ih
    exact Lists.take ih

/-- With as many steps as there are nodes at and below those on the stack, the loop does what it does without a
bound. -/
theorem WellFormed.lists_sweep (hwf : doc.WellFormed) {steps : Nat} {stack : List Nat}
    (hsteps : Fragment.sizeAll (stack.map doc.fragment) ≤ steps) : doc.Lists stack (doc.sweep steps stack) := by
  induction steps generalizing stack with
  | zero =>
    cases stack with
    | nil => exact Lists.done
    | cons id stack =>
      have hpos := (doc.fragment id).size_pos
      rw [List.map_cons, Fragment.sizeAll_cons] at hsteps
      omega
  | succ steps ih =>
    cases stack with
    | nil => exact Lists.done
    | cons id stack =>
      have hsize := (doc.fragment id).size_eq
      rw [hwf.children_fragment] at hsize
      rw [List.map_cons, Fragment.sizeAll_cons] at hsteps
      refine Lists.take (ih ?_)
      rw [List.map_append, Fragment.sizeAll_append]
      omega

namespace WellFormed

variable (hwf : doc.WellFormed)
include hwf

/-- Also a number that is not in use reads as a fragment no larger than the document. -/
theorem size_fragment_le_next (id : Nat) : (doc.fragment id).size ≤ doc.next := by
  by_cases hlt : id < doc.next
  · exact hwf.size_fragment_le hlt
  · have hpos := hwf.next_pos
    rw [hwf.fragment_eq, children_of_le (by omega), Fragment.size_eq]
    simp only [List.map_nil, Fragment.sizeAll_nil]
    omega

theorem length_children_lt (id : Nat) : (doc.children id).length < doc.next := by
  have hsize := hwf.size_fragment_le_next id
  have hlength := Fragment.length_le_sizeAll ((doc.children id).map doc.fragment)
  rw [Fragment.size_eq, hwf.children_fragment] at hsize
  rw [List.length_map] at hlength
  omega

theorem size_fragment_lt {parent node : Nat} (h : node ∈ doc.children parent) :
    (doc.fragment node).size < (doc.fragment parent).size := by
  have hle := Fragment.size_le_sizeAll (List.mem_map_of_mem (f := doc.fragment) h)
  rw [(doc.fragment parent).size_eq, hwf.children_fragment]
  omega

theorem lists_descendants (id : Nat) : doc.Lists [id] (doc.descendants id) := by
  apply hwf.lists_sweep
  simpa using hwf.size_fragment_le_next id

theorem lists_flatMap (ids : List Nat) : doc.Lists ids (ids.flatMap doc.descendants) := by
  induction ids with
  | nil => exact Lists.done
  | cons id ids ih => exact (hwf.lists_descendants id).append ih

/-- The descendants of a node are listed in pre-order. -/
theorem descendants_eq (id : Nat) : doc.descendants id = id :: (doc.children id).flatMap doc.descendants := by
  apply (hwf.lists_descendants id).unique
  apply Lists.take
  simpa using hwf.lists_flatMap (doc.children id)

theorem mem_descendants {id x : Nat} : x ∈ doc.descendants id ↔ doc.Spans id x := by
  induction id using hwf.children_induction generalizing x with
  | step id ih =>
    rw [hwf.descendants_eq, List.mem_cons, List.mem_flatMap]
    constructor
    · rintro (rfl | ⟨c, hc, hx⟩)
      · exact Spans.refl doc x
      · exact (Spans.of_parent (hwf.mem_children_iff.1 hc)).trans ((ih c hc).1 hx)
    · intro hspan
      by_cases hx : x = id
      · exact Or.inl hx
      · right
        -- the climb from `x` comes through a child of `id`
        refine Spans.climb (motive := fun x => x ≠ id → ∃ c ∈ doc.children id, x ∈ doc.descendants c) ?_ ?_ hspan hx
        · exact fun hne => absurd rfl hne
        · intro y p hp _ ihp _
          by_cases hpid : p = id
          · subst hpid
            refine ⟨y, hwf.mem_children_iff.2 hp, ?_⟩
            rw [hwf.descendants_eq]
            exact List.mem_cons_self
          · obtain ⟨c, hc, hmem⟩ := ihp hpid
            exact ⟨c, hc, (ih c hc).2 (((ih c hc).1 hmem).down hp)⟩

/-- A node spans itself and what its children span. -/
theorem spans_iff {id x : Nat} : doc.Spans id x ↔ x = id ∨ ∃ c ∈ doc.children id, doc.Spans c x := by
  rw [← hwf.mem_descendants, hwf.descendants_eq, List.mem_cons, List.mem_flatMap]
  simp only [hwf.mem_descendants]

theorem nodup_descendants (id : Nat) : (doc.descendants id).Nodup := by
  induction id using hwf.children_induction with
  | step id ih =>
    rw [hwf.descendants_eq, List.nodup_cons, List.nodup_flatMap]
    refine ⟨?_, ih, ?_⟩
    · intro hmem
      obtain ⟨c, hc, hid⟩ := List.mem_flatMap.1 hmem
      exact hwf.not_spans_parent (hwf.mem_children_iff.1 hc) (hwf.mem_descendants.1 hid)
    · -- two children have nothing below them in common
      refine (hwf.nodup_children id).imp_of_mem ?_
      intro a b ha hb hne x hxa hxb
      exact hne (hwf.eq_of_spans_siblings (hwf.mem_children_iff.1 ha) (hwf.mem_children_iff.1 hb)
        (hwf.mem_descendants.1 hxa) (hwf.mem_descendants.1 hxb))

omit hwf in
private theorem readsAll_of_forall {ids : List Nat} (h : ∀ id ∈ ids, doc.Reads id (doc.fragment id)) :
    doc.ReadsAll ids (ids.map doc.fragment) := by
  induction ids with
  | nil => exact ReadsAll.nil
  | cons id ids ih =>
    exact ReadsAll.cons (h id List.mem_cons_self) (ih fun other hother => h other (List.mem_cons_of_mem id hother))

theorem reads_fragment (id : Nat) : doc.Reads id (doc.fragment id) := by
  induction id using hwf.children_induction with
  | step id ih =>
    rw [hwf.fragment_eq]
    exact Reads.node (readsAll_of_forall ih)

/-! ### The check -/

/-- The check has nothing to object to, and ends since each step leaves fewer nodes to be seen. -/
theorem checks_of_visiting {seen : Std.TreeSet Nat} {stack : List Nat} (h : Visiting doc seen stack) :
    doc.Checks seen stack (.ok ()) := by
  induction hsize : Fragment.sizeAll (stack.map doc.fragment) using Nat.strongRecOn generalizing seen stack with
  | ind size ih =>
    cases stack with
    | nil => exact Checks.done
    | cons id stack =>
      have hless : Fragment.sizeAll (((doc.children id).reverse ++ stack).map doc.fragment) < size := by
        have heq := (doc.fragment id).size_eq
        rw [hwf.children_fragment] at heq
        rw [List.map_cons, Fragment.sizeAll_cons] at hsize
        rw [List.map_append, Fragment.sizeAll_append, List.map_reverse, Fragment.sizeAll_reverse]
        omega
      exact Checks.next (h.contains_eq_false) (hwf.find?_misplaced id) (ih _ hless (h.step hwf) rfl)

theorem checks_root : doc.Checks ∅ [root] (.ok ()) := hwf.checks_of_visiting hwf.visiting_root

end WellFormed

/-! ### Numbers in pre-order -/

mutual

theorem Laid.descendants_eq {doc : Document} (hwf : doc.WellFormed) {parent : Option Nat} {start : Nat} :
    {f : Fragment} → doc.Laid parent start f → doc.descendants start = List.range' start f.size
  | ⟨kind, children⟩, hlaid => by
    rw [Laid] at hlaid
    obtain ⟨_, _, hchildren, hall⟩ := hlaid
    have hsize : Fragment.size ⟨kind, children⟩ = Fragment.sizeAll children + 1 := rfl
    rw [hwf.descendants_eq, hchildren, LaidAll.descendants_eq hwf hall, hsize, List.range'_succ]

theorem LaidAll.descendants_eq {doc : Document} (hwf : doc.WellFormed) {parent : Option Nat} {start : Nat} :
    {fs : List Fragment} → doc.LaidAll parent start fs →
      (starts start fs).flatMap doc.descendants = List.range' start (Fragment.sizeAll fs)
  | [], _ => rfl
  | f :: fs, hlaid => by
    rw [LaidAll] at hlaid
    rw [starts, List.flatMap_cons, hlaid.1.descendants_eq hwf, LaidAll.descendants_eq hwf hlaid.2,
      Fragment.sizeAll_cons, List.range'_append_1]

end

/-- The nodes of a document made from a fragment are numbered in pre-order. -/
theorem descendants_ofFragment {f : Fragment} {doc : Document} (h : ofFragment f = .ok doc) :
    doc.descendants root = List.range f.size := by
  rw [(laid_ofFragment h).2.descendants_eq (ofFragment_spec h).1, List.range_eq_range']
  rfl

end Document

end NestedStyles
