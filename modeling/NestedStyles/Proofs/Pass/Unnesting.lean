import Mathlib.Data.List.Nodup
import NestedStyles.Flattening
import NestedStyles.Proofs.Document.Traversal
import NestedStyles.Proofs.Pass.Trimming

/-!
# Taking nested rules out

A rule and those nested in it, in document order, each with its selector combined with that of the rule it is in, are
the recursively defined list `unnested`. Taking the nested rules out of a rule lists them in that order, gives them
those selectors and leaves each rule with the rest of its children (`Extracted`, `takeNested_extracts`). What is out can
then be put in again further up (`Extracted.insertable`).
-/

namespace NestedStyles

open Document

theorem Kind.exists_of_isRule {kind : Kind} (h : kind.isRule = true) : ∃ selector, kind = .rule selector := by
  cases kind with
  | rule selector => exact ⟨selector, rfl⟩
  | _ => simp [isRule] at h

namespace Document

/-- A rule with the given selector and the rules nested in it, in document order. The selector of a nested rule is
combined with that of the rule it is in. -/
def unnested (doc : Document) (hwf : doc.WellFormed) (rule : Nat) (selector : String) : List (Nat × Kind) :=
  (rule, .rule selector) :: (doc.children rule).attach.flatMap fun child =>
    match doc.kind child.1 with
    | .rule inner => doc.unnested hwf child.1 (Selector.combine selector inner)
    | _ => []
termination_by (doc.fragment rule).size
decreasing_by exact hwf.size_fragment_lt child.2

/-- What a child of a rule with the selector `outer` contributes to the rules nested in it. -/
def unnestedChild (doc : Document) (hwf : doc.WellFormed) (outer : String) (child : Nat) : List (Nat × Kind) :=
  match doc.kind child with
  | .rule inner => doc.unnested hwf child (Selector.combine outer inner)
  | _ => []

/-- What stands in the place of a node of the top level once it is flattened. -/
def unnestedTop (doc : Document) (hwf : doc.WellFormed) (top : Nat) : List (Nat × Kind) :=
  match doc.kind top with
  | .rule selector => doc.unnested hwf top selector
  | kind => [(top, kind)]

/-- The top level below `parent` once it is flattened: the nodes in order, with their kinds. -/
def flattened (doc : Document) (hwf : doc.WellFormed) (parent : Nat) : List (Nat × Kind) :=
  (doc.children parent).flatMap (doc.unnestedTop hwf)

/-- The children of a node that are no rules. -/
def plainChildren (doc : Document) (node : Nat) : List Nat :=
  (doc.children node).filter fun child => !(doc.kind child).isRule

variable {doc doc₁ doc₂ doc₃ doc' : Document}

section Lists

variable (hwf : doc.WellFormed)

theorem unnested_eq (rule : Nat) (selector : String) :
    doc.unnested hwf rule selector =
      (rule, .rule selector) :: (doc.children rule).flatMap (doc.unnestedChild hwf selector) := by
  rw [unnested, List.flatMap_subtype (g := doc.unnestedChild hwf selector) fun _ _ => rfl, List.unattach_attach]

theorem unnestedChild_of_rule {child : Nat} {inner : String} (outer : String) (h : doc.kind child = .rule inner) :
    doc.unnestedChild hwf outer child = doc.unnested hwf child (Selector.combine outer inner) := by
  simp only [unnestedChild, h]

theorem unnestedChild_of_not_rule {child : Nat} (outer : String) (h : (doc.kind child).isRule = false) :
    doc.unnestedChild hwf outer child = [] := by
  unfold unnestedChild
  split
  · next hkind => simp [hkind, Kind.isRule] at h
  · rfl

theorem unnestedTop_of_rule {top : Nat} {selector : String} (h : doc.kind top = .rule selector) :
    doc.unnestedTop hwf top = doc.unnested hwf top selector := by
  simp only [unnestedTop, h]

theorem unnestedTop_of_not_rule {top : Nat} (h : (doc.kind top).isRule = false) :
    doc.unnestedTop hwf top = [(top, doc.kind top)] := by
  unfold unnestedTop
  split
  · next hkind => simp [hkind, Kind.isRule] at h
  · rfl

theorem mem_unnestedChild {outer : String} {child : Nat} {entry : Nat × Kind} :
    entry ∈ doc.unnestedChild hwf outer child ↔
      ∃ inner, doc.kind child = .rule inner ∧ entry ∈ doc.unnested hwf child (Selector.combine outer inner) := by
  unfold unnestedChild
  cases doc.kind child <;> simp

theorem mem_unnested {rule : Nat} {selector : String} {entry : Nat × Kind} :
    entry ∈ doc.unnested hwf rule selector ↔
      entry = (rule, .rule selector) ∨ ∃ c ∈ doc.children rule, entry ∈ doc.unnestedChild hwf selector c := by
  rw [unnested_eq, List.mem_cons, List.mem_flatMap]

/-- The rules nested in a rule are below it. -/
theorem spans_of_mem_unnested {rule : Nat} {selector : String} {entry : Nat × Kind}
    (h : entry ∈ doc.unnested hwf rule selector) : doc.Spans rule entry.1 := by
  induction rule using hwf.children_induction generalizing selector with
  | step rule ih =>
    rcases (mem_unnested hwf).1 h with rfl | ⟨c, hc, hentry⟩
    · exact Spans.refl doc _
    · obtain ⟨inner, -, hentry⟩ := (mem_unnestedChild hwf).1 hentry
      exact (Spans.of_parent (hwf.mem_children_iff.1 hc)).trans (ih c hc hentry)

theorem spans_of_mem_unnestedChild {outer : String} {child : Nat} {entry : Nat × Kind}
    (h : entry ∈ doc.unnestedChild hwf outer child) : doc.Spans child entry.1 := by
  obtain ⟨inner, -, h⟩ := (mem_unnestedChild hwf).1 h
  exact spans_of_mem_unnested hwf h

theorem spans_of_mem_unnestedTop {top : Nat} {entry : Nat × Kind} (h : entry ∈ doc.unnestedTop hwf top) :
    doc.Spans top entry.1 := by
  unfold unnestedTop at h
  split at h
  · exact spans_of_mem_unnested hwf h
  · rw [List.mem_singleton.1 h]

theorem isRule_of_mem_unnested {rule : Nat} {selector : String} {entry : Nat × Kind}
    (h : entry ∈ doc.unnested hwf rule selector) : entry.2.isRule = true := by
  induction rule using hwf.children_induction generalizing selector with
  | step rule ih =>
    rcases (mem_unnested hwf).1 h with rfl | ⟨c, hc, hentry⟩
    · rfl
    · obtain ⟨inner, -, hentry⟩ := (mem_unnestedChild hwf).1 hentry
      exact ih c hc hentry

/-- A rule that is listed for another one is in a rule that is listed too. -/
theorem exists_parent_of_mem_unnested {rule : Nat} {selector : String} {entry : Nat × Kind}
    (h : entry ∈ doc.unnested hwf rule selector) :
    entry.1 = rule ∨ (doc.kind entry.1).isRule = true ∧
      ∃ around ∈ doc.unnested hwf rule selector, doc.parent entry.1 = some around.1 := by
  induction rule using hwf.children_induction generalizing selector with
  | step rule ih =>
    rcases (mem_unnested hwf).1 h with rfl | ⟨c, hc, hentry⟩
    · exact Or.inl rfl
    · refine Or.inr ?_
      obtain ⟨inner, hinner, hentry⟩ := (mem_unnestedChild hwf).1 hentry
      rcases ih c hc hentry with heq | ⟨hrule, around, haround, hp⟩
      · rw [heq, hinner]
        exact ⟨rfl, _, (mem_unnested hwf).2 (Or.inl rfl), hwf.mem_children_iff.1 hc⟩
      · refine ⟨hrule, around, (mem_unnested hwf).2 (Or.inr ⟨c, hc, ?_⟩), hp⟩
        exact (mem_unnestedChild hwf).2 ⟨inner, hinner, haround⟩

include hwf in
/-- What is listed for the children of a node is listed once. -/
theorem nodup_flatMap_children {node : Nat} {list : Nat → List (Nat × Kind)}
    (hnodup : ∀ c ∈ doc.children node, ((list c).map Prod.fst).Nodup)
    (hspans : ∀ c ∈ doc.children node, ∀ entry ∈ list c, doc.Spans c entry.1) :
    (((doc.children node).flatMap list).map Prod.fst).Nodup := by
  rw [List.map_flatMap, List.nodup_flatMap]
  refine ⟨hnodup, (hwf.nodup_children node).imp_of_mem ?_⟩
  intro c d hc hd hne x hx hy
  obtain ⟨entry, hentry, rfl⟩ := List.mem_map.1 hx
  obtain ⟨other, hother, heq⟩ := List.mem_map.1 hy
  exact hne (hwf.eq_of_spans_siblings (hwf.mem_children_iff.1 hc) (hwf.mem_children_iff.1 hd) (hspans c hc entry hentry)
    (heq ▸ hspans d hd other hother))

theorem nodup_unnested (rule : Nat) (selector : String) : ((doc.unnested hwf rule selector).map Prod.fst).Nodup := by
  induction rule using hwf.children_induction generalizing selector with
  | step rule ih =>
    rw [unnested_eq, List.map_cons, List.nodup_cons]
    refine ⟨?_, nodup_flatMap_children hwf (fun c hc => ?_) fun _ _ _ => spans_of_mem_unnestedChild hwf⟩
    · intro hmem
      obtain ⟨entry, hentry, heq⟩ := List.mem_map.1 hmem
      obtain ⟨c, hc, hentry⟩ := List.mem_flatMap.1 hentry
      have hspan := spans_of_mem_unnestedChild hwf hentry
      rw [heq] at hspan
      exact hwf.not_spans_parent (hwf.mem_children_iff.1 hc) hspan
    · cases hrule : (doc.kind c).isRule with
      | true =>
        obtain ⟨inner, hinner⟩ := Kind.exists_of_isRule hrule
        rw [unnestedChild_of_rule hwf selector hinner]
        exact ih c hc _
      | false =>
        rw [unnestedChild_of_not_rule hwf selector hrule]
        exact List.nodup_nil

/-- Where a rule is listed, so are the rules among its children. -/
theorem mem_unnested_of_child {rule node : Nat} {selector : String}
    (h : node ∈ (doc.unnested hwf rule selector).map Prod.fst) {child : Nat} (hchild : child ∈ doc.children node)
    (hrule : (doc.kind child).isRule = true) : child ∈ (doc.unnested hwf rule selector).map Prod.fst := by
  induction rule using hwf.children_induction generalizing selector with
  | step rule ih =>
    obtain ⟨entry, hentry, rfl⟩ := List.mem_map.1 h
    obtain ⟨inner, hinner⟩ := Kind.exists_of_isRule hrule
    rcases (mem_unnested hwf).1 hentry with rfl | ⟨c, hc, hentry⟩
    · refine List.mem_map.2 ⟨(child, .rule (Selector.combine selector inner)), ?_, rfl⟩
      refine (mem_unnested hwf).2 (Or.inr ⟨child, hchild, (mem_unnestedChild hwf).2 ⟨inner, hinner, ?_⟩⟩)
      exact (mem_unnested hwf).2 (Or.inl rfl)
    · obtain ⟨outer, houter, hentry⟩ := (mem_unnestedChild hwf).1 hentry
      obtain ⟨entry', hentry', hfst⟩ := List.mem_map.1 (ih c hc (List.mem_map_of_mem hentry))
      refine List.mem_map.2 ⟨entry', (mem_unnested hwf).2 (Or.inr ⟨c, hc, ?_⟩), hfst⟩
      exact (mem_unnestedChild hwf).2 ⟨outer, houter, hentry'⟩

theorem fst_mem_flattened {parent top : Nat} (h : top ∈ doc.children parent) :
    top ∈ (doc.flattened hwf parent).map Prod.fst := by
  rw [flattened, List.map_flatMap]
  refine List.mem_flatMap.2 ⟨top, h, ?_⟩
  unfold unnestedTop
  split
  · rw [unnested_eq]
    exact List.mem_cons_self
  · exact List.mem_cons_self

theorem mem_flattened_of_child {parent child : Nat} {entry : Nat × Kind} (h : entry ∈ doc.flattened hwf parent)
    (hentry : entry.2.isRule = true) (hchild : child ∈ doc.children entry.1)
    (hrule : (doc.kind child).isRule = true) : child ∈ (doc.flattened hwf parent).map Prod.fst := by
  obtain ⟨top, htop, hmem⟩ := List.mem_flatMap.1 h
  rw [flattened, List.map_flatMap]
  refine List.mem_flatMap.2 ⟨top, htop, ?_⟩
  cases htoprule : (doc.kind top).isRule with
  | true =>
    obtain ⟨selector, hkind⟩ := Kind.exists_of_isRule htoprule
    rw [unnestedTop_of_rule hwf hkind] at hmem ⊢
    exact mem_unnested_of_child hwf (List.mem_map_of_mem hmem) hchild hrule
  | false =>
    rw [unnestedTop_of_not_rule hwf htoprule] at hmem
    rw [List.mem_singleton.1 hmem] at hentry
    simp [htoprule] at hentry

/-- What is listed for a rule depends on what is below it, and not on its own kind. -/
theorem unnested_congr (hwf' : doc'.WellFormed) {rule : Nat}
    (hchildren : ∀ x, doc.Spans rule x → doc'.children x = doc.children x)
    (hkind : ∀ x, doc.Spans rule x → x ≠ rule → doc'.kind x = doc.kind x) (selector : String) :
    doc'.unnested hwf' rule selector = doc.unnested hwf rule selector := by
  induction rule using hwf.children_induction generalizing selector with
  | step rule ih =>
    rw [unnested_eq, unnested_eq, hchildren rule (Spans.refl doc rule)]
    congr 1
    apply List.flatMap_congr
    intro c hc
    have hp := hwf.mem_children_iff.1 hc
    have hbelow : ∀ x, doc.Spans c x → x ≠ rule := by
      rintro x hx rfl
      exact hwf.not_spans_parent hp hx
    have hsame := ih c hc (fun x hx => hchildren x ((Spans.of_parent hp).trans hx))
      fun x hx _ => hkind x ((Spans.of_parent hp).trans hx) (hbelow x hx)
    unfold unnestedChild
    rw [hkind c (Spans.of_parent hp) (hwf.parent_ne hp)]
    split
    · exact hsame _
    · rfl

theorem unnestedChild_congr (hwf' : doc'.WellFormed) {child : Nat}
    (h : ∀ x, doc.Spans child x → doc'.kind x = doc.kind x ∧ doc'.children x = doc.children x) (outer : String) :
    doc'.unnestedChild hwf' outer child = doc.unnestedChild hwf outer child := by
  unfold unnestedChild
  rw [(h child (Spans.refl doc child)).1]
  split
  · exact unnested_congr hwf hwf' (fun x hx => (h x hx).2) (fun x hx _ => (h x hx).1) _
  · rfl

theorem unnestedTop_congr (hwf' : doc'.WellFormed) {top : Nat}
    (h : ∀ x, doc.Spans top x → doc'.kind x = doc.kind x ∧ doc'.children x = doc.children x) :
    doc'.unnestedTop hwf' top = doc.unnestedTop hwf top := by
  unfold unnestedTop
  rw [(h top (Spans.refl doc top)).1]
  split
  · exact unnested_congr hwf hwf' (fun x hx => (h x hx).2) (fun x hx _ => (h x hx).1) _
  · rfl

end Lists

/-! ### Rules without rules in them -/

/-- The nodes in `entries` have got the kinds listed with them, and the rules among them have lost the rules among
their children. Beside them only the list of `site` may differ. -/
structure Regrouped (doc doc' : Document) (site : Nat) (entries : List (Nat × Kind)) : Prop where
  kind_entry : ∀ entry ∈ entries, doc'.kind entry.1 = entry.2
  children_entry : ∀ entry ∈ entries,
    doc'.children entry.1 = if entry.2.isRule then doc.plainChildren entry.1 else doc.children entry.1
  kind_eq : ∀ x, x ∉ entries.map Prod.fst → doc'.kind x = doc.kind x
  children_eq : ∀ x, x ∉ entries.map Prod.fst → x ≠ site → doc'.children x = doc.children x

theorem plainChildren_congr {node : Nat} (hchildren : doc'.children node = doc.children node)
    (hkind : ∀ c ∈ doc.children node, doc'.kind c = doc.kind c) : doc'.plainChildren node = doc.plainChildren node := by
  unfold plainChildren
  rw [hchildren]
  apply List.filter_congr
  intro c hc
  rw [hkind c hc]

namespace Regrouped

variable {site : Nat} {entries entries₁ entries₂ : List (Nat × Kind)}

theorem nil (doc : Document) (site : Nat) : Regrouped doc doc site [] where
  kind_entry := by simp
  children_entry := by simp
  kind_eq _ _ := rfl
  children_eq _ _ _ := rfl

/-- Regrouping goes on with nodes that it has not come to yet. -/
theorem append (h₁ : Regrouped doc doc₁ site entries₁) (h₂ : Regrouped doc₁ doc₂ site entries₂)
    (hsite : site ∉ entries₁.map Prod.fst)
    (hfresh : ∀ entry ∈ entries₂, entry.1 ∉ entries₁.map Prod.fst ∧ entry.1 ≠ site ∧
      ∀ c ∈ doc.children entry.1, c ∉ entries₁.map Prod.fst) :
    Regrouped doc doc₂ site (entries₁ ++ entries₂) := by
  have hnot : ∀ entry ∈ entries₁, entry.1 ∉ entries₂.map Prod.fst := by
    intro entry hentry hmem
    obtain ⟨other, hother, heq⟩ := List.mem_map.1 hmem
    exact (hfresh other hother).1 (heq ▸ List.mem_map_of_mem hentry)
  have hne : ∀ entry ∈ entries₁, entry.1 ≠ site := by
    rintro entry hentry rfl
    exact hsite (List.mem_map_of_mem hentry)
  refine ⟨?_, ?_, ?_, ?_⟩
  · intro entry hentry
    rcases List.mem_append.1 hentry with hentry | hentry
    · rw [h₂.kind_eq _ (hnot entry hentry), h₁.kind_entry entry hentry]
    · exact h₂.kind_entry entry hentry
  · intro entry hentry
    rcases List.mem_append.1 hentry with hentry | hentry
    · rw [h₂.children_eq _ (hnot entry hentry) (hne entry hentry), h₁.children_entry entry hentry]
    · obtain ⟨hnew, hnsite, hbelow⟩ := hfresh entry hentry
      have hchildren := h₁.children_eq _ hnew hnsite
      rw [h₂.children_entry entry hentry, hchildren,
        plainChildren_congr hchildren fun c hc => h₁.kind_eq c (hbelow c hc)]
  · intro x hx
    rw [List.map_append, List.mem_append, not_or] at hx
    rw [h₂.kind_eq x hx.2, h₁.kind_eq x hx.1]
  · intro x hx hxsite
    rw [List.map_append, List.mem_append, not_or] at hx
    rw [h₂.children_eq x hx.2 hxsite, h₁.children_eq x hx.1 hxsite]

/-- A node that is no rule stays as it is. -/
theorem singleton {node : Nat} (h : (doc.kind node).isRule = false) (site : Nat) :
    Regrouped doc doc site [(node, doc.kind node)] where
  kind_entry entry hentry := by rw [List.mem_singleton.1 hentry]
  children_entry entry hentry := by
    rw [List.mem_singleton.1 hentry]
    simp [h]
  kind_eq _ _ := rfl
  children_eq _ _ _ := rfl

theorem relisted {list : List Nat} (h : Regrouped doc doc₁ site entries) (hrelisted : Relisted doc₁ doc₂ site list)
    (hsite : ∀ entry ∈ entries, entry.1 ≠ site) : Regrouped doc doc₂ site entries where
  kind_entry entry hentry := by rw [hrelisted.kind_eq, h.kind_entry entry hentry]
  children_entry entry hentry := by
    rw [hrelisted.children_eq, if_neg (hsite entry hentry), h.children_entry entry hentry]
  kind_eq x hx := by rw [hrelisted.kind_eq, h.kind_eq x hx]
  children_eq x hx hne := by rw [hrelisted.children_eq, if_neg hne, h.children_eq x hx hne]

/-- What is at or below a node whose subtree holds none of the entries is as before. -/
theorem same_of_spans (h : Regrouped doc doc' site entries) (hwf : doc.WellFormed) {top other x : Nat}
    (hentries : ∀ entry ∈ entries, doc.Spans top entry.1) (htop : doc.parent top = some site)
    (hother : doc.parent other = some site) (hne : top ≠ other) (hx : doc.Spans other x) :
    x ∉ entries.map Prod.fst ∧ x ≠ site ∧ doc'.kind x = doc.kind x ∧ doc'.children x = doc.children x := by
  have hnot : x ∉ entries.map Prod.fst := by
    intro hmem
    obtain ⟨entry, hentry, rfl⟩ := List.mem_map.1 hmem
    exact hne (hwf.eq_of_spans_siblings htop hother (hentries entry hentry) hx)
  have hsite : x ≠ site := by
    rintro rfl
    exact hwf.not_spans_parent hother hx
  exact ⟨hnot, hsite, h.kind_eq x hnot, h.children_eq x hnot hsite⟩

end Regrouped

/-! ### Taking the nested rules out -/

/-- The rules among some children of `rule` have been taken out of it, and those nested in them out of these. All of
them are in `entries`. -/
structure Extracted (doc doc' : Document) (rule : Nat) (among : List Nat) (entries : List (Nat × Kind)) : Prop where
  wf : doc'.WellFormed
  next_eq : doc'.next = doc.next
  children_rule : doc'.children rule =
    (doc.children rule).filter fun child => !((doc.kind child).isRule && among.contains child)
  regrouped : Regrouped doc doc' rule entries

theorem Extracted.nil (hwf : doc.WellFormed) (rule : Nat) : Extracted doc doc rule [] [] where
  wf := hwf
  next_eq := rfl
  children_rule := by simp
  regrouped := Regrouped.nil doc rule

theorem Extracted.skip {rule child : Nat} {among : List Nat} {entries : List (Nat × Kind)}
    (h : Extracted doc doc' rule among entries) (hchild : (doc.kind child).isRule = false) :
    Extracted doc doc' rule (child :: among) entries where
  wf := h.wf
  next_eq := h.next_eq
  children_rule := by
    rw [h.children_rule]
    apply List.filter_congr
    intro c _
    by_cases hc : c = child
    · simp [hc, hchild]
    · simp [hc]
  regrouped := h.regrouped

/-- After all rules among its children, a node is left with the others. -/
theorem Extracted.children_eq_plain {rule : Nat} {entries : List (Nat × Kind)}
    (h : Extracted doc doc' rule (doc.children rule) entries) : doc'.children rule = doc.plainChildren rule := by
  rw [h.children_rule]
  apply List.filter_congr
  intro c hc
  simp [hc]

theorem Extracted.trimmed {rule : Nat} {among : List Nat} {entries : List (Nat × Kind)}
    (h : Extracted doc doc' rule among entries) : Trimmed doc doc' where
  wf := h.wf
  next_eq := h.next_eq
  sublist x := by
    by_cases hx : x ∈ entries.map Prod.fst
    · obtain ⟨entry, hentry, rfl⟩ := List.mem_map.1 hx
      rw [h.regrouped.children_entry entry hentry]
      split
      · exact List.filter_sublist
      · exact List.Sublist.refl _
    · by_cases hrule : x = rule
      · rw [hrule, h.children_rule]
        exact List.filter_sublist
      · rw [h.regrouped.children_eq x hx hrule]

/-- With the rule itself, which keeps its kind. -/
theorem Extracted.regrouped_cons (hwf : doc.WellFormed) {rule : Nat} {selector : String} {below : List (Nat × Kind)}
    (h : Extracted doc doc' rule (doc.children rule) below) (hkind : doc.kind rule = .rule selector)
    (hbelow : below = (doc.children rule).flatMap (doc.unnestedChild hwf selector)) (site : Nat) :
    Regrouped doc doc' site (doc.unnested hwf rule selector) := by
  have hnot : rule ∉ below.map Prod.fst := by
    intro hmem
    obtain ⟨entry, hentry, heq⟩ := List.mem_map.1 hmem
    obtain ⟨c, hc, hentry⟩ := List.mem_flatMap.1 (hbelow ▸ hentry)
    exact hwf.not_spans_parent (hwf.mem_children_iff.1 hc) (heq ▸ spans_of_mem_unnestedChild hwf hentry)
  rw [unnested_eq, ← hbelow]
  refine ⟨?_, ?_, ?_, ?_⟩
  · intro entry hentry
    rcases List.mem_cons.1 hentry with rfl | hentry
    · rw [h.regrouped.kind_eq rule hnot, hkind]
    · exact h.regrouped.kind_entry entry hentry
  · intro entry hentry
    rcases List.mem_cons.1 hentry with rfl | hentry
    · exact h.children_eq_plain
    · exact h.regrouped.children_entry entry hentry
  · intro x hx
    exact h.regrouped.kind_eq x fun hmem => hx (List.mem_cons_of_mem rule hmem)
  · intro x hx _
    rw [List.map_cons, List.mem_cons, not_or] at hx
    exact h.regrouped.children_eq x hx.2 hx.1

/-- A rule among the children of `rule` has been taken out of it and has got another selector. -/
structure Released (doc doc' : Document) (rule child : Nat) (selector : String) : Prop where
  wf : doc'.WellFormed
  next_eq : doc'.next = doc.next
  kind_eq : ∀ x, doc'.kind x = if x = child then .rule selector else doc.kind x
  children_eq : ∀ x, doc'.children x = if x = rule then (doc.children rule).erase child else doc.children x

theorem Released.trimmed {rule child : Nat} {selector : String} (h : Released doc doc' rule child selector) :
    Trimmed doc doc' where
  wf := h.wf
  next_eq := h.next_eq
  sublist x := by
    rw [h.children_eq]
    split
    · next hx => rw [hx]; exact List.erase_sublist
    · exact List.Sublist.refl _

theorem WellFormed.released (hwf : doc.WellFormed) {rule child : Nat} (hp : doc.parent child = some rule)
    (selector : String) :
    Released doc ((doc.setKind child (.rule selector)).removeChild rule child).1 rule child selector := by
  have hretyped := hwf.retyped_setKind (lt_next_of_parent hp) (.rule selector)
  have hrelisted := hretyped.wf.relisted_removeChild rule child
  refine ⟨hrelisted.wf, hrelisted.next_eq.trans hretyped.next_eq, fun x => ?_, fun x => ?_⟩
  · rw [hrelisted.kind_eq, hretyped.kind_eq]
  · rw [hrelisted.children_eq, hretyped.children_eq, hretyped.children_eq]

namespace Released

variable {rule child : Nat} {selector : String} (h : Released doc doc₁ rule child selector) (hwf : doc.WellFormed)
  (hp : doc.parent child = some rule)
include h hwf hp

/-- What is below the child is the same once the child is out. -/
theorem unnested_eq : doc₁.unnested h.wf child selector = doc.unnested hwf child selector := by
  apply unnested_congr hwf h.wf
  · intro x hx
    rw [h.children_eq, if_neg]
    rintro rfl
    exact hwf.not_spans_parent hp hx
  · intro x _ hne
    rw [h.kind_eq, if_neg hne]

/-- Nodes that are regrouped below the child have been regrouped below the rule around it. -/
theorem regrouped {entries : List (Nat × Kind)} (hentries : ∀ entry ∈ entries, doc.Spans child entry.1)
    (hchild : child ∈ entries.map Prod.fst) (h₂ : Regrouped doc₁ doc₂ rule entries) :
    Regrouped doc doc₂ rule entries := by
  have hne : ∀ entry ∈ entries, entry.1 ≠ rule := fun entry hentry heq =>
    hwf.not_spans_parent hp (heq ▸ hentries entry hentry)
  refine ⟨h₂.kind_entry, ?_, ?_, ?_⟩
  · intro entry hentry
    have hchildren : doc₁.children entry.1 = doc.children entry.1 := by rw [h.children_eq, if_neg (hne entry hentry)]
    rw [h₂.children_entry entry hentry, hchildren, plainChildren_congr hchildren]
    intro c hc
    rw [h.kind_eq, if_neg]
    rintro rfl
    rw [hwf.mem_children_iff, hp, Option.some.injEq] at hc
    exact hne entry hentry hc.symm
  · intro x hx
    rw [h₂.kind_eq x hx, h.kind_eq, if_neg]
    rintro rfl
    exact hx hchild
  · intro x hx hrule
    rw [h₂.children_eq x hx hrule, h.children_eq, if_neg hrule]

/-- The child comes out of the rule, and then what is nested in it out of the child. -/
theorem extracted {below : List (Nat × Kind)} (h₂ : Extracted doc₁ doc₂ child (doc₁.children child) below)
    (hbelow : below = (doc₁.children child).flatMap (doc₁.unnestedChild h.wf selector)) :
    (child, .rule selector) :: below = doc.unnested hwf child selector ∧
      doc₂.children rule = (doc.children rule).erase child ∧
      Regrouped doc doc₂ rule (doc.unnested hwf child selector) := by
  have hcons : (child, .rule selector) :: below = doc.unnested hwf child selector := by
    rw [← h.unnested_eq hwf hp, Document.unnested_eq, hbelow]
  have hentries : ∀ entry ∈ doc.unnested hwf child selector, doc.Spans child entry.1 :=
    fun _ => spans_of_mem_unnested hwf
  have hkind : doc₁.kind child = .rule selector := (h.kind_eq child).trans (if_pos rfl)
  have hregrouped := h₂.regrouped_cons h.wf hkind hbelow rule
  rw [h.unnested_eq hwf hp] at hregrouped
  refine ⟨hcons, ?_, h.regrouped hwf hp hentries (by simp [← hcons]) hregrouped⟩
  rw [h₂.regrouped.children_eq rule _ (hwf.parent_ne hp).symm, h.children_eq, if_pos rfl]
  intro hmem
  obtain ⟨entry, hentry, heq⟩ := List.mem_map.1 hmem
  exact hwf.not_spans_parent hp (heq ▸ hentries entry (hcons ▸ List.mem_cons_of_mem _ hentry))

end Released

section Step

variable {rule child : Nat} {rest : List Nat} {outer inner : String} {entries others : List (Nat × Kind)}
  (hwf : doc.WellFormed) (hparent : ∀ c ∈ child :: rest, doc.parent c = some rule) (hnodup : (child :: rest).Nodup)
  (h₂ : Regrouped doc doc₂ rule entries) (hentries : ∀ entry ∈ entries, doc.Spans child entry.1)

include hwf hparent hnodup h₂ hentries in
/-- What is below the other children is as before. -/
theorem same_below_rest {c x : Nat} (hc : c ∈ rest) (hx : doc.Spans c x) :
    x ∉ entries.map Prod.fst ∧ x ≠ rule ∧ doc₂.kind x = doc.kind x ∧ doc₂.children x = doc.children x := by
  apply h₂.same_of_spans hwf hentries (hparent child List.mem_cons_self)
    (hparent c (List.mem_cons_of_mem child hc)) _ hx
  rintro rfl
  exact (List.nodup_cons.1 hnodup).1 hc

include hwf hparent hnodup h₂ hentries in
theorem fragment_rest (hwf₂ : doc₂.WellFormed) {c : Nat} (hc : c ∈ rest) :
    doc₂.fragment c = doc.fragment c := by
  apply hwf.fragment_congr hwf₂
  exact fun x hx => (same_below_rest hwf hparent hnodup h₂ hentries hc hx).2.2

include hwf hparent hnodup h₂ hentries in
/-- The entries of the other children have not been regrouped yet. -/
theorem regrouped_rest (list : Nat → List (Nat × Kind))
    (hlist : ∀ c ∈ rest, ∀ entry ∈ list c, doc.Spans c entry.1) (h₃ : Regrouped doc₂ doc₃ rule (rest.flatMap list)) :
    Regrouped doc doc₃ rule (entries ++ rest.flatMap list) := by
  apply h₂.append h₃
  · intro hmem
    obtain ⟨entry, hentry, heq⟩ := List.mem_map.1 hmem
    exact hwf.not_spans_parent (hparent child List.mem_cons_self) (heq ▸ hentries entry hentry)
  · intro entry hentry
    obtain ⟨c, hc, hentry⟩ := List.mem_flatMap.1 hentry
    have hspan := hlist c hc entry hentry
    have hsame := same_below_rest hwf hparent hnodup h₂ hentries hc hspan
    refine ⟨hsame.1, hsame.2.1, fun d hd => ?_⟩
    exact (same_below_rest hwf hparent hnodup h₂ hentries hc (hspan.down (hwf.mem_children_iff.1 hd))).1

include hwf hparent hnodup h₂ hentries in
/-- The rule around has lost the child and the rules among the others. -/
theorem children_rule_cons (hkind : (doc.kind child).isRule = true)
    (hlist₂ : doc₂.children rule = (doc.children rule).erase child) (h₃ : Extracted doc₂ doc₃ rule rest others) :
    doc₃.children rule =
      (doc.children rule).filter fun c => !((doc.kind c).isRule && (child :: rest).contains c) := by
  rw [h₃.children_rule, hlist₂, (hwf.nodup_children rule).erase_eq_filter, List.filter_filter]
  apply List.filter_congr
  intro c _
  by_cases heq : c = child
  · simp [heq, hkind]
  · by_cases hc : c ∈ rest
    · rw [(same_below_rest hwf hparent hnodup h₂ hentries hc (Spans.refl doc c)).2.2.1]
      simp [heq]
    · simp [heq, hc]

end Step

section Insertion

variable {parent rule : Nat} {selector : String} {below : List (Nat × Kind)} (hwf : doc.WellFormed)
  (hp : doc.parent rule = some parent) (h : Extracted doc doc' rule (doc.children rule) below)
  (hbelow : below = (doc.children rule).flatMap (doc.unnestedChild hwf selector))

include hbelow in
private theorem mem_unnested_of_mem_below {entry : Nat × Kind} (hentry : entry ∈ below) :
    entry ∈ doc.unnested hwf rule selector ∧ entry.1 ≠ rule := by
  rw [hbelow] at hentry
  refine ⟨by rw [unnested_eq]; exact List.mem_cons_of_mem _ hentry, ?_⟩
  obtain ⟨c, hc, hentry⟩ := List.mem_flatMap.1 hentry
  intro heq
  exact hwf.not_spans_parent (hwf.mem_children_iff.1 hc) (heq ▸ spans_of_mem_unnestedChild hwf hentry)

include h hbelow in
/-- What was taken out is nobody's child: its parent is one of the rules that have lost the rules among their
children. -/
private theorem parent_eq_none_of_mem_below {entry : Nat × Kind} (hentry : entry ∈ below) :
    doc'.parent entry.1 = none := by
  obtain ⟨hmem, hne⟩ := mem_unnested_of_mem_below hwf hbelow hentry
  obtain ⟨hrule, around, haround, hparent⟩ := (exists_parent_of_mem_unnested hwf hmem).resolve_left hne
  rw [Option.eq_none_iff_forall_ne_some]
  intro p hp'
  obtain rfl : around.1 = p := Option.some.inj (hparent.symm.trans (h.trimmed.parent_eq hwf hp'))
  have hchild := h.wf.mem_children_iff.2 hp'
  have hplain : doc'.children around.1 = doc.plainChildren around.1 := by
    rw [unnested_eq, ← hbelow] at haround
    rcases List.mem_cons.1 haround with rfl | haround'
    · exact h.children_eq_plain
    · have hisRule := isRule_of_mem_unnested hwf (mem_unnested_of_mem_below hwf hbelow haround').1
      rw [h.regrouped.children_entry around haround', if_pos hisRule]
  rw [hplain, plainChildren, List.mem_filter, hrule] at hchild
  simp at hchild

include hwf hp h hbelow in
/-- What was taken out of a child of `parent` can be put in behind it. -/
theorem Extracted.insertable :
    doc'.children parent = doc.children parent ∧ doc'.Insertable parent (below.map Prod.fst) := by
  have hspans : ∀ n ∈ below.map Prod.fst, doc.Spans rule n := by
    intro n hn
    obtain ⟨entry, hentry, rfl⟩ := List.mem_map.1 hn
    exact spans_of_mem_unnested hwf (mem_unnested_of_mem_below hwf hbelow hentry).1
  have hnot := hwf.not_spans_parent hp
  refine ⟨?_, ?_, ?_, ?_, ?_, ?_⟩
  · exact h.regrouped.children_eq parent (fun hmem => hnot (hspans parent hmem)) (hwf.parent_ne hp).symm
  · have hnodup := nodup_unnested hwf rule selector
    rw [unnested_eq, ← hbelow, List.map_cons] at hnodup
    exact (List.nodup_cons.1 hnodup).2
  · intro n hn
    rw [h.next_eq]
    exact (hspans n hn).lt_next (lt_next_of_parent hp)
  · rintro n hn rfl
    exact hwf.not_spans_root (hwf.ne_root_of_parent hp) (hspans root hn)
  · intro n hn
    obtain ⟨entry, hentry, rfl⟩ := List.mem_map.1 hn
    exact parent_eq_none_of_mem_below hwf h hbelow hentry
  · intro n hn hspan
    exact hnot ((hspans n hn).trans (h.trimmed.spans hwf hspan))

end Insertion

end Document

namespace Pass

variable {w : Workspace} {rule : Nat}

/-- A pass takes the rules among some children of `rule` out, and those nested in them. It lists them in document order,
and if there are none, it does nothing. -/
def Extracts (x : Pass (List Nat)) (hwf : w.doc.WellFormed) (rule : Nat) (selector : String) (among : List Nat) : Prop :=
  ∃ w' entries, x w = .ok (entries.map Prod.fst) w' ∧ w'.run = w.run ∧ (entries = [] → w' = w) ∧
    entries = among.flatMap (w.doc.unnestedChild hwf selector) ∧ Extracted w.doc w'.doc rule among entries

/-- Taking the rules among some children out, where `take` does so below a single one. -/
theorem takeAmong_extracts {take : Nat → Pass (List Nat)} {bound : Nat} (outer : String)
    (htake : ∀ {w : Workspace} {child : Nat} {selector : String} (hwf : w.doc.WellFormed),
      w.doc.kind child = .rule selector → (w.doc.fragment child).size ≤ bound →
        Extracts (take child) hwf child selector (w.doc.children child))
    {children : List Nat} (hwf : w.doc.WellFormed) (hparent : ∀ c ∈ children, w.doc.parent c = some rule)
    (hnodup : children.Nodup) (hsize : ∀ c ∈ children, (w.doc.fragment c).size ≤ bound) :
    Extracts (takeAmong take rule outer children) hwf rule outer children := by
  induction children generalizing w with
  | nil => exact ⟨w, [], rfl, rfl, fun _ => rfl, rfl, Extracted.nil hwf rule⟩
  | cons child rest ih =>
    obtain ⟨hchild, hnodup_rest⟩ := List.nodup_cons.1 hnodup
    cases hkind : w.doc.kind child with
    | rule inner =>
      have hp := hparent child List.mem_cons_self
      have hrule : (w.doc.kind child).isRule = true := by rw [hkind]; rfl
      generalize hselector : Selector.combine outer inner = selector
      -- the first child comes out, then what is below it
      have hreleased := hwf.released hp selector
      have hsize₁ := Nat.le_trans (hreleased.trimmed.size_fragment_le hwf child) (hsize child List.mem_cons_self)
      obtain ⟨w₂, below, hrun₂, hkeep₂, -, hbelow, hextracted₂⟩ := htake (w :=
        { w with
          doc := ((w.doc.setKind child (.rule selector)).removeChild rule child).1
          log := .moving child rule selector :: w.log })
        hreleased.wf ((hreleased.kind_eq child).trans (if_pos rfl)) hsize₁
      obtain ⟨hcons, hlist₂, hregrouped₂⟩ := hreleased.extracted hwf hp hextracted₂ hbelow
      have hentries : ∀ entry ∈ w.doc.unnested hwf child selector, w.doc.Spans child entry.1 :=
        fun _ => spans_of_mem_unnested hwf
      -- and then the others
      have hparent₂ : ∀ c ∈ rest, w₂.doc.parent c = some rule := by
        intro c hc
        rw [← hextracted₂.wf.mem_children_iff, hlist₂, (hwf.nodup_children rule).mem_erase_iff]
        refine ⟨?_, hwf.mem_children_iff.2 (hparent c (List.mem_cons_of_mem child hc))⟩
        rintro rfl
        exact hchild hc
      obtain ⟨w₃, others, hrun₃, hkeep₃, -, hothers, hextracted₃⟩ := ih hextracted₂.wf hparent₂ hnodup_rest fun c hc =>
        fragment_rest hwf hparent hnodup hregrouped₂ hentries hextracted₂.wf hc ▸ hsize c (.tail child hc)
      have hothers' : others = rest.flatMap (w.doc.unnestedChild hwf outer) := by
        rw [hothers]
        apply List.flatMap_congr
        intro c hc
        apply unnestedChild_congr hwf hextracted₂.wf
        exact fun x hx => (same_below_rest hwf hparent hnodup hregrouped₂ hentries hc hx).2.2
      refine ⟨w₃, w.doc.unnested hwf child selector ++ others, ?_, hkeep₃.trans hkeep₂, by simp [← hcons], ?_,
        hextracted₃.wf, (hextracted₃.next_eq.trans hextracted₂.next_eq).trans hreleased.next_eq, ?_, ?_⟩
      · simp only [takeAmong, run_bind, run_view, hkind, hselector, run_report, run_editDocument, run_removeChild,
          hrun₂, hrun₃, run_pure, ← hcons, List.map_append, List.map_cons]
      · rw [List.flatMap_cons, unnestedChild_of_rule hwf outer hkind, hselector, hothers']
      · exact children_rule_cons hwf hparent hnodup hregrouped₂ hentries hrule hlist₂ hextracted₃
      · have hregrouped₃ := hextracted₃.regrouped
        rw [hothers'] at hregrouped₃ ⊢
        exact regrouped_rest hwf hparent hnodup hregrouped₂ hentries _
          (fun _ _ _ => spans_of_mem_unnestedChild hwf) hregrouped₃
    | _ =>
      have hnot : (w.doc.kind child).isRule = false := by rw [hkind]; rfl
      obtain ⟨w', entries, hrun, hkeep, hsame, hentries, hextracted⟩ :=
        ih hwf (fun c hc => hparent c (.tail child hc)) hnodup_rest fun c hc => hsize c (.tail child hc)
      refine ⟨w', entries, ?_, hkeep, hsame, ?_, hextracted.skip hnot⟩
      · simp only [takeAmong, run_bind, run_view, hkind, hrun]
      · rw [List.flatMap_cons, unnestedChild_of_not_rule hwf outer hnot, hentries]
        rfl

theorem takeNested_extracts {levels : Nat} {selector : String} (hwf : w.doc.WellFormed)
    (hkind : w.doc.kind rule = .rule selector) (hsize : (w.doc.fragment rule).size ≤ levels) :
    Extracts (takeNested levels rule) hwf rule selector (w.doc.children rule) := by
  induction levels generalizing w rule selector with
  | zero =>
    have hpos := (w.doc.fragment rule).size_pos
    omega
  | succ levels ih =>
    have hbelow : ∀ c ∈ w.doc.children rule, (w.doc.fragment c).size ≤ levels := by
      intro c hc
      have hlt := hwf.size_fragment_lt hc
      omega
    have hamong := takeAmong_extracts selector ih hwf (fun _ => hwf.mem_children_iff.1) (hwf.nodup_children rule) hbelow
    simpa only [Extracts, takeNested, run_bind, run_view, hkind] using hamong

/-- There is nothing to be taken out of a node that is no rule. -/
theorem takeNested_of_not_rule (levels : Nat) {node : Nat} (h : (w.doc.kind node).isRule = false) :
    takeNested levels node w = .ok [] w := by
  cases levels with
  | zero => rfl
  | succ levels =>
    simp only [takeNested, run_bind, run_view]
    cases hkind : w.doc.kind node with
    | rule outer => simp [hkind, Kind.isRule] at h
    | _ => rfl

end Pass

end NestedStyles
