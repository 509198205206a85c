import NestedStyles.Proofs.Import.Refinement

/-!
# Expansions that break off

An import is exchanged for its content only once that content is complete. So when the expansion of a document fails, it
does so at one of its directives, the imports to be expanded that are not inside of another one. Those before it in
document order have been exchanged for their complete content, and from it on the document is as before
(`expandImports_breaks_off`). The loop is followed from the document at the start, whose directives are exchanged one
after the other (`Sweeps.exchanges`).
-/

namespace NestedStyles

open Document Pass Import

namespace Document

/-- Whether a node below the root is an import to be expanded. -/
def refers (doc : Document) (x : Nat) : Bool := x ≠ root && (reference? (doc.kind x)).isSome

/-- Whether a node is an import to be expanded that is not inside of another one. -/
def isDirective (doc : Document) (x : Nat) : Bool := doc.refers x && doc.isFree doc.refers x

variable {doc : Document} {x : Nat}

theorem refers_of_some {href : String} (hne : x ≠ root) (hkind : reference? (doc.kind x) = some href) :
    doc.refers x = true := by
  simp [refers, hne, hkind]

theorem refers_of_none (hkind : reference? (doc.kind x) = none) : doc.refers x = false := by
  simp [refers, hkind]

theorem refers_root (doc : Document) : doc.refers root = false := by
  simp [refers]

theorem isDirective_of_not_refers (hx : doc.refers x = false) : doc.isDirective x = false := by
  simp [isDirective, hx]

/-- A directive is the only one at and below itself. -/
theorem WellFormed.filter_isDirective_of (hwf : doc.WellFormed) (hfree : doc.isFree doc.refers x = true)
    (hx : doc.refers x = true) : (doc.descendants x).filter doc.isDirective = [x] := by
  have hfilter : (doc.descendants x).filter doc.isDirective =
      ((doc.descendants x).filter (doc.isFree doc.refers)).filter doc.refers := by
    rw [List.filter_filter]
    rfl
  rw [hfilter, hwf.filter_isFree_of hfree hx]
  simp [hx]

end Document

namespace Import

/-- The nodes of `gone` have been exchanged for nodes with the content that `content` says. -/
structure Supplied (content : String → Expansion) (doc doc' : Document) (gone : List Nat) (copies : Nat → List Nat) :
    Prop extends Exchanged doc doc' gone copies where
  complete : ∀ x ∈ gone, ∃ href n, reference? (doc.kind x) = some href ∧
    content href = .ok ((copies x).map doc'.fragment, n)

/-- The directives at and below the nodes of `todo` have been exchanged after those of `gone`, or only those before one
whose content is missing. -/
def Exchanges (content : String → Expansion) (start : Document) (gone todo : List Nat) (run : Run) :
    Outcome Nat → Prop
  | .ok _ w' => w'.run = run ∧ ∃ copies,
      Supplied content start w'.doc (gone ++ (todo.flatMap start.descendants).filter start.isDirective) copies
  | .error e w' => w'.run = run ∧ ∃ before stop after href copies,
      todo.flatMap start.descendants = before ++ stop :: after ∧ start.isDirective stop = true ∧
      reference? (start.kind stop) = some href ∧ content href = .error e ∧
      Supplied content start w'.doc (gone ++ before.filter start.isDirective) copies

variable {content : String → Expansion} {start doc doc₁ doc₂ : Document} {gone gone₁ gone₂ todo : List Nat}
  {copies copies₁ copies₂ : Nat → List Nat} {run : Run}

theorem supplied_nil (hwf : doc.WellFormed) (copies : Nat → List Nat) : Supplied content doc doc [] copies where
  toExchanged := Exchanged.refl hwf copies
  complete _ hx := by simp at hx

theorem Supplied.append (h₁ : Supplied content doc doc₁ gone₁ copies₁) (h₂ : Supplied content doc₁ doc₂ gone₂ copies₂)
    (hwf : doc.WellFormed) (hold : ∀ x ∈ gone₂, x < doc.next) :
    Supplied content doc doc₂ (gone₁ ++ gone₂) (fun x => if x ∈ gone₁ then copies₁ x else copies₂ x) where
  toExchanged := h₁.toExchanged.append h₂.toExchanged hold
  complete x hx := by
    by_cases hx₁ : x ∈ gone₁
    · obtain ⟨href, n, hkind, hcontent⟩ := h₁.complete x hx₁
      have hkept : (copies₁ x).map doc₂.fragment = (copies₁ x).map doc₁.fragment := by
        apply List.map_congr_left
        intro c hc
        obtain ⟨hle, hlt⟩ := h₁.fresh x hx₁ c hc
        apply h₂.fragment_eq h₁.wf hlt
        intro y hy hspan
        have hnew := h₁.le_of_spans hwf hle hspan
        have := hold y hy
        omega
      exact ⟨href, n, hkind, by rw [if_pos hx₁, hkept, hcontent]⟩
    · have hx₂ := (List.mem_append.1 hx).resolve_left hx₁
      obtain ⟨href, n, hkind, hcontent⟩ := h₂.complete x hx₂
      rw [h₁.kind_eq x (hold x hx₂)] at hkind
      exact ⟨href, n, hkind, by rw [if_neg hx₁, hcontent]⟩

theorem exchanges_plus {count : Nat} {outcome : Outcome Nat} (h : Exchanges content start gone todo run outcome) :
    Exchanges content start gone todo run (plus count outcome) := by
  cases outcome with
  | ok n w' => exact h
  | error e w' => exact h

/-- A first node, at and below which everything has been exchanged, and then the others. -/
theorem Exchanges.cons {child : Nat} {post met : List Nat} {outcome : Outcome Nat}
    (h : Exchanges content start (gone ++ met) post run outcome)
    (hmet : (start.descendants child).filter start.isDirective = met) :
    Exchanges content start gone (child :: post) run outcome := by
  cases outcome with
  | ok n w' =>
    obtain ⟨hrun, copies, hsupplied⟩ := h
    refine ⟨hrun, copies, ?_⟩
    rw [List.flatMap_cons, List.filter_append, hmet, ← List.append_assoc]
    exact hsupplied
  | error e w' =>
    obtain ⟨hrun, before, stop, after, href, copies, hsplit, hstop, hkind, hcontent, hsupplied⟩ := h
    refine ⟨hrun, start.descendants child ++ before, stop, after, href, copies, ?_, hstop, hkind, hcontent, ?_⟩
    · rw [List.flatMap_cons, hsplit, List.append_assoc]
    · rw [List.filter_append, hmet, ← List.append_assoc]
      exact hsupplied

/-- The loop over the children of a node has come to those of `todo`. The nodes of `gone` have been exchanged, which are
not at or below those to come. -/
structure Awaiting (content : String → Expansion) (start : Document) (w : Workspace) (node : Nat)
    (pre todo gone : List Nat) (copies : Nat → List Nat) : Prop where
  supplied : Supplied content start w.doc gone copies
  children_eq : w.doc.children node = pre ++ todo
  parent_eq : ∀ c ∈ todo, start.parent c = some node
  untouched : ∀ c ∈ todo, ∀ y ∈ gone, ¬ start.Spans c y
  free : ∀ c ∈ todo, start.isFree start.refers c = true

namespace Awaiting

variable {w w₁ : Workspace} {node child : Nat} {pre pre' post met : List Nat}

theorem kind_eq (h : Awaiting content start w node pre (child :: post) gone copies) :
    w.doc.kind child = start.kind child :=
  h.supplied.kind_eq child (lt_next_of_parent (h.parent_eq child List.mem_cons_self))

theorem directory?_eq (h : Awaiting content start w node pre todo gone copies) (hwf : start.WellFormed) :
    w.doc.directory? = start.directory? := by
  unfold directory?
  rw [h.supplied.kind_eq root hwf.root_lt_next]

theorem refers (h : Awaiting content start w node pre (child :: post) gone copies) (hwf : start.WellFormed)
    {href : String} (hkind : reference? (start.kind child) = some href) : start.refers child = true :=
  refers_of_some (hwf.ne_root_of_parent (h.parent_eq child List.mem_cons_self)) hkind

/-- Below a child that the loop comes to, nothing has been exchanged yet. -/
theorem below (h : Awaiting content start w node pre (child :: post) gone copies) (hwf : start.WellFormed)
    (hkind : reference? (start.kind child) = none) :
    Awaiting content start w child [] (start.children child) gone copies where
  supplied := h.supplied
  children_eq := by
    rw [List.nil_append]
    apply h.supplied.children_eq_of_not_mem (lt_next_of_parent (h.parent_eq child List.mem_cons_self))
    exact fun c hc hmem => h.untouched child List.mem_cons_self c hmem (Spans.of_parent (hwf.mem_children_iff.1 hc))
  parent_eq c hc := hwf.mem_children_iff.1 hc
  untouched c hc y hy hspan :=
    h.untouched child List.mem_cons_self y hy ((Spans.of_parent (hwf.mem_children_iff.1 hc)).trans hspan)
  free c hc := hwf.isFree_child (h.free child List.mem_cons_self) (refers_of_none hkind) hc

/-- What is exchanged at and below one child leaves the others as they are. -/
theorem next (h : Awaiting content start w node pre (child :: post) gone copies) (hwf : start.WellFormed)
    (hsupplied : Supplied content start w₁.doc (gone ++ met) copies₁) (hmet : ∀ y ∈ met, start.Spans child y)
    (hlist : w₁.doc.children node = pre' ++ post) : Awaiting content start w₁ node pre' post (gone ++ met) copies₁ where
  supplied := hsupplied
  children_eq := hlist
  parent_eq c hc := h.parent_eq c (.tail child hc)
  untouched c hc y hy hspan := by
    rcases List.mem_append.1 hy with hy | hy
    · exact h.untouched c (.tail child hc) y hy hspan
    · have heq := hwf.eq_of_spans_siblings (h.parent_eq child List.mem_cons_self) (h.parent_eq c (.tail child hc))
        (hmet y hy) hspan
      exact (h.supplied.wf.not_mem_of_children_eq h.children_eq).2 (heq ▸ hc)
  free c hc := h.free c (.tail child hc)

end Awaiting

variable {expand : Nat → Nat → String → Workspace → Outcome (Nat × Nat) → Prop} {directory : Option String}
  {w : Workspace} {node : Nat} {pre : List Nat}

/-- The loop over the children of a node exchanges the directives at and below them, up to one that fails. -/
theorem Sweeps.exchanges {index : Nat} {outcome : Outcome Nat} (h : Sweeps expand node index w outcome)
    (hexact : Exact expand content directory) (hwf : start.WellFormed) (hdirectory : start.directory? = directory)
    (ha : Awaiting content start w node pre todo gone copies) (hindex : index = pre.length) :
    Exchanges content start gone todo w.run outcome := by
  induction h generalizing gone copies pre todo with
  | done hchild =>
    rw [hindex, childAt?_length ha.children_eq, List.head?_eq_none_iff] at hchild
    subst hchild
    exact ⟨rfl, copies, by simpa using ha.supplied⟩
  | @refused node index child href w w' e hchild hkind hexpand =>
    rw [hindex, childAt?_length ha.children_eq, List.head?_eq_some_iff] at hchild
    obtain ⟨post, rfl⟩ := hchild
    obtain ⟨hcontent, hdoc, hrun⟩ :=
      hexact ha.supplied.wf ((ha.directory?_eq hwf).trans hdirectory) ha.children_eq hexpand
    rw [ha.kind_eq] at hkind
    have hdirective : start.isDirective child = true := by
      rw [isDirective, ha.refers hwf hkind, ha.free child List.mem_cons_self]
      rfl
    refine ⟨hrun, [], child, (start.children child ++ post).flatMap start.descendants, href, copies, ?_, hdirective,
      hkind, hcontent, ?_⟩
    · rw [List.flatMap_cons, hwf.descendants_eq, List.flatMap_append]
      rfl
    · rw [hdoc]
      simpa using ha.supplied
  | @replaced node index child nodes count href w w₁ outcome hchild hkind hexpand hrest ih =>
    rw [hindex, childAt?_length ha.children_eq, List.head?_eq_some_iff] at hchild
    obtain ⟨post, rfl⟩ := hchild
    obtain ⟨new, hcontent, hlength, hexchanged, hrun⟩ :=
      hexact ha.supplied.wf ((ha.directory?_eq hwf).trans hdirectory) ha.children_eq hexpand
    have hone : Supplied content w.doc w₁.doc [child] (fun _ => new) := by
      refine ⟨hexchanged, fun x hx => ⟨href, count, ?_, hcontent⟩⟩
      rw [List.mem_singleton.1 hx, hkind]
    rw [ha.kind_eq] at hkind
    have hlt := lt_next_of_parent (ha.parent_eq child List.mem_cons_self)
    have hnext := ha.next hwf (ha.supplied.append hone hwf (by simpa using hlt))
      (fun y hy => by rw [List.mem_singleton.1 hy]) (hexchanged.children_eq_append ha.supplied.wf ha.children_eq)
    have hex := ih hnext (by rw [hindex, List.length_append, hlength])
    rw [hrun] at hex
    exact exchanges_plus
      (hex.cons (hwf.filter_isDirective_of (ha.free child List.mem_cons_self) (ha.refers hwf hkind)))
  | @stopped node index child w w' e hchild hkind hbelow ih =>
    rw [hindex, childAt?_length ha.children_eq, List.head?_eq_some_iff] at hchild
    obtain ⟨post, rfl⟩ := hchild
    rw [ha.kind_eq] at hkind
    obtain ⟨hrun, before, stop, after, href, copies', hsplit, hstop, hstopkind, hcontent, hsupplied⟩ :=
      ih (ha.below hwf hkind) rfl
    refine ⟨hrun, child :: before, stop, after ++ post.flatMap start.descendants, href, copies', ?_, hstop, hstopkind,
      hcontent, ?_⟩
    · rw [List.flatMap_cons, hwf.descendants_eq, hsplit]
      simp
    · rw [List.filter_cons_of_neg (by simp [isDirective_of_not_refers (refers_of_none hkind)])]
      exact hsupplied
  | @passed node index child count w w₁ outcome hchild hkind hbelow hrest ih ihrest =>
    rw [hindex, childAt?_length ha.children_eq, List.head?_eq_some_iff] at hchild
    obtain ⟨post, rfl⟩ := hchild
    -- the list of children is found again through the loop by value
    obtain ⟨_, -, hplaced⟩ := (hbelow.agrees hexact.sound ha.supplied.wf ((ha.directory?_eq hwf).trans hdirectory)
      (List.nil_append _).symm rfl).placed ha.supplied.wf ha.children_eq
    rw [ha.kind_eq] at hkind
    obtain ⟨hrun, copies', hsupplied⟩ := ih (ha.below hwf hkind) rfl
    have hmet : (start.descendants child).filter start.isDirective =
        ((start.children child).flatMap start.descendants).filter start.isDirective := by
      rw [hwf.descendants_eq, List.filter_cons_of_neg (by simp [isDirective_of_not_refers (refers_of_none hkind)])]
    have hspans : ∀ y ∈ ((start.children child).flatMap start.descendants).filter start.isDirective,
        start.Spans child y := by
      rw [← hmet]
      exact fun y hy => hwf.mem_descendants.1 (List.mem_filter.1 hy).1
    have hex := ihrest (ha.next hwf hsupplied hspans hplaced.children_eq)
      (by rw [hindex, List.length_append, List.length_singleton])
    rw [hrun] at hex
    exact exchanges_plus (hex.cons hmet)

variable {library : Library} {e : CompileError} {w' : Workspace}

/-- Whole documents. -/
theorem Expands.exchanges (hregular : library.Regular) {levels : Nat} {underway : List String} {outcome : Outcome Nat}
    (h : Expands library levels underway w outcome) (hwf : w.doc.WellFormed) :
    Exchanges (library.content levels underway w.doc.directory?) w.doc [] (w.doc.children root) w.run outcome := by
  have hawaiting : Awaiting (library.content levels underway w.doc.directory?) w.doc w root [] (w.doc.children root) []
      (fun _ => []) := by
    refine ⟨supplied_nil hwf _, (List.nil_append _).symm, fun c hc => hwf.mem_children_iff.1 hc, by simp, ?_⟩
    exact fun c hc => hwf.isFree_child (hwf.isFree_of_parent_none hwf.parent_root) (refers_root w.doc) hc
  cases levels with
  | zero => exact Sweeps.exchanges h (exact_refused underway) hwf rfl hawaiting rfl
  | succ levels =>
    refine Sweeps.exchanges h (exact_replaces hregular ?_) hwf rfl hawaiting rfl
    exact fun hwf hn => Expands.agrees hregular hn hwf

/-- The expansion of the imports of a document has broken off at the directive `stop`, which in document order comes
after `before` and before `after`. -/
structure BrokenOff (content : String → Expansion) (doc doc' : Document) (e : CompileError) (stop : Nat)
    (before after : List Nat) (copies : Nat → List Nat) : Prop where
  /-- The document order at the start. -/
  order : doc.descendants root = before ++ stop :: after
  directive : doc.isDirective stop = true
  /-- The content of the directive is what is missing. -/
  cause : ∃ href, reference? (doc.kind stop) = some href ∧ content href = .error e
  /-- The directives before it have been exchanged for their complete content. -/
  supplied : Supplied content doc doc' (before.filter doc.isDirective) copies
  /-- From the directive on, the nodes are as they were. -/
  kept : ∀ x ∈ stop :: after,
    doc'.kind x = doc.kind x ∧ doc'.parent x = doc.parent x ∧ doc'.children x = doc.children x
  /-- The document order at the end. -/
  order_eq : doc'.descendants root =
    ((before.filter (doc.isFree (· ∈ before.filter doc.isDirective))).flatMap fun x =>
      if x ∈ before.filter doc.isDirective then (copies x).flatMap doc'.descendants else [x]) ++ stop :: after
  /-- No import to be expanded is left in the tree before the directive. -/
  expanded : ∀ x ∈ before, doc.refers x = true → x ∉ doc'.descendants root

section Ending

variable {before after : List Nat} {stop : Nat} {doc' : Document} (hwf : doc.WellFormed)
  (horder : doc.descendants root = before ++ stop :: after) (hstop : doc.isDirective stop = true)

include hwf horder hstop

/-- A directive before another one is above nothing from that one on. -/
theorem not_spans_of_directive {x y : Nat} (hx : x ∈ before.filter doc.isDirective) (hy : y ∈ stop :: after) :
    ¬ doc.Spans x y := by
  obtain ⟨hmem, hx⟩ := List.mem_filter.1 hx
  have hnot : ¬ doc.Spans x stop := by
    intro hspan
    simp only [isDirective, Bool.and_eq_true] at hx hstop
    have hfree := hwf.isFree_eq_false hx.1 hspan (hwf.ne_of_mem horder hmem List.mem_cons_self)
    simp [hfree] at hstop
  rcases List.mem_cons.1 hy with rfl | hy
  · exact hnot
  · exact hwf.not_spans_of_mem horder hmem hnot hy

variable (hsupplied : Supplied content doc doc' (before.filter doc.isDirective) copies)

include hsupplied

theorem kept_of_supplied {x : Nat} (hx : x ∈ stop :: after) :
    doc'.kind x = doc.kind x ∧ doc'.parent x = doc.parent x ∧ doc'.children x = doc.children x := by
  have hspan : doc.Spans root x := hwf.mem_descendants.1 (by rw [horder]; exact List.mem_append_right _ hx)
  have hlt := hspan.lt_next hwf.root_lt_next
  refine ⟨hsupplied.kind_eq x hlt, ?_, ?_⟩
  · rw [hsupplied.parent_eq x hlt, if_neg]
    exact fun hmem => not_spans_of_directive hwf horder hstop hmem hx (Spans.refl doc x)
  · apply hsupplied.children_eq_of_not_mem hlt
    intro c hc hmem
    have hlater := hwf.mem_of_spans_of_mem horder hx (Spans.of_parent (hwf.mem_children_iff.1 hc))
    exact not_spans_of_directive hwf horder hstop hmem hlater (Spans.refl doc c)

theorem descendants_of_supplied : doc'.descendants root =
    ((before.filter (doc.isFree (· ∈ before.filter doc.isDirective))).flatMap fun x =>
      if x ∈ before.filter doc.isDirective then (copies x).flatMap doc'.descendants else [x]) ++ stop :: after := by
  have hroot : root ∉ before.filter doc.isDirective := by
    simp [isDirective, refers_root]
  have hfree : (stop :: after).filter (doc.isFree (· ∈ before.filter doc.isDirective)) = stop :: after := by
    rw [List.filter_eq_self]
    intro x hx
    rw [hwf.isFree_iff]
    intro y hspan _
    rw [decide_eq_false_iff_not]
    exact fun hmem => not_spans_of_directive hwf horder hstop hmem hx hspan
  have hkept : ((stop :: after).flatMap fun x =>
      if x ∈ before.filter doc.isDirective then (copies x).flatMap doc'.descendants else [x]) = stop :: after := by
    rw [List.flatMap_congr fun x hx =>
      if_neg fun hmem => not_spans_of_directive hwf horder hstop hmem hx (Spans.refl doc x)]
    simp
  rw [hsupplied.descendants_eq hwf hwf.root_lt_next (hwf.isFree_of_parent_none hwf.parent_root) hroot, horder,
    List.filter_append, List.flatMap_append, hfree, hkept]

/-- An import to be expanded before the directive is exchanged, or inside of one that is. -/
theorem expanded_of_supplied {x : Nat} (hx : x ∈ before) (hrefers : doc.refers x = true) :
    x ∉ doc'.descendants root := by
  have hspan : doc.Spans root x := hwf.mem_descendants.1 (by rw [horder]; exact List.mem_append_left _ hx)
  rw [descendants_of_supplied hwf horder hstop hsupplied, List.mem_append, List.mem_flatMap]
  rintro (⟨y, hy, hmem⟩ | hlater)
  · split at hmem
    · next hgone =>
      obtain ⟨c, hc, hmem⟩ := List.mem_flatMap.1 hmem
      have hle := hsupplied.le_of_spans hwf (hsupplied.fresh y hgone c hc).1 (hsupplied.wf.mem_descendants.1 hmem)
      have hlt := hspan.lt_next hwf.root_lt_next
      omega
    · next hgone =>
      obtain rfl := List.mem_singleton.1 hmem
      rcases hwf.isFree_or_exists (p := doc.refers) hspan hwf.parent_root with
        hfree | ⟨above, hroot, habove, hne, hpy, hfree⟩
      · exact hgone (List.mem_filter.2 ⟨hx, by simp [isDirective, hrefers, hfree]⟩)
      · -- the topmost import above it is a directive before it, and so has been exchanged
        have hmem := hwf.mem_descendants.2 hroot
        rw [horder, List.mem_append] at hmem
        have hbefore : above ∈ before := hmem.resolve_right fun hlater =>
          hwf.ne_of_mem horder hx (hwf.mem_of_spans_of_mem horder hlater habove) rfl
        have hcovered := hwf.isFree_eq_false (p := (· ∈ before.filter doc.isDirective))
          (by simp [isDirective, hbefore, hpy, hfree]) habove hne
        rw [List.mem_filter, hcovered] at hy
        simp at hy
  · exact hwf.ne_of_mem horder hx hlater rfl

end Ending

namespace BrokenOff

variable {doc' : Document} {stop stop' : Nat} {before before' after after' : List Nat} {copies' : Nat → List Nat}

theorem not_mem_before (h : BrokenOff content doc doc' e stop before after copies)
    (h' : BrokenOff content doc doc' e stop' before' after' copies') : stop ∉ before' := by
  intro hmem
  have hdirective := h.directive
  rw [isDirective, Bool.and_eq_true] at hdirective
  exact h'.expanded stop hmem hdirective.1 (by simp [h.order_eq])

/-- There is only one directive at which an expansion can have broken off. -/
theorem unique (h : BrokenOff content doc doc' e stop before after copies)
    (h' : BrokenOff content doc doc' e stop' before' after' copies') : stop' = stop := by
  have hsame := h'.order.symm.trans h.order
  rcases List.append_eq_append_iff.1 hsame with ⟨middle, rfl, hrest⟩ | ⟨middle, rfl, hrest⟩
  · cases middle with
    | nil => exact (List.cons.inj hrest).1
    | cons x middle =>
      obtain ⟨rfl, -⟩ := List.cons.inj hrest
      exact absurd (by simp) (h'.not_mem_before h)
  · cases middle with
    | nil => exact (List.cons.inj hrest).1.symm
    | cons x middle =>
      obtain ⟨rfl, -⟩ := List.cons.inj hrest
      exact absurd (by simp) (h.not_mem_before h')

end BrokenOff

/-- If expanding the imports of a document fails, then it breaks off at exactly one of its directives. Those before it
have been exchanged for their complete content, it and all that comes after it are as before, and so is the run. -/
theorem expandImports_breaks_off (library : Library) (w : Workspace) (hregular : library.Regular)
    (hwf : w.doc.WellFormed) {e : CompileError} {w' : Workspace} (hrun : expandImports library w = .error e w') :
    w'.run = w.run ∧ ∃! stop, ∃ before after copies,
      BrokenOff (library.content library.maxDepth [] w.doc.directory?) w.doc w'.doc e stop before after copies := by
  have hexchanges := (expands_expandWithin hregular library.maxDepth [] hwf).exchanges hregular hwf
  rw [expandImports, run_bind] at hrun
  generalize expandWithin library library.maxDepth [] w = outcome at hexchanges hrun
  cases outcome with
  | ok count w₁ => cases hrun
  | error e' w₁ =>
    obtain ⟨rfl, rfl⟩ := EStateM.Result.error.inj hrun
    obtain ⟨hrun, before, stop, after, href, copies, hsplit, hstop, hkind, hcontent, hsupplied⟩ := hexchanges
    have horder : w.doc.descendants root = (root :: before) ++ stop :: after := by
      rw [hwf.descendants_eq, hsplit, List.cons_append]
    rw [List.nil_append, ← List.filter_cons_of_neg (a := root)
      (by simp [isDirective_of_not_refers (refers_root w.doc)])] at hsupplied
    have hbroken : BrokenOff (library.content library.maxDepth [] w.doc.directory?) w.doc w₁.doc e' stop
        (root :: before) after copies := by
      refine ⟨horder, hstop, ⟨href, hkind, hcontent⟩, hsupplied, ?_, ?_, ?_⟩
      · exact fun x hx => kept_of_supplied hwf horder hstop hsupplied hx
      · exact descendants_of_supplied hwf horder hstop hsupplied
      · exact fun x hx hrefers => expanded_of_supplied hwf horder hstop hsupplied hx hrefers
    refine ⟨hrun, stop, ⟨root :: before, after, copies, hbroken⟩, ?_⟩
    rintro other ⟨before', after', copies', hother⟩
    exact hbroken.unique hother

/-- Two stylesheets in one directory, one of which imports the other and then one that is not there. -/
def frayed : Library where
  chain := some [((MemoryStore.mk ∅).add "lib/_b.scss" "plain" |>.add "lib/c.scss" "frayed").provider]
  fallback := []
  parse source := .ok <|
    if source.contents = "frayed" then
      ⟨#[{ kind := .stylesheet none, slots := #[1, 2, 3] }, { kind := .raw "z", parent := some 0 },
         { kind := .importRule "b" none, parent := some 0 }, { kind := .importRule "d" none, parent := some 0 }]⟩
    else ⟨#[{ kind := .stylesheet none, slots := #[1] }, { kind := .raw "x", parent := some 0 }]⟩
  maxDepth := 2

/-- Imports of the two, with the one that fails in the middle. -/
def leaflet : Workspace where
  doc :=
    ⟨#[{ kind := .stylesheet none, slots := #[1, 3, 4] }, { kind := .rule ".a", parent := some 0, slots := #[2] },
       { kind := .importRule "lib/b" none, parent := some 1 }, { kind := .importRule "lib/c" none, parent := some 0 },
       { kind := .importRule "lib/b" none, parent := some 0 }]⟩

theorem expandImports_leaflet :
    ∃ w', expandImports frayed leaflet = .error (.importNotFound "d" "lib/d") w' ∧ w'.run = leaflet.run ∧
      w'.doc.parent 3 = some 0 ∧ ∃ copies : List Nat, copies.map w'.doc.fragment = [⟨.raw "x", []⟩] ∧
        w'.doc.descendants root = [0, 1] ++ copies.flatMap w'.doc.descendants ++ [3, 4] := by
  have hregular : frayed.Regular := by
    intro source doc h
    obtain rfl := Except.ok.inj h
    split
    · exact (ofFragment_spec (f := ⟨.stylesheet none, [⟨.raw "z", []⟩, ⟨.importRule "b" none, []⟩,
        ⟨.importRule "d" none, []⟩]⟩) rfl).1
    · exact (ofFragment_spec (f := ⟨.stylesheet none, [⟨.raw "x", []⟩]⟩) rfl).1
  have hwf : leaflet.doc.WellFormed :=
    (ofFragment_spec (f := ⟨.stylesheet none, [⟨.rule ".a", [⟨.importRule "lib/b" none, []⟩]⟩,
      ⟨.importRule "lib/c" none, []⟩, ⟨.importRule "lib/b" none, []⟩]⟩) rfl).1
  have hvalue : frayed.expected frayed.maxDepth [] leaflet.doc = .error (.importNotFound "d" "lib/d") := by
    decide +kernel
  have hexpected := expected_of_expandImports hregular hwf
  rw [hvalue] at hexpected
  cases hrun : expandImports frayed leaflet with
  | ok n w' => simp [hrun] at hexpected
  | error e w' =>
    simp only [hrun, Except.error.injEq] at hexpected
    subst hexpected
    obtain ⟨hstate, stop, ⟨before, after, copies, hbroken⟩, -⟩ :=
      expandImports_breaks_off frayed leaflet hregular hwf hrun
    have hdescendants : leaflet.doc.descendants root = [0, 1, 2] ++ 3 :: [4] := by decide +kernel
    have hcontent : frayed.content frayed.maxDepth [] leaflet.doc.directory? "lib/b" = .ok ([⟨.raw "x", []⟩], 1) := by
      decide +kernel
    have hstop : stop = 3 := by
      obtain ⟨href, hkind, hcause⟩ := hbroken.cause
      have hmem : stop ∈ leaflet.doc.descendants root := by simp [hbroken.order]
      simp only [hdescendants, List.cons_append, List.nil_append, List.mem_cons, List.not_mem_nil, or_false] at hmem
      rcases hmem with rfl | rfl | rfl | rfl | rfl
      · cases hkind
      · cases hkind
      · obtain rfl : href = "lib/b" := Option.some.inj (hkind.symm.trans (by decide +kernel))
        simp [hcontent] at hcause
      · rfl
      · obtain rfl : href = "lib/b" := Option.some.inj (hkind.symm.trans (by decide +kernel))
        simp [hcontent] at hcause
    have horder := hbroken.order
    rw [hstop, hdescendants, List.append_cons_inj_of_notMem (by decide) (by decide)] at horder
    obtain ⟨rfl, -, rfl⟩ := horder
    subst hstop
    have hdirectives : [0, 1, 2].filter leaflet.doc.isDirective = [2] := by decide +kernel
    obtain ⟨href, n, hkind, hcomplete⟩ := hbroken.supplied.complete 2 (by simp [hdirectives])
    obtain rfl : href = "lib/b" := Option.some.inj (hkind.symm.trans (by decide +kernel))
    rw [hcontent] at hcomplete
    refine ⟨w', rfl, hstate, (hbroken.kept 3 List.mem_cons_self).2.1, copies 2, ?_, ?_⟩
    · exact (Prod.mk.inj (Except.ok.inj hcomplete)).1.symm
    · have hfree : [0, 1, 2].filter (leaflet.doc.isFree (· ∈ [2])) = [0, 1, 2] := by decide +kernel
      rw [hbroken.order_eq, hdirectives, hfree]
      simp

end Import

end NestedStyles
