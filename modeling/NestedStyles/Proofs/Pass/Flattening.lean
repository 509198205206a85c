import NestedStyles.Proofs.Pass.Unnesting

/-!
# Where flattening puts the rules

The loop over the top level puts the rules nested in each rule in behind it, so that the top level becomes the list
`flattened`, and nothing else in the document changes (`FlattenedTo`). All that flattening does follows from that
(`flatten_flattens`): it succeeds, no rule at the top has a rule among its children afterwards, everything at the top
was in the tree before (`flatten_levels`), and a second run finds nothing to move (`flatten_eq_flattened`).
-/

namespace NestedStyles

open Document

/-- Kinds are the same up to the selector of a rule. -/
def Kind.Alike (kind kind' : Kind) : Prop := kind' = kind ∨ kind.isRule = true ∧ kind'.isRule = true

namespace Kind.Alike

variable {kind kind' kind'' : Kind}

theorem refl (kind : Kind) : kind.Alike kind := Or.inl rfl

theorem isRule_eq (h : kind.Alike kind') : kind'.isRule = kind.isRule := by
  rcases h with rfl | ⟨h, h'⟩
  · rfl
  · rw [h, h']

theorem trans (h₁ : kind.Alike kind') (h₂ : kind'.Alike kind'') : kind.Alike kind'' := by
  rcases h₂ with rfl | ⟨h, h'⟩
  · exact h₁
  · exact Or.inr ⟨h₁.isRule_eq ▸ h, h'⟩

theorem eq_of_not_rule (h : kind.Alike kind') (hrule : kind.isRule = false) : kind' = kind := by
  rcases h with rfl | ⟨h, -⟩
  · rfl
  · simp [h] at hrule

end Kind.Alike

namespace Document

variable {doc doc' : Document}

/-! ### The top level -/

/-- The top level below `parent` has become the list `flattened`, and nothing else differs. -/
structure FlattenedTo (hwf : doc.WellFormed) (doc' : Document) (parent : Nat) : Prop where
  wf : doc'.WellFormed
  next_eq : doc'.next = doc.next
  children_parent : doc'.children parent = (doc.flattened hwf parent).map Prod.fst
  regrouped : Regrouped doc doc' parent (doc.flattened hwf parent)

/-- There is no rule directly inside of the node, if it is a rule. -/
def Level (doc : Document) (node : Nat) : Prop :=
  (doc.kind node).isRule = true → ∀ c ∈ doc.children node, (doc.kind c).isRule = false

/-- Rules from further down have been put in at the top, below `parent`. -/
structure Lifted (doc doc' : Document) (parent : Nat) : Prop where
  wf : doc'.WellFormed
  alike : ∀ x, (doc.kind x).Alike (doc'.kind x)
  sublist : ∀ x, x ≠ parent → (doc'.children x).Sublist (doc.children x)
  spans_of_mem : ∀ c ∈ doc'.children parent, doc.Spans parent c

/-- What is in the tree was in it before. -/
theorem Lifted.spans {parent : Nat} (h : Lifted doc doc' parent) (hwf : doc.WellFormed) {x : Nat}
    (hx : doc'.Spans parent x) : doc.Spans parent x := by
  refine Spans.climb (motive := fun x => doc.Spans parent x) (Spans.refl doc parent) ?_ hx
  intro x p hp _ ih
  have hmem := h.wf.mem_children_iff.2 hp
  by_cases hparent : p = parent
  · exact h.spans_of_mem x (hparent ▸ hmem)
  · exact ih.down (hwf.mem_children_iff.1 ((h.sublist p hparent).subset hmem))

section Lists

variable (hwf : doc.WellFormed)

/-- The rules that are listed are rules. -/
theorem alike_of_mem_unnested {rule : Nat} {selector : String} {entry : Nat × Kind}
    (hrule : (doc.kind rule).isRule = true) (h : entry ∈ doc.unnested hwf rule selector) :
    (doc.kind entry.1).Alike entry.2 := by
  refine Or.inr ⟨?_, isRule_of_mem_unnested hwf h⟩
  rcases exists_parent_of_mem_unnested hwf h with heq | ⟨hentry, -⟩
  · rw [heq, hrule]
  · exact hentry

theorem alike_of_mem_flattened {parent : Nat} {entry : Nat × Kind} (h : entry ∈ doc.flattened hwf parent) :
    (doc.kind entry.1).Alike entry.2 := by
  obtain ⟨top, -, hentry⟩ := List.mem_flatMap.1 h
  cases hrule : (doc.kind top).isRule with
  | true =>
    obtain ⟨selector, hkind⟩ := Kind.exists_of_isRule hrule
    rw [unnestedTop_of_rule hwf hkind] at hentry
    exact alike_of_mem_unnested hwf hrule hentry
  | false =>
    rw [unnestedTop_of_not_rule hwf hrule] at hentry
    rw [List.mem_singleton.1 hentry]
    exact Kind.Alike.refl _

theorem spans_of_mem_flattened {parent : Nat} {entry : Nat × Kind} (h : entry ∈ doc.flattened hwf parent) :
    doc.Spans parent entry.1 := by
  obtain ⟨top, htop, hentry⟩ := List.mem_flatMap.1 h
  exact (Spans.of_parent (hwf.mem_children_iff.1 htop)).trans (spans_of_mem_unnestedTop hwf hentry)

/-- Where no rule at the top has a rule in it, the top level is flat already. -/
theorem flattened_of_levels {parent : Nat} (h : ∀ top ∈ doc.children parent, doc.Level top) :
    (doc.flattened hwf parent).length = (doc.children parent).length := by
  have hsingle : ∀ top ∈ doc.children parent, doc.unnestedTop hwf top = [(top, doc.kind top)] := by
    intro top htop
    cases hrule : (doc.kind top).isRule with
    | true =>
      obtain ⟨selector, hkind⟩ := Kind.exists_of_isRule hrule
      have hnone : (doc.children top).flatMap (doc.unnestedChild hwf selector) = [] := by
        rw [List.flatMap_eq_nil_iff]
        exact fun c hc => unnestedChild_of_not_rule hwf selector (h top htop hrule c hc)
      rw [unnestedTop_of_rule hwf hkind, unnested_eq, hnone, hkind]
    | false => exact unnestedTop_of_not_rule hwf hrule
  rw [flattened, List.flatMap_congr hsingle]
  simp

end Lists

namespace FlattenedTo

variable {parent : Nat} {hwf : doc.WellFormed} (h : FlattenedTo hwf doc' parent)

include h

theorem alike (x : Nat) : (doc.kind x).Alike (doc'.kind x) := by
  by_cases hx : x ∈ (doc.flattened hwf parent).map Prod.fst
  · obtain ⟨entry, hentry, rfl⟩ := List.mem_map.1 hx
    rw [h.regrouped.kind_entry entry hentry]
    exact alike_of_mem_flattened hwf hentry
  · rw [h.regrouped.kind_eq x hx]
    exact Kind.Alike.refl _

theorem lifted : Lifted doc doc' parent where
  wf := h.wf
  alike := h.alike
  sublist x hx := by
    by_cases hmem : x ∈ (doc.flattened hwf parent).map Prod.fst
    · obtain ⟨entry, hentry, rfl⟩ := List.mem_map.1 hmem
      rw [h.regrouped.children_entry entry hentry]
      split
      · exact List.filter_sublist
      · exact List.Sublist.refl _
    · rw [h.regrouped.children_eq x hmem hx]
  spans_of_mem c hc := by
    rw [h.children_parent] at hc
    obtain ⟨entry, hentry, rfl⟩ := List.mem_map.1 hc
    exact spans_of_mem_flattened hwf hentry

/-- No rule at the top has a rule among its children. -/
theorem level {top : Nat} (htop : top ∈ doc'.children parent) : doc'.Level top := by
  rw [h.children_parent] at htop
  obtain ⟨entry, hentry, rfl⟩ := List.mem_map.1 htop
  intro hrule c hc
  rw [h.regrouped.kind_entry entry hentry] at hrule
  rw [h.regrouped.children_entry entry hentry, if_pos hrule, plainChildren, List.mem_filter] at hc
  rw [(h.alike c).isRule_eq]
  simpa using hc.2

/-- A node that is not at the top afterwards is where it was. -/
theorem parent_eq {x : Nat} (hx : x ∉ (doc.flattened hwf parent).map Prod.fst) : doc'.parent x = doc.parent x := by
  apply hwf.parent_congr h.wf
  intro p
  by_cases hp : p = parent
  · rw [hp, h.children_parent]
    exact ⟨fun hmem => absurd hmem hx, fun hmem => absurd (fst_mem_flattened hwf hmem) hx⟩
  · by_cases hmem : p ∈ (doc.flattened hwf parent).map Prod.fst
    · obtain ⟨entry, hentry, rfl⟩ := List.mem_map.1 hmem
      rw [h.regrouped.children_entry entry hentry]
      split
      · next hrule =>
        rw [plainChildren, List.mem_filter, Bool.not_eq_true', and_iff_left_iff_imp]
        intro hchild
        rw [← Bool.not_eq_true]
        exact fun hxrule => hx (mem_flattened_of_child hwf hentry hrule hchild hxrule)
      · rfl
    · rw [h.regrouped.children_eq p hmem hp]

end FlattenedTo

end Document

namespace Pass

variable {w : Workspace}

/-! ### The loop -/

/-- The rules nested in a child of `parent` come out of it and in behind it. -/
theorem liftNested_regroups {levels parent top : Nat} {before after : List Nat} (hwf : w.doc.WellFormed)
    (hlevels : w.doc.next ≤ levels) (hlist : w.doc.children parent = before ++ top :: after) :
    ∃ nested w₁ w₂, takeNested levels top w = .ok nested w₁ ∧ insertChain parent top nested w₁ = .ok () w₂ ∧
      (w.doc.unnestedTop hwf top).map Prod.fst = top :: nested ∧ w₂.run = w.run ∧ (nested = [] → w₂ = w) ∧
      w₂.doc.WellFormed ∧ w₂.doc.next = w.doc.next ∧
      w₂.doc.children parent = (before ++ top :: nested) ++ after ∧
      Regrouped w.doc w₂.doc parent (w.doc.unnestedTop hwf top) := by
  have hp : w.doc.parent top = some parent := hwf.mem_children_iff.1 (by simp [hlist])
  cases hrule : (w.doc.kind top).isRule with
  | true =>
    obtain ⟨selector, hkind⟩ := Kind.exists_of_isRule hrule
    obtain ⟨w₁, below, hrun, hkeep, hsame, hbelow, hextracted⟩ :=
      takeNested_extracts hwf hkind (Nat.le_trans (hwf.size_fragment_le_next top) hlevels)
    obtain ⟨hlist₁, hinsertable⟩ := hextracted.insertable hwf hp hbelow
    obtain ⟨doc₂, hinsert, hrelisted⟩ := insertChain_run hextracted.wf (hlist₁.trans hlist) hinsertable
    rw [unnestedTop_of_rule hwf hkind]
    refine ⟨_, w₁, _, hrun, hinsert, ?_, hkeep, ?_, hrelisted.wf, hrelisted.next_eq.trans hextracted.next_eq, ?_, ?_⟩
    · rw [unnested_eq, hbelow]
      rfl
    · intro hnone
      rw [hnone] at hinsert
      rw [← (EStateM.Result.ok.inj hinsert).2]
      exact hsame (List.map_eq_nil_iff.1 hnone)
    · rw [hrelisted.children_eq, if_pos rfl]
      simp
    · apply (hextracted.regrouped_cons hwf hkind hbelow parent).relisted hrelisted
      intro entry hentry heq
      exact hwf.not_spans_parent hp (heq ▸ spans_of_mem_unnested hwf hentry)
  | false =>
    rw [unnestedTop_of_not_rule hwf hrule]
    exact ⟨[], w, w, takeNested_of_not_rule levels hrule, rfl, rfl, rfl, fun _ => rfl, hwf, rfl, by simpa using hlist,
      Regrouped.singleton hrule parent⟩

/-- The loop over the top level goes on with `tops` behind what it has put in place. -/
theorem flattenFrom_regroups {levels parent steps : Nat} {tops : List Nat} (hwf : w.doc.WellFormed)
    (hlevels : w.doc.next ≤ levels) (hsteps : tops.length < steps) (before : List Nat)
    (hlist : w.doc.children parent = before ++ tops) :
    ∃ n w', flattenFrom levels parent steps before.length w = .ok n w' ∧
      n + tops.length = (tops.flatMap (w.doc.unnestedTop hwf)).length ∧ w'.run = w.run ∧ (n = 0 → w' = w) ∧
      w'.doc.WellFormed ∧ w'.doc.next = w.doc.next ∧
      w'.doc.children parent = before ++ (tops.flatMap (w.doc.unnestedTop hwf)).map Prod.fst ∧
      Regrouped w.doc w'.doc parent (tops.flatMap (w.doc.unnestedTop hwf)) := by
  induction tops generalizing w before steps with
  | nil =>
    obtain ⟨steps, rfl⟩ := Nat.exists_eq_succ_of_ne_zero (Nat.ne_of_gt hsteps)
    refine ⟨0, w, ?_, rfl, rfl, fun _ => rfl, hwf, rfl, hlist, Regrouped.nil w.doc parent⟩
    simp only [flattenFrom, run_bind, run_view, childAt?_length hlist, List.head?_nil, run_pure]
  | cons top tops ih =>
    obtain ⟨steps, rfl⟩ := Nat.exists_eq_succ_of_ne_zero (Nat.ne_of_gt (Nat.zero_lt_of_lt hsteps))
    have hsteps' : tops.length < steps := Nat.lt_of_succ_lt_succ hsteps
    obtain ⟨nested, w₁, w₂, hrun₁, hrun₂, hfst, hkeep₂, hsame₂, hwf₂, hnext₂, hlist₂, hregrouped₂⟩ :=
      liftNested_regroups hwf hlevels hlist
    have hparent : ∀ t ∈ top :: tops, w.doc.parent t = some parent := fun t ht =>
      hwf.mem_children_iff.1 (by rw [hlist]; exact List.mem_append_right before ht)
    have hnodup : (top :: tops).Nodup := (List.nodup_append.1 (hlist ▸ hwf.nodup_children parent)).2.1
    have hentries : ∀ entry ∈ w.doc.unnestedTop hwf top, w.doc.Spans top entry.1 :=
      fun _ => spans_of_mem_unnestedTop hwf
    obtain ⟨n, w₃, hrun₃, hlength, hkeep₃, hsame₃, hwf₃, hnext₃, hlist₃, hregrouped₃⟩ :=
      ih hwf₂ (hnext₂ ▸ hlevels) hsteps' _ hlist₂
    have hrest : tops.flatMap (w₂.doc.unnestedTop hwf₂) = tops.flatMap (w.doc.unnestedTop hwf) := by
      apply List.flatMap_congr
      intro t ht
      apply unnestedTop_congr hwf hwf₂
      exact fun x hx => (same_below_rest hwf hparent hnodup hregrouped₂ hentries ht hx).2.2
    simp only [hrest] at hlength hlist₃ hregrouped₃
    have hlen := congrArg List.length hfst
    rw [List.length_map, List.length_cons] at hlen
    have hindex : before.length + nested.length + 1 = (before ++ top :: nested).length := by
      simp
      omega
    refine ⟨nested.length + n, w₃, ?_, ?_, hkeep₃.trans hkeep₂, ?_, hwf₃, hnext₃.trans hnext₂, ?_, ?_⟩
    · simp only [flattenFrom, run_bind, run_view, childAt?_length hlist, List.head?_cons, hrun₁, hrun₂, hindex, hrun₃,
        run_pure]
    · rw [List.flatMap_cons, List.length_append, List.length_cons, hlen]
      omega
    · intro hnone
      rw [hsame₃ (by omega), hsame₂ (List.length_eq_zero_iff.1 (by omega))]
    · rw [hlist₃, List.flatMap_cons, List.map_append, hfst, List.append_assoc]
    · rw [List.flatMap_cons]
      exact regrouped_rest hwf hparent hnodup hregrouped₂ hentries _
        (fun _ _ _ => spans_of_mem_unnestedTop hwf) hregrouped₃

/-! ### The whole pass -/

/-- Flattening succeeds and turns the top level into the list `flattened`. It says how many nodes have come in, and if
there are none, it does nothing. -/
theorem flatten_flattens (hwf : w.doc.WellFormed) (parent : Nat) :
    ∃ n w', flatten parent w = .ok n w' ∧ n + (w.doc.children parent).length = (w.doc.flattened hwf parent).length ∧
      w'.run = w.run ∧ (n = 0 → w' = w) ∧ FlattenedTo hwf w'.doc parent := by
  obtain ⟨n, w', hrun, hcount, hkeep, hsame, hwf', hnext, hlist, hregrouped⟩ :=
    flattenFrom_regroups hwf (Nat.le_refl w.doc.next) (hwf.length_children_lt parent) [] rfl
  exact ⟨n, w', hrun, hcount, hkeep, hsame, hwf', hnext, hlist, hregrouped⟩

/-- After flattening no rule below the root has a rule among its children. -/
theorem flatten_levels (hwf : w.doc.WellFormed) (node : Nat) :
    ∃ n w', flatten node w = .ok n w' ∧ w'.run = w.run ∧ Lifted w.doc w'.doc node ∧
      ∀ c ∈ w'.doc.children node, w'.doc.Level c := by
  obtain ⟨n, w', hrun, -, hkeep, -, hflattened⟩ := flatten_flattens hwf node
  exact ⟨n, w', hrun, hkeep, hflattened.lifted, fun _ => hflattened.level⟩

/-- Flattening succeeds, and the top level becomes the list `flattened`: the nodes keep their numbers and have the
kinds listed with them, and a rule keeps the children that are no rules. The number that is returned is that of the
nodes that have come in at the top. All other nodes are as they were, and flattening again moves nothing. -/
theorem flatten_eq_flattened (w : Workspace) (hwf : w.doc.WellFormed) (parent : Nat) :
    ∃ n w', flatten parent w = .ok n w' ∧ w'.doc.next = w.doc.next ∧
      w'.doc.children parent = (w.doc.flattened hwf parent).map Prod.fst ∧
      n + (w.doc.children parent).length = (w'.doc.children parent).length ∧
      (∀ entry ∈ w.doc.flattened hwf parent, w'.doc.kind entry.1 = entry.2 ∧ w'.doc.parent entry.1 = some parent ∧
        w'.doc.children entry.1 = if entry.2.isRule then w.doc.plainChildren entry.1 else w.doc.children entry.1) ∧
      (∀ x, x ∉ (w.doc.flattened hwf parent).map Prod.fst → w'.doc.kind x = w.doc.kind x ∧
        w'.doc.parent x = w.doc.parent x ∧ (x ≠ parent → w'.doc.children x = w.doc.children x)) ∧
      flatten parent w' = .ok 0 w' := by
  obtain ⟨n, w', hrun, hcount, -, -, hflattened⟩ := flatten_flattens hwf parent
  have hlist := hflattened.children_parent
  have hregrouped := hflattened.regrouped
  refine ⟨n, w', hrun, hflattened.next_eq, hlist, ?_, ?_, ?_, ?_⟩
  · rw [hcount, hlist, List.length_map]
  · intro entry hentry
    refine ⟨hregrouped.kind_entry entry hentry, ?_, hregrouped.children_entry entry hentry⟩
    rw [← hflattened.wf.mem_children_iff, hlist]
    exact List.mem_map_of_mem hentry
  · intro x hx
    exact ⟨hregrouped.kind_eq x hx, hflattened.parent_eq hx, hregrouped.children_eq x hx⟩
  · obtain ⟨again, w'', hrun', hcount', -, hsame, -⟩ := flatten_flattens hflattened.wf parent
    rw [flattened_of_levels hflattened.wf fun _ => hflattened.level] at hcount'
    obtain rfl : again = 0 := by omega
    rw [hrun', hsame rfl]

/-- Rules nested on two levels, between other content. -/
def layered : Workspace where
  doc :=
    ⟨#[{ kind := .stylesheet none, slots := #[1, 7, 8] },
       { kind := .rule ".a, .b", parent := some 0, slots := #[2, 3, 6] },
       { kind := .declaration "top" "0", parent := some 1 },
       { kind := .rule "&.c", parent := some 1, slots := #[4, 5] },
       { kind := .rule "p", parent := some 3 }, { kind := .raw "x", parent := some 3 },
       { kind := .rule "q", parent := some 1 }, { kind := .comment "", parent := some 0 },
       { kind := .rule ".z", parent := some 0 }]⟩

theorem wellFormed_layered : layered.doc.WellFormed :=
  (ofFragment_spec (f := ⟨.stylesheet none, [⟨.rule ".a, .b", [⟨.declaration "top" "0", []⟩,
    ⟨.rule "&.c", [⟨.rule "p", []⟩, ⟨.raw "x", []⟩]⟩, ⟨.rule "q", []⟩]⟩, ⟨.comment "", []⟩, ⟨.rule ".z", []⟩]⟩) rfl).1

theorem flatten_layered :
    ∃ w', flatten root layered = .ok 3 w' ∧ w'.doc.children root = [1, 3, 4, 6, 7, 8] ∧
      w'.doc.kind 4 = .rule ".a.c p, .b.c p" ∧ w'.doc.children 1 = [2] ∧ flatten root w' = .ok 0 w' := by
  have hflattened : layered.doc.flattened wellFormed_layered root = [(1, .rule ".a, .b"), (3, .rule ".a.c, .b.c"),
      (4, .rule ".a.c p, .b.c p"), (6, .rule ".a q, .b q"), (7, .comment ""), (8, .rule ".z")] := by
    decide +kernel
  obtain ⟨n, w', hrun, -, hlist, hcount, hentries, -, hagain⟩ := flatten_eq_flattened layered wellFormed_layered root
  rw [hflattened] at hlist hentries
  rw [hlist] at hcount
  obtain rfl : n = 3 := by
    have hthree : (layered.doc.children root).length = 3 := rfl
    rw [hthree] at hcount
    simpa using hcount
  refine ⟨w', hrun, hlist, ?_, ?_, hagain⟩
  · exact (hentries (4, .rule ".a.c p, .b.c p") (by simp)).1
  · exact (hentries (1, .rule ".a, .b") (by simp)).2.2

end Pass

end NestedStyles
