import NestedStyles.Proofs.Document.Exchange
import NestedStyles.Proofs.Import.Meaning
import NestedStyles.Proofs.Pass.Trimming

/-!
# Putting imported content in place

The steps that an import is replaced in. Finding a source touches neither the document nor the run (`fetch_run`), and
putting a document in the place of an import exchanges it for new nodes with the content of that document
(`replace_run`).
-/

namespace NestedStyles.Import

open Document Pass

variable {w : Workspace} {parent node : Nat}

/-! ### Grafts -/

/-- A new node with the content of a fragment goes in at a position. -/
private theorem graft_run (hwf : w.doc.WellFormed) (hplt : parent < w.doc.next) (f : Fragment) {l₁ l₂ : List Nat}
    (hlist : w.doc.children parent = l₁ ++ l₂) :
    ∃ doc', Pass.insertAt parent l₁.length w.doc.next { w with doc := (w.doc.instantiate f).1 } =
        .ok () { w with doc := doc' } ∧ doc'.WellFormed ∧ Frame w.doc doc' [] (some parent) ∧
      doc'.children parent = l₁ ++ w.doc.next :: l₂ ∧ w.doc.next < doc'.next ∧ doc'.fragment w.doc.next = f := by
  have hfirst := instantiate_spec w.doc f
  have hpos := f.size_pos
  have hwf₁ := hwf.instantiate f
  have hcontent := hwf.fragment_instantiate f
  have hdetached := parent_instantiate w.doc f
  generalize (w.doc.instantiate f).1 = doc₁ at *
  have hframe₁ : Frame w.doc doc₁ [] (some parent) := hfirst.frame _ _
  have hlt : w.doc.next < doc₁.next := by rw [hfirst.next_eq]; omega
  -- a new node is above none of those that were there
  have habove : ¬ doc₁.Spans w.doc.next parent := by
    intro hspan
    have := hwf.lt_next_of_spans (hframe₁.spans_of_spans hwf ⟨hplt, by simp⟩ hspan) hplt
    omega
  have hlist₁ : doc₁.children parent = l₁ ++ l₂ := by rw [hfirst.children_eq hplt, hlist]
  have hok : doc₁.refusal? parent l₁.length w.doc.next = none := by
    refine hwf₁.refusal?_eq_none_iff.2 ⟨?_, hdetached, habove, by simp [hlist₁]⟩
    have := hwf.root_lt_next
    omega
  have hplaced := hwf₁.relisted_place hlt (Nat.lt_of_lt_of_le hplt hframe₁.next_le) hok
  rw [hlist₁, insertIdx_length_append] at hplaced
  have hframe₂ : Frame doc₁ (doc₁.place parent l₁.length w.doc.next) [w.doc.next] (some parent) := by
    apply hplaced.frame hwf₁
    intro x hx
    have hne : x ≠ w.doc.next := by
      rintro rfl
      exact not_outside_of_mem List.mem_cons_self hx
    simp [hlist₁, hne]
  refine ⟨doc₁.place parent l₁.length w.doc.next, ?_, hplaced.wf, ?_, ?_, ?_, ?_⟩
  · simp only [Pass.insertAt, run_bind, run_view, hok, run_editDocument]
  · refine hframe₁.trans hwf hframe₂ ?_ fun _ h => Or.inl h
    intro t ht
    rw [List.mem_singleton.1 ht]
    exact not_outside_of_le (Nat.le_refl _)
  · rw [hplaced.children_eq, if_pos rfl]
  · rw [hplaced.next_eq]
    exact hlt
  · rw [hplaced.fragment_eq hwf₁ habove, hcontent]

/-- Copies of nodes of another document go in at a position, one after the other. -/
theorem graftAll_run (hwf : w.doc.WellFormed) (hplt : parent < w.doc.next) (other : Document)
    {nodes l₁ l₂ : List Nat} (hlist : w.doc.children parent = l₁ ++ l₂) :
    ∃ doc' copies, graftAll parent other l₁.length nodes w = .ok () { w with doc := doc' } ∧ doc'.WellFormed ∧
      Frame w.doc doc' [] (some parent) ∧ doc'.children parent = l₁ ++ copies ++ l₂ ∧
      (∀ c ∈ copies, w.doc.next ≤ c) ∧ copies.map doc'.fragment = nodes.map other.fragment := by
  induction nodes generalizing w l₁ with
  | nil => exact ⟨w.doc, [], rfl, hwf, Frame.refl _ _ _, by simp [hlist], by simp, rfl⟩
  | cons node nodes ih =>
    obtain ⟨doc₁, hrun₁, hwf₁, hframe₁, hlist₁, hlt, hcontent⟩ := graft_run hwf hplt (other.fragment node) hlist
    have hlist₂ : doc₁.children parent = (l₁ ++ [w.doc.next]) ++ l₂ := by simp [hlist₁]
    obtain ⟨doc', copies, hrun, hwf', hframe, hlist', hfresh, hcontents⟩ :=
      ih (w := { w with doc := doc₁ }) hwf₁ (Nat.lt_of_lt_of_le hplt hframe₁.next_le) hlist₂
    have hkept : doc'.fragment w.doc.next = doc₁.fragment w.doc.next := by
      apply hframe.fragment_eq hwf₁ hwf'
      intro x hx
      refine ⟨⟨hx.lt_next hlt, by simp⟩, ?_⟩
      rintro h
      obtain rfl := Option.some.inj h
      have := hwf.lt_next_of_spans (hframe₁.spans_of_spans hwf ⟨hplt, by simp⟩ hx) hplt
      omega
    refine ⟨doc', w.doc.next :: copies, ?_, hwf', hframe₁.trans hwf hframe (by simp) fun _ h => Or.inl h, ?_, ?_, ?_⟩
    · rw [graftAll]
      simp only [run_bind, run_makeNode, graft, instantiate_id, hrun₁]
      simpa using hrun
    · rw [hlist']
      simp
    · exact List.forall_mem_cons.2 ⟨Nat.le_refl _, fun c hc => Nat.le_trans hframe₁.next_le (hfresh c hc)⟩
    · rw [List.map_cons, List.map_cons, hcontents, hkept, hcontent]

/-- The content of a document takes the place of a node. -/
theorem replace_run (hwf : w.doc.WellFormed) {pre post : List Nat}
    (hlist : w.doc.children parent = pre ++ node :: post) (content : Document) :
    ∃ doc' copies, replace parent node content w =
        .ok (content.children root).length { w with doc := doc' } ∧
      Exchanged w.doc doc' [node] (fun _ => copies) ∧
      copies.map doc'.fragment = (content.children root).map content.fragment := by
  have hp : w.doc.parent node = some parent := hwf.mem_children_iff.1 (by simp [hlist])
  obtain ⟨hpre, hpost⟩ := hwf.not_mem_of_children_eq hlist
  have hremoved := hwf.unlinked_removeChild hp
  have hlist₁ : (w.doc.removeChild parent node).1.children parent = pre ++ post := by
    rw [children_removeChild, if_pos rfl, hlist, List.erase_append_right _ hpre, List.erase_cons_head]
  obtain ⟨doc', copies, hrun, hwf', hframe, hlist', hfresh, hcontents⟩ :=
    graftAll_run (w := { w with doc := (w.doc.removeChild parent node).1 }) hremoved.wf
      (by rw [hremoved.next_eq]; exact hwf.parent_lt_next hp) content hlist₁
  have hout {x : Nat} (hx : x < w.doc.next) : (w.doc.removeChild parent node).1.Outside [] x :=
    ⟨by rw [hremoved.next_eq]; exact hx, by simp⟩
  rw [hremoved.next_eq] at hfresh
  refine ⟨doc', copies, ?_, ?_, hcontents⟩
  · unfold replace
    simp only [run_bind, run_view, indexOf?_eq, hlist, idxOf?_append_cons hpre, run_removeChild, hrun, run_pure]
  · refine ⟨hwf', hremoved.next_eq ▸ hframe.next_le, fun _ _ c hc => ⟨hfresh c hc, ?_⟩, fun x hx => ?_, fun x hx => ?_,
      fun x hx => ?_⟩
    · exact hwf'.child_lt_next (show c ∈ doc'.children parent by simp [hlist', hc])
    · rw [hframe.kind_eq (hout hx), hremoved.kind_eq]
    · rw [hframe.parent_eq (hout hx), hremoved.parent_eq]
    · by_cases hx' : parent = x
      · subst hx'
        rw [hlist', hlist, flatMap_standIns_singleton hpre hpost]
      · have hnot : ∀ c ∈ w.doc.children x, c ∉ [node] := by
          intro c hc hmem
          rw [List.mem_singleton.1 hmem] at hc
          exact hx' (Option.some.inj (hp.symm.trans (hwf.mem_children_iff.1 hc)))
        rw [hframe.children_eq (hout hx) (by simpa using hx'), hremoved.children_eq_of_not_mem hnot,
          flatMap_standIns_of_not_mem hnot]

/-! ### Sources -/

theorem find_run (library : Library) (identifier : String) (w : Workspace) :
    ∃ installed log, find library identifier w =
      .ok ((library.chain.getD library.fallback).find identifier).1 { w with installed, log } := by
  unfold find
  simp only [run_bind, run_view]
  split
  · exact ⟨_, _, rfl⟩
  · exact ⟨_, _, rfl⟩

/-- A source is fetched as the library says, and only the log can tell. -/
theorem fetch_run (library : Library) (underway : List String) (href : String) (w : Workspace) :
    ∃ installed log, fetch library underway href w =
      match library.lookup underway w.doc.directory? href with
      | .error e => .error e { w with installed, log }
      | .ok (source, doc) => .ok (source, doc.setDirectory source.directory?) { w with installed, log } := by
  obtain ⟨installed, log, hfind⟩ := find_run library (resolve href w.doc.directory?) w
  unfold fetch Library.lookup
  simp only [run_bind, run_view, hfind]
  rcases ((library.chain.getD library.fallback).find (resolve href w.doc.directory?)).1 with _ | source
  · exact ⟨installed, log, rfl⟩
  · by_cases hunderway : underway.contains source.uri = true
    · simp only [hunderway, if_true]
      exact ⟨installed, log, rfl⟩
    · simp only [hunderway]
      cases library.parse source with
      | error e => exact ⟨_, _, rfl⟩
      | ok doc => exact ⟨_, _, rfl⟩

theorem directory?_setDirectory {doc : Document} (hwf : doc.WellFormed) (source : Source) :
    (doc.setDirectory source.directory?).directory? = Library.directoryIn source doc := by
  unfold setDirectory Library.directoryIn
  cases hkind : doc.kind root with
  | stylesheet directory => simp [directory?, kind_setKind, hwf.root_lt_next]
  | _ => simp [directory?, hkind]

theorem children_fragment_setDirectory {doc : Document} (hwf : doc.WellFormed) (directory : Option String) :
    ((doc.setDirectory directory).fragment root).children = (doc.fragment root).children := by
  rw [(hwf.setDirectory directory).children_fragment, hwf.children_fragment]
  unfold setDirectory
  split
  · exact (hwf.retyped_setKind hwf.root_lt_next _).fragments_below hwf
  · rfl

end NestedStyles.Import
