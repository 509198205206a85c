import NestedStyles.Proofs.Document.Traversal
import NestedStyles.Proofs.Walk.Settling

/-!
# Where definitions come from

Evaluation passes by a definition and makes none. So a definition in what it leaves was in what it started from, or it
was in the body of a mixin, which an inclusion has brought in with all that was in it (`Env.eval_definitions`).
-/

namespace NestedStyles

open Document Semantics

/-- The name and the parameters of the mixin that a node of the kind defines. -/
def Kind.definition? : Kind → Option (String × List Param)
  | mixin name params => some (name, params)
  | _ => none

@[simp]
theorem Kind.definition?_mapText (g : String → String) (kind : Kind) :
    (kind.mapText g).definition? = kind.definition? := by
  cases kind <;> rfl

namespace Fragment

mutual

/-- The mixins that are defined in a fragment, also inside of one another. -/
def definitions : Fragment → List (String × List Param)
  | ⟨kind, children⟩ => kind.definition?.toList ++ definitionsAll children

def definitionsAll : List Fragment → List (String × List Param)
  | [] => []
  | f :: fs => f.definitions ++ definitionsAll fs

end

variable {d : String × List Param}

@[simp]
theorem mem_definitionsAll {fs : List Fragment} : d ∈ definitionsAll fs ↔ ∃ f ∈ fs, d ∈ f.definitions := by
  induction fs with
  | nil => simp [definitionsAll]
  | cons f fs ih => simp [definitionsAll, ih]

theorem mem_definitions {f : Fragment} :
    d ∈ f.definitions ↔ f.kind.definition? = some d ∨ d ∈ definitionsAll f.children := by
  obtain ⟨kind, children⟩ := f
  rw [definitions, List.mem_append, Option.mem_toList]

mutual

theorem definitions_mapText (g : String → String) : ∀ f : Fragment, (f.mapText g).definitions = f.definitions
  | ⟨kind, children⟩ => by
    rw [mapText, definitions, definitions, Kind.definition?_mapText, definitionsAll_mapTextAll g children]

theorem definitionsAll_mapTextAll (g : String → String) :
    ∀ fs : List Fragment, definitionsAll (mapTextAll g fs) = definitionsAll fs
  | [] => rfl
  | f :: fs => by
    rw [mapTextAll, definitionsAll, definitionsAll, definitions_mapText g f, definitionsAll_mapTextAll g fs]

end

end Fragment

open Fragment

/-- The mixins that are defined in the fragment at a node are those of the definitions at it and below it. -/
theorem Document.WellFormed.mem_definitions_fragment {doc : Document} (hwf : doc.WellFormed) {x : Nat}
    {d : String × List Param} :
    d ∈ (doc.fragment x).definitions ↔ ∃ y, doc.Spans x y ∧ (doc.kind y).definition? = some d := by
  induction x using hwf.children_induction with
  | step x ih =>
    rw [mem_definitions, hwf.kind_fragment, hwf.children_fragment, mem_definitionsAll]
    constructor
    · rintro (hx | ⟨_, hmem, hd⟩)
      · exact ⟨x, Spans.refl doc x, hx⟩
      · obtain ⟨c, hc, rfl⟩ := List.mem_map.1 hmem
        obtain ⟨y, hy, hkind⟩ := (ih c hc).1 hd
        exact ⟨y, hwf.spans_iff.2 (Or.inr ⟨c, hc, hy⟩), hkind⟩
    · rintro ⟨y, hy, hkind⟩
      rcases hwf.spans_iff.1 hy with rfl | ⟨c, hc, hspan⟩
      · exact Or.inl hkind
      · exact Or.inr ⟨_, List.mem_map_of_mem hc, (ih c hc).2 ⟨y, hspan, hkind⟩⟩

namespace Semantics.Env

variable {env : Env} {scope : Reference.Lookup} {n : Nat} {f : Fragment} {r : Reaction} {d : String × List Param}

/-- A mixin is defined in the body of another one. -/
def Brings (env : Env) (d : String × List Param) : Prop :=
  ∃ name params body, env.mixin? name = some (params, body) ∧ d ∈ definitionsAll body

theorem chosen_definitions {branches : List Fragment} (h : d ∈ definitionsAll (env.chosen scope branches)) :
    d ∈ definitionsAll branches := by
  induction branches with
  | nil => exact h
  | cons b rest ih =>
    obtain ⟨kind, body⟩ := b
    have htake (hd : d ∈ definitionsAll body) : d ∈ definitionsAll (⟨kind, body⟩ :: rest) :=
      List.mem_append_left _ (Fragment.mem_definitions.2 (Or.inr hd))
    have hskip (hd : d ∈ definitionsAll (env.chosen scope rest)) : d ∈ definitionsAll (⟨kind, body⟩ :: rest) :=
      List.mem_append_right _ (ih hd)
    cases kind with
    | branch condition =>
      cases condition with
      | none => exact htake h
      | some condition =>
        rw [chosen] at h
        split at h
        · exact htake h
        · exact hskip h
    | _ => exact hskip h

theorem instance?_definitions {name : String} {args : List String} {body : List Fragment}
    (h : env.instance? scope name args = some body) (hd : d ∈ definitionsAll body) : env.Brings d := by
  rw [instance?, Option.map_eq_some_iff] at h
  obtain ⟨⟨params, body⟩, hmixin, rfl⟩ := h
  rw [definitionsAll_mapTextAll] at hd
  exact ⟨name, params, body, hmixin, hd⟩

/-- A fragment that is kept defines what it did, and what is still to be evaluated defines nothing new, apart from what
the body of a mixin brings. -/
theorem react_definitions (h : env.react scope n f = .ok r) :
    (∀ kind, r.kept = some kind → kind.definition? = f.kind.definition?) ∧
      (d ∈ definitionsAll r.below → d ∈ definitionsAll f.children) ∧
      (d ∈ definitionsAll r.body → d ∈ definitionsAll f.children ∨ env.Brings d) := by
  obtain ⟨kind, children⟩ := f
  cases kind with
  | inclusion name args =>
    rw [react] at h
    split at h
    · split at h
      · simp at h
      · obtain rfl := Except.ok.inj h
        exact ⟨by simp, id, by simp⟩
    · next body hbody =>
      split at h
      · simp at h
      · obtain rfl := Except.ok.inj h
        exact ⟨by simp, id, fun hd => Or.inr (instance?_definitions hbody hd)⟩
  | conditional =>
    obtain rfl := Except.ok.inj h
    exact ⟨by simp, by simp, fun hd => Or.inl (chosen_definitions hd)⟩
  | assignment name value guarded =>
    obtain rfl := Except.ok.inj h
    exact ⟨by simp, id, by simp⟩
  | _ =>
    obtain rfl := Except.ok.inj h
    exact ⟨by rintro _ ⟨⟩; rfl, id, by simp⟩

/-- What evaluation leaves defines nothing but what was defined before, or in the body of a mixin. -/
theorem eval_definitions {fs : List Fragment} {out : Evaluated n} (h : env.eval scope n fs = .ok out)
    (hd : d ∈ definitionsAll out.fragments) : d ∈ definitionsAll fs ∨ env.Brings d := by
  induction scope, n, fs using Env.eval.induct env with
  | case1 scope n =>
    rw [eval_nil] at h
    obtain rfl := Except.ok.inj h
    exact Or.inl hd
  | case2 scope n f fs e hr => simp [eval_cons_refused hr] at h
  | case3 scope n f fs r hr e hbelow => simp [eval_cons_stopped hr hbelow] at h
  | case4 scope n f fs r hr inner hbelow e hrest => simp [eval_cons_failed hr hbelow hrest] at h
  | case5 scope n f fs r hr inner hbelow rest hrest ihbelow ihrest =>
    obtain ⟨hkept, hfrom, hbody⟩ := react_definitions (d := d) hr
    have hfirst (hf : d ∈ definitionsAll f.children) : d ∈ definitionsAll (f :: fs) :=
      List.mem_append_left _ (mem_definitions.2 (Or.inr hf))
    obtain ⟨out', hout', -, hfragments⟩ := eval_cons_done hr hbelow hrest
    obtain rfl := Except.ok.inj (hout'.symm.trans h)
    rw [hfragments, mem_definitionsAll] at hd
    obtain ⟨g, hg, hd⟩ := hd
    rcases List.mem_append.1 hg with hg | hg
    · obtain ⟨kind, hkind, rfl⟩ : ∃ kind, r.kept = some kind ∧ ⟨kind, inner.fragments⟩ = g := by simpa using hg
      rcases mem_definitions.1 hd with hd | hd
      · rw [hkept kind hkind] at hd
        exact Or.inl (List.mem_append_left _ (mem_definitions.2 (Or.inl hd)))
      · exact (ihbelow hbelow hd).imp_left fun hd => hfirst (hfrom hd)
    · rcases ihrest hrest (mem_definitionsAll.2 ⟨g, hg, hd⟩) with hd | hd
      · rw [mem_definitionsAll] at hd
        obtain ⟨g, hg, hd⟩ := hd
        rcases List.mem_append.1 hg with hg | hg
        · exact (hbody (mem_definitionsAll.2 ⟨g, hg, hd⟩)).imp_left hfirst
        · exact Or.inl (List.mem_append_right _ (mem_definitionsAll.2 ⟨g, hg, hd⟩))
      · exact Or.inr hd

end Semantics.Env

end NestedStyles
