import NestedStyles.Document.Interchange
import NestedStyles.Proofs.Document.Frame

/-!
# New nodes from a fragment

Instantiating a fragment lays its nodes out under consecutive numbers in pre-order (`Laid`) and leaves all other nodes
alone. What is laid out that way is linked correctly, so a well-formed document stays well-formed, and reading the
fragment at the new node gives back what was instantiated.
-/

namespace NestedStyles.Document

/-- The numbers of the first nodes of some fragments that are laid out one after the other. -/
def starts : Nat → List Fragment → List Nat
  | _, [] => []
  | start, f :: fs => start :: starts (start + f.size) fs

mutual

/-- The nodes from `start` on are those of a fragment, in pre-order, and the first one has the given parent. -/
def Laid (doc : Document) (parent : Option Nat) (start : Nat) : Fragment → Prop
  | ⟨kind, children⟩ =>
    doc.kind start = kind ∧ doc.parent start = parent ∧ doc.children start = starts (start + 1) children ∧
      doc.LaidAll (some start) (start + 1) children

def LaidAll (doc : Document) (parent : Option Nat) (start : Nat) : List Fragment → Prop
  | [] => True
  | f :: fs => doc.Laid parent start f ∧ doc.LaidAll parent (start + f.size) fs

end

/-! ### Instantiating lays out -/

mutual

private theorem Laid.congr {doc doc' : Document} {parent : Option Nat} {start : Nat} : {f : Fragment} →
    (∀ x, start ≤ x → x < start + f.size → doc'.node x = doc.node x) → doc.Laid parent start f →
      doc'.Laid parent start f
  | ⟨kind, children⟩, h, hlaid => by
    rw [Laid] at hlaid ⊢
    obtain ⟨hkind, hparent, hchildren, hall⟩ := hlaid
    have hsize : Fragment.size ⟨kind, children⟩ = Fragment.sizeAll children + 1 := rfl
    have hstart := h start (Nat.le_refl _) (by omega)
    refine ⟨?_, ?_, ?_, ?_⟩
    · rw [← hkind, Document.kind, hstart]; rfl
    · rw [← hparent, Document.parent, hstart]; rfl
    · rw [← hchildren, Document.children, hstart]; rfl
    · exact LaidAll.congr (fun x hx hlt => h x (by omega) (by omega)) hall

private theorem LaidAll.congr {doc doc' : Document} {parent : Option Nat} {start : Nat} : {fs : List Fragment} →
    (∀ x, start ≤ x → x < start + Fragment.sizeAll fs → doc'.node x = doc.node x) → doc.LaidAll parent start fs →
      doc'.LaidAll parent start fs
  | [], _, _ => trivial
  | f :: fs, h, hlaid => by
    rw [LaidAll] at hlaid ⊢
    have hsize := Fragment.sizeAll_cons f fs
    exact ⟨Laid.congr (fun x hx hlt => h x hx (by omega)) hlaid.1,
      LaidAll.congr (fun x hx hlt => h x (by omega) (by omega)) hlaid.2⟩

end

/-- What instantiating does: the new nodes follow the old ones, which stay as they are. -/
structure Instantiated (doc doc' : Document) (size : Nat) : Prop where
  next_eq : doc'.next = doc.next + size
  node_eq : ∀ x < doc.next, doc'.node x = doc.node x

mutual

private theorem instantiateUnder_spec (doc : Document) (parent : Option Nat) : (f : Fragment) →
    (doc.instantiateUnder parent f).2 = doc.next ∧ Instantiated doc (doc.instantiateUnder parent f).1 f.size ∧
      (doc.instantiateUnder parent f).1.Laid parent doc.next f
  | ⟨kind, children⟩ => by
    have hpush := node_push doc { kind, parent }
    rw [instantiateUnder]
    generalize hdoc₁ : (doc.push { kind, parent }).1 = doc₁
    have hnext₁ : doc₁.next = doc.next + 1 := by rw [← hdoc₁, next_push]
    obtain ⟨hids, ⟨hnext₂, hold₂⟩, hlaid⟩ := instantiateAll_spec doc₁ doc.next children
    generalize hdoc₂ : doc₁.instantiateAll doc.next children = result at hids hnext₂ hold₂ hlaid
    obtain ⟨doc₂, ids⟩ := result
    simp only at hids hnext₂ hold₂ hlaid
    simp only [hdoc₁, id_push, hdoc₂]
    have hsize : Fragment.size ⟨kind, children⟩ = Fragment.sizeAll children + 1 := rfl
    -- the new node differs from what was pushed in its children only
    have hid : (doc₂.setChildren doc.next ids).node doc.next =
        { kind, parent, slots := ids.toArray } := by
      rw [setChildren, node_modify, if_pos ⟨rfl, by omega⟩, hold₂ doc.next (by omega), ← hdoc₁, hpush, if_pos rfl]
    have hother : ∀ x, x ≠ doc.next → (doc₂.setChildren doc.next ids).node x = doc₂.node x := by
      intro x hx
      rw [setChildren, node_modify, if_neg (fun h => hx h.1.symm)]
    refine ⟨trivial, ⟨by rw [next_setChildren]; omega, ?_⟩, ?_⟩
    · intro x hx
      rw [hother x (by omega), hold₂ x (by omega), ← hdoc₁, hpush, if_neg (by omega)]
    · rw [Laid]
      refine ⟨by rw [Document.kind, hid], by rw [Document.parent, hid], ?_, ?_⟩
      · rw [Document.children, hid, hids, hnext₁]
      · rw [hnext₁] at hlaid
        exact LaidAll.congr (fun x hx _ => hother x (by omega)) hlaid

private theorem instantiateAll_spec (doc : Document) (parent : Nat) : (fs : List Fragment) →
    (doc.instantiateAll parent fs).2 = starts doc.next fs ∧
      Instantiated doc (doc.instantiateAll parent fs).1 (Fragment.sizeAll fs) ∧
      (doc.instantiateAll parent fs).1.LaidAll (some parent) doc.next fs
  | [] => ⟨rfl, ⟨rfl, fun _ _ => rfl⟩, trivial⟩
  | f :: fs => by
    obtain ⟨hid, ⟨hnext₁, hold₁⟩, hlaid₁⟩ := instantiateUnder_spec doc (some parent) f
    rw [instantiateAll]
    generalize doc.instantiateUnder (some parent) f = result at hid hnext₁ hold₁ hlaid₁
    obtain ⟨doc₁, id⟩ := result
    simp only at hid hnext₁ hold₁ hlaid₁
    obtain ⟨hids, ⟨hnext₂, hold₂⟩, hlaid₂⟩ := instantiateAll_spec doc₁ parent fs
    simp only [hid, hids, Fragment.sizeAll_cons]
    refine ⟨by rw [starts, hnext₁], ⟨by omega, ?_⟩, ?_⟩
    · intro x hx
      rw [hold₂ x (by omega), hold₁ x hx]
    · rw [LaidAll]
      refine ⟨hlaid₁.congr fun x _ hx => hold₂ x (by omega), ?_⟩
      rw [← hnext₁]
      exact hlaid₂

end

/-! ### The links of what is laid out -/

private theorem le_of_mem_starts {start x : Nat} {fs : List Fragment} (h : x ∈ starts start fs) :
    start ≤ x ∧ x < start + Fragment.sizeAll fs := by
  induction fs generalizing start with
  | nil => simp [starts] at h
  | cons f fs ih =>
    have hpos := f.size_pos
    rw [Fragment.sizeAll_cons]
    rw [starts, List.mem_cons] at h
    rcases h with rfl | h
    · omega
    · have := ih h
      omega

private theorem starts_nodup (start : Nat) (fs : List Fragment) : (starts start fs).Nodup := by
  induction fs generalizing start with
  | nil => simp [starts]
  | cons f fs ih =>
    have hpos := f.size_pos
    rw [starts, List.nodup_cons]
    refine ⟨?_, ih _⟩
    intro h
    have := le_of_mem_starts h
    omega

/-- Each of some nodes from `lo` up to `hi` has a parent among them that lists it, or is a top with the given parent. -/
private def Rooted (doc : Document) (parent : Option Nat) (tops : List Nat) (lo hi : Nat) : Prop :=
  ∀ x, lo ≤ x → x < hi →
    x ∈ tops ∧ doc.parent x = parent ∨ ∃ p, lo ≤ p ∧ p < x ∧ doc.parent x = some p ∧ x ∈ doc.children p

mutual

private theorem Laid.rooted {doc : Document} {parent : Option Nat} {start : Nat} : {f : Fragment} →
    doc.Laid parent start f → doc.Rooted parent [start] start (start + f.size)
  | ⟨kind, children⟩, hlaid => by
    rw [Laid] at hlaid
    obtain ⟨_, hparent, hchildren, hall⟩ := hlaid
    have hsize : Fragment.size ⟨kind, children⟩ = Fragment.sizeAll children + 1 := rfl
    intro x hx hlt
    rcases Nat.eq_or_lt_of_le hx with rfl | hx
    · exact Or.inl ⟨by simp, hparent⟩
    · refine Or.inr ?_
      rcases LaidAll.rooted hall x hx (by omega) with ⟨hmem, hp⟩ | ⟨p, hle, hpx, hp, hmem⟩
      · exact ⟨start, Nat.le_refl _, hx, hp, hchildren ▸ hmem⟩
      · exact ⟨p, by omega, hpx, hp, hmem⟩

private theorem LaidAll.rooted {doc : Document} {parent : Option Nat} {start : Nat} : {fs : List Fragment} →
    doc.LaidAll parent start fs → doc.Rooted parent (starts start fs) start (start + Fragment.sizeAll fs)
  | [], _ => by
    intro x hx hlt
    simp at hlt
    omega
  | f :: fs, hlaid => by
    rw [LaidAll] at hlaid
    intro x hx hlt
    rw [Fragment.sizeAll_cons] at hlt
    by_cases hxf : x < start + f.size
    · rcases hlaid.1.rooted x hx hxf with ⟨hmem, hp⟩ | h
      · rw [List.mem_singleton] at hmem
        exact Or.inl ⟨by rw [starts, hmem]; exact List.mem_cons_self, hp⟩
      · exact Or.inr h
    · rcases LaidAll.rooted hlaid.2 x (by omega) (by omega) with ⟨hmem, hp⟩ | ⟨p, hle, hpx, hp, hmem⟩
      · exact Or.inl ⟨by rw [starts]; exact List.mem_cons_of_mem _ hmem, hp⟩
      · exact Or.inr ⟨p, by omega, hpx, hp, hmem⟩

end

/-- Each of some nodes from `lo` up to `hi` lists different later ones of them, and is their parent. -/
private def Listing (doc : Document) (lo hi : Nat) : Prop :=
  ∀ x, lo ≤ x → x < hi → (doc.children x).Nodup ∧ ∀ c ∈ doc.children x, x < c ∧ c < hi ∧ doc.parent c = some x

mutual

private theorem Laid.listing {doc : Document} {parent : Option Nat} {start : Nat} : {f : Fragment} →
    doc.Laid parent start f → doc.Listing start (start + f.size)
  | ⟨kind, children⟩, hlaid => by
    rw [Laid] at hlaid
    obtain ⟨_, _, hchildren, hall⟩ := hlaid
    have hsize : Fragment.size ⟨kind, children⟩ = Fragment.sizeAll children + 1 := rfl
    intro x hx hlt
    rcases Nat.eq_or_lt_of_le hx with rfl | hx
    · rw [hchildren]
      refine ⟨starts_nodup _ _, ?_⟩
      intro c hc
      have hrange := le_of_mem_starts hc
      refine ⟨by omega, by omega, ?_⟩
      exact LaidAll.parent_of_mem hall hc
    · obtain ⟨hnd, hlist⟩ := LaidAll.listing hall x hx (by omega)
      refine ⟨hnd, ?_⟩
      intro c hc
      obtain ⟨hxc, hclt, hp⟩ := hlist c hc
      exact ⟨hxc, by omega, hp⟩

private theorem LaidAll.listing {doc : Document} {parent : Option Nat} {start : Nat} : {fs : List Fragment} →
    doc.LaidAll parent start fs → doc.Listing start (start + Fragment.sizeAll fs)
  | [], _ => by
    intro x hx hlt
    simp at hlt
    omega
  | f :: fs, hlaid => by
    rw [LaidAll] at hlaid
    intro x hx hlt
    rw [Fragment.sizeAll_cons] at hlt ⊢
    by_cases hxf : x < start + f.size
    · obtain ⟨hnd, hlist⟩ := hlaid.1.listing x hx hxf
      refine ⟨hnd, ?_⟩
      intro c hc
      obtain ⟨hxc, hclt, hp⟩ := hlist c hc
      exact ⟨hxc, by omega, hp⟩
    · obtain ⟨hnd, hlist⟩ := LaidAll.listing hlaid.2 x (by omega) (by omega)
      refine ⟨hnd, ?_⟩
      intro c hc
      obtain ⟨hxc, hclt, hp⟩ := hlist c hc
      exact ⟨hxc, by omega, hp⟩

private theorem LaidAll.parent_of_mem {doc : Document} {parent : Option Nat} {start : Nat} : {fs : List Fragment} →
    doc.LaidAll parent start fs → {c : Nat} → c ∈ starts start fs → doc.parent c = parent
  | [], _, c, hc => by simp [starts] at hc
  | ⟨kind, children⟩ :: fs, hlaid, c, hc => by
    rw [LaidAll, Laid] at hlaid
    rw [starts, List.mem_cons] at hc
    rcases hc with rfl | hc
    · exact hlaid.1.2.1
    · exact LaidAll.parent_of_mem hlaid.2 hc

end

/-! ### Documents stay well-formed -/

/-- What makes a document well-formed, the root apart. -/
structure Forest (doc : Document) : Prop where
  mem_children_iff : ∀ {parent node}, node ∈ doc.children parent ↔ doc.parent node = some parent
  nodup_children : ∀ parent, (doc.children parent).Nodup
  ranked : ∃ rank : Nat → Nat, ∀ {node parent}, doc.parent node = some parent → rank parent < rank node

theorem WellFormed.forest {doc : Document} (hwf : doc.WellFormed) : doc.Forest :=
  ⟨hwf.mem_children_iff, hwf.nodup_children, hwf.ranked⟩

section Links

variable {doc doc' : Document} {f : Fragment}

theorem Instantiated.kind_eq {size : Nat} (h : Instantiated doc doc' size) {x : Nat} (hx : x < doc.next) :
    doc'.kind x = doc.kind x := by
  rw [Document.kind, h.node_eq x hx]; rfl

theorem Instantiated.parent_eq {size : Nat} (h : Instantiated doc doc' size) {x : Nat} (hx : x < doc.next) :
    doc'.parent x = doc.parent x := by
  rw [Document.parent, h.node_eq x hx]; rfl

theorem Instantiated.children_eq {size : Nat} (h : Instantiated doc doc' size) {x : Nat} (hx : x < doc.next) :
    doc'.children x = doc.children x := by
  rw [Document.children, h.node_eq x hx]; rfl

theorem Instantiated.frame {size : Nat} (h : Instantiated doc doc' size) (tops : List Nat) (site : Option Nat) :
    Frame doc doc' tops site where
  next_le := by rw [h.next_eq]; omega
  kind_eq hx := h.kind_eq hx.1
  parent_eq hx := h.parent_eq hx.1
  children_eq hx _ := h.children_eq hx.1

/-- A new node has a new parent that comes before it, or none. -/
private theorem parent_new (hnew : Instantiated doc doc' f.size) (hlaid : doc'.Laid none doc.next f) {x p : Nat}
    (hx : doc.next ≤ x) (hp : doc'.parent x = some p) : doc.next ≤ p ∧ p < x ∧ x ∈ doc'.children p := by
  have hlt := lt_next_of_parent hp
  rw [hnew.next_eq] at hlt
  rcases hlaid.rooted x hx hlt with ⟨_, hnone⟩ | ⟨q, hle, hqx, hq, hmem⟩
  · simp [hnone] at hp
  · obtain rfl : q = p := by simpa [hq] using hp
    exact ⟨hle, hqx, hmem⟩

private theorem parent_old {size : Nat} (hforest : doc.Forest) (hnew : Instantiated doc doc' size) {x p : Nat}
    (hx : x < doc.next) (hp : doc'.parent x = some p) : p < doc.next ∧ doc.parent x = some p := by
  rw [hnew.parent_eq hx] at hp
  exact ⟨lt_next_of_mem_children (hforest.mem_children_iff.2 hp), hp⟩

private theorem Forest.of_laid (hforest : doc.Forest) (hnew : Instantiated doc doc' f.size)
    (hlaid : doc'.Laid none doc.next f) : doc'.Forest := by
  constructor
  · intro p x
    constructor
    · intro hmem
      by_cases hp : p < doc.next
      · rw [hnew.children_eq hp, hforest.mem_children_iff] at hmem
        rw [hnew.parent_eq (lt_next_of_parent hmem), hmem]
      · have hlt := lt_next_of_mem_children hmem
        rw [hnew.next_eq] at hlt
        exact ((hlaid.listing p (by omega) hlt).2 x hmem).2.2
    · intro hp
      by_cases hx : x < doc.next
      · obtain ⟨hplt, hp⟩ := parent_old hforest hnew hx hp
        rw [hnew.children_eq hplt]
        exact hforest.mem_children_iff.2 hp
      · exact (parent_new hnew hlaid (by omega) hp).2.2
  · intro p
    by_cases hp : p < doc.next
    · rw [hnew.children_eq hp]
      exact hforest.nodup_children p
    · by_cases hlt : p < doc'.next
      · rw [hnew.next_eq] at hlt
        exact (hlaid.listing p (by omega) hlt).1
      · rw [children_of_le (by omega)]
        exact List.nodup_nil
  · -- among new nodes parents come first, and there is no link between old and new ones
    obtain ⟨rank, hrank⟩ := hforest.ranked
    refine ⟨fun x => if x < doc.next then rank x else x, ?_⟩
    intro x p hp
    by_cases hx : x < doc.next
    · obtain ⟨hplt, hp⟩ := parent_old hforest hnew hx hp
      simp only [if_pos hx, if_pos hplt]
      exact hrank hp
    · obtain ⟨hle, hpx, _⟩ := parent_new hnew hlaid (by omega) hp
      have hp' : ¬ p < doc.next := by omega
      simp only [if_neg hx, if_neg hp']
      exact hpx

end Links

mutual

private theorem Laid.fragment_eq {doc : Document} (hwf : doc.WellFormed) {parent : Option Nat} {start : Nat} :
    {f : Fragment} → doc.Laid parent start f → doc.fragment start = f
  | ⟨kind, children⟩, hlaid => by
    rw [Laid] at hlaid
    obtain ⟨hkind, _, hchildren, hall⟩ := hlaid
    rw [hwf.fragment_eq, hkind, hchildren, LaidAll.fragments_eq hwf hall]

private theorem LaidAll.fragments_eq {doc : Document} (hwf : doc.WellFormed) {parent : Option Nat} {start : Nat} :
    {fs : List Fragment} → doc.LaidAll parent start fs → (starts start fs).map doc.fragment = fs
  | [], _ => rfl
  | f :: fs, hlaid => by
    rw [LaidAll] at hlaid
    rw [starts, List.map_cons, hlaid.1.fragment_eq hwf, LaidAll.fragments_eq hwf hlaid.2]

end

variable {doc : Document}

theorem instantiate_id (doc : Document) (f : Fragment) : (doc.instantiate f).2 = doc.next :=
  (instantiateUnder_spec doc none f).1

theorem instantiate_spec (doc : Document) (f : Fragment) : Instantiated doc (doc.instantiate f).1 f.size :=
  (instantiateUnder_spec doc none f).2.1

theorem laid_instantiate (doc : Document) (f : Fragment) : (doc.instantiate f).1.Laid none doc.next f :=
  (instantiateUnder_spec doc none f).2.2

theorem parent_instantiate (doc : Document) (f : Fragment) : (doc.instantiate f).1.parent doc.next = none := by
  have hlaid := laid_instantiate doc f
  cases f
  rw [Laid] at hlaid
  exact hlaid.2.1

theorem WellFormed.instantiate (hwf : doc.WellFormed) (f : Fragment) : (doc.instantiate f).1.WellFormed := by
  obtain ⟨_, hnew, hlaid⟩ := instantiateUnder_spec doc none f
  obtain ⟨hmem, hnodup, hranked⟩ := Forest.of_laid hwf.forest hnew hlaid
  refine ⟨?_, ?_, hmem, hnodup, hranked⟩
  · have := hwf.next_pos
    rw [Document.instantiate, hnew.next_eq]
    omega
  · rw [Document.instantiate, hnew.parent_eq hwf.root_lt_next]
    exact hwf.parent_root

/-- Reading at the new node gives back what was instantiated. -/
theorem WellFormed.fragment_instantiate (hwf : doc.WellFormed) (f : Fragment) :
    (doc.instantiate f).1.fragment doc.next = f :=
  (laid_instantiate doc f).fragment_eq (hwf.instantiate f)

/-- A document made from a fragment consists of the nodes of that fragment, numbered in pre-order. -/
theorem laid_ofFragment {f : Fragment} {doc : Document} (h : ofFragment f = .ok doc) :
    doc.next = f.size ∧ doc.Laid none root f := by
  obtain ⟨kind, children⟩ := f
  cases kind with
  | stylesheet directory =>
    -- the document is what instantiating in a document without any nodes gives
    have hdoc : doc = ((⟨#[]⟩ : Document).instantiateUnder none ⟨.stylesheet directory, children⟩).1 := by
      rw [ofFragment, Except.ok.injEq] at h
      rw [← h, instantiateUnder]
      rfl
    obtain ⟨_, hnew, hlaid⟩ := instantiateUnder_spec ⟨#[]⟩ none ⟨.stylesheet directory, children⟩
    rw [← hdoc] at hnew hlaid
    exact ⟨hnew.next_eq.trans (Nat.zero_add _), hlaid⟩
  | _ => simp [ofFragment] at h

private theorem forest_empty : (⟨#[]⟩ : Document).Forest := by
  refine ⟨?_, ?_, ⟨id, ?_⟩⟩
  · intro p x
    rw [children_of_le (Nat.zero_le _), parent_of_le (Nat.zero_le _)]
    simp
  · intro p
    rw [children_of_le (Nat.zero_le _)]
    exact List.nodup_nil
  · intro x p hp
    rw [parent_of_le (Nat.zero_le _)] at hp
    simp at hp

/-- A document made from a fragment is well-formed and holds that fragment. -/
theorem ofFragment_spec {f : Fragment} {doc : Document} (h : ofFragment f = .ok doc) :
    doc.WellFormed ∧ doc.fragment root = f := by
  obtain ⟨hnext, hlaid⟩ := laid_ofFragment h
  have hpos := f.size_pos
  have hnew : Instantiated ⟨#[]⟩ doc f.size :=
    ⟨hnext.trans (Nat.zero_add _).symm, fun x hx => absurd hx (Nat.not_lt_zero x)⟩
  obtain ⟨hmem, hnodup, hranked⟩ := Forest.of_laid forest_empty hnew hlaid
  have hparent : doc.parent root = none := by
    cases f
    rw [Laid] at hlaid
    exact hlaid.2.1
  have hwf : doc.WellFormed := ⟨by omega, hparent, hmem, hnodup, hranked⟩
  exact ⟨hwf, hlaid.fragment_eq hwf⟩

end NestedStyles.Document
