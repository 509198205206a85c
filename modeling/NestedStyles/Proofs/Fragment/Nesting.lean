import NestedStyles.Proofs.Fragment.Interchange

/-!
# How deep fragments nest

Every level of a fragment takes two levels of nesting in the interchange format, the object of a node and the array of
its children. The members of the node itself may add to that (`height`, with what they add as a parameter). In writing,
parameters and arguments add an array also when there are none of them (`depth_toJson`). A text that is read may leave
such an array out, so that only the nodes themselves are known to be within its depth (`height_le_of_ofJson?`).
-/

namespace NestedStyles

namespace Kind

/-- Whether a list of parameters or arguments is written for the kind. -/
def isListed : Kind → Bool
  | mixin _ _ | inclusion _ _ => true
  | _ => false

/-- How deep the members that are written for a kind nest. -/
def memberDepth (kind : Kind) : Nat := Json.depthMembers kind.members

theorem memberDepth_of_not_listed {kind : Kind} (h : kind.isListed = false) : kind.memberDepth = 0 := by
  cases kind with
  | mixin name params => simp [isListed] at h
  | inclusion name args => simp [isListed] at h
  | stylesheet text | branch text => cases text <;> rfl
  | importRule href media => cases media <;> rfl
  | _ => rfl

theorem memberDepth_pos {kind : Kind} (h : kind.isListed = true) : 0 < kind.memberDepth := by
  cases kind with
  | mixin name params => simp [memberDepth, members, ownMembers, Json.depthMembers, Json.depth]
  | inclusion name args => simp [memberDepth, members, ownMembers, Json.depthMembers, Json.depth]
  | _ => simp [isListed] at h

/-- Parameters are objects of texts, and arguments are texts. -/
theorem memberDepth_le (kind : Kind) : kind.memberDepth ≤ 2 := by
  have hparam : ∀ param : Param, param.toJson.depth ≤ 1 := by
    intro param
    obtain ⟨name, fallback⟩ := param
    cases fallback <;> exact Nat.le_refl _
  have hparams : ∀ params : List Param, Json.depthItems (params.map Param.toJson) ≤ 1 := by
    intro params
    rw [Json.depthItems_le]
    intro v hv
    obtain ⟨param, _, rfl⟩ := List.mem_map.1 hv
    exact hparam param
  have hargs : ∀ args : List String, Json.depthItems (args.map Json.string) ≤ 1 := by
    intro args
    rw [Json.depthItems_le]
    intro v hv
    obtain ⟨arg, _, rfl⟩ := List.mem_map.1 hv
    exact Nat.zero_le _
  by_cases hlisted : kind.isListed
  · cases kind with
    | mixin name params =>
      have := hparams params
      simp only [memberDepth, members, ownMembers, Json.depthMembers, Json.depth]
      omega
    | inclusion name args =>
      have := hargs args
      simp only [memberDepth, members, ownMembers, Json.depthMembers, Json.depth]
      omega
    | _ => simp [isListed] at hlisted
  · have hzero := memberDepth_of_not_listed (eq_false_of_ne_true hlisted)
    omega

end Kind

namespace Fragment

mutual

/-- How deep a fragment nests when each level takes two levels, and a node adds the weight of its kind. -/
def height (weight : Kind → Nat) : Fragment → Nat
  | ⟨kind, children⟩ => max (weight kind) (heightAll weight children) + 1

def heightAll (weight : Kind → Nat) : List Fragment → Nat
  | [] => 0
  | f :: fs => max (f.height weight + 1) (heightAll weight fs)

end

theorem height_eq (weight : Kind → Nat) (f : Fragment) :
    f.height weight = max (weight f.kind) (heightAll weight f.children) + 1 := by
  cases f
  rw [height]

theorem heightAll_le {weight : Kind → Nat} {fs : List Fragment} {bound : Nat} :
    heightAll weight fs ≤ bound ↔ ∀ f ∈ fs, f.height weight + 1 ≤ bound := by
  induction fs with
  | nil => simp [heightAll]
  | cons f fs ih => simp only [heightAll, Nat.max_le, List.forall_mem_cons, ih]

/-! ### Writing -/

private theorem depthMembers_append (members more : List (String × Json)) :
    Json.depthMembers (members ++ more) = max (Json.depthMembers members) (Json.depthMembers more) := by
  induction members with
  | nil => simp [Json.depthMembers]
  | cons m members ih => rw [List.cons_append, Json.depthMembers, ih, Json.depthMembers, Nat.max_assoc]

mutual

theorem depth_toJson : (f : Fragment) → f.toJson.depth = f.height Kind.memberDepth
  | ⟨kind, []⟩ => by
    rw [toJson, Json.depth, height, heightAll, Nat.max_eq_left (Nat.zero_le _)]
    rfl
  | ⟨kind, child :: children⟩ => by
    have hchildren := depthItems_toJsonAll (child :: children)
    have hpos : 1 ≤ heightAll Kind.memberDepth (child :: children) := by
      rw [heightAll]
      omega
    have hkind : kind.memberDepth = Json.depthMembers kind.members := rfl
    rw [toJsonAll] at hchildren
    rw [toJson, Json.depth, depthMembers_append, height, hkind]
    simp only [Json.depthMembers, Json.depth]
    omega

/-- The array of the children is there only if there are children. -/
theorem depthItems_toJsonAll : (fs : List Fragment) →
    Json.depthItems (toJsonAll fs) + 1 = max (heightAll Kind.memberDepth fs) 1
  | [] => rfl
  | f :: fs => by
    have hfirst := depth_toJson f
    have hrest := depthItems_toJsonAll fs
    rw [toJsonAll, Json.depthItems, heightAll]
    omega

end

/-! ### Reading -/

/-- The children of a fragment come from a member of the object, if there is one for them. -/
theorem exists_childLists?_of_ofJson? {members : List (String × Json)} {f : Fragment}
    (h : ofJson? (.object members) = some f) :
    ∃ lists, childLists? members = some lists ∧ (f.children = [] ∨ f.children ∈ lists) := by
  simp only [ofJson?, Option.bind_eq_bind, Option.bind_eq_some_iff] at h
  obtain ⟨_, _, _, _, _, _, kind, _, lists, hlists, h⟩ := h
  refine ⟨lists, hlists, ?_⟩
  split at h
  · obtain rfl := Option.some.inj h
    exact .inl rfl
  · obtain rfl := Option.some.inj h
    exact .inr List.mem_cons_self
  · simp at h

mutual

/-- The nodes of a fragment stand in nested objects and arrays of the value that it was read from. -/
theorem height_le_of_ofJson? : (v : Json) → {f : Fragment} → ofJson? v = some f → f.height (fun _ => 0) ≤ v.depth
  | .object members, f, h => by
    obtain ⟨lists, hlists, hchildren⟩ := exists_childLists?_of_ofJson? h
    have hall := heightAll_le_of_childLists? members hlists
    have hle : heightAll (fun _ => 0) f.children ≤ Json.depthMembers members := by
      rcases hchildren with hnil | hmem
      · rw [hnil]
        exact Nat.zero_le _
      · exact hall f.children hmem
    rw [height_eq, Json.depth]
    omega
  | .null, f, h | .bool _, f, h | .number _, f, h | .string _, f, h | .array _, f, h => by simp [ofJson?] at h

theorem heightAll_le_of_childLists? : (members : List (String × Json)) → {lists : List (List Fragment)} →
    childLists? members = some lists → ∀ fs ∈ lists, heightAll (fun _ => 0) fs ≤ Json.depthMembers members
  | [], lists, h => by
    obtain rfl : [] = lists := by simpa [childLists?] using h
    simp
  | (name, value) :: members, lists, h => by
    rw [childLists?] at h
    rw [Json.depthMembers]
    by_cases hname : name = "children"
    · simp only [if_pos hname, Option.bind_eq_bind, Option.bind_eq_some_iff] at h
      obtain ⟨children, hvalue, others, hothers, heq⟩ := h
      obtain rfl := Option.some.inj heq
      have hfirst := heightAll_le_of_items? value hvalue
      have hrest := heightAll_le_of_childLists? members hothers
      rw [List.forall_mem_cons]
      refine ⟨by omega, ?_⟩
      intro fs hfs
      have := hrest fs hfs
      omega
    · rw [if_neg hname] at h
      intro fs hfs
      have := heightAll_le_of_childLists? members h fs hfs
      omega

theorem heightAll_le_of_items? : (v : Json) → {fs : List Fragment} → items? v = some fs →
    heightAll (fun _ => 0) fs ≤ v.depth
  | .array items, fs, h => by
    rw [items?] at h
    rw [Json.depth]
    exact heightAll_le_of_ofItems? items h
  | .null, f, h | .bool _, f, h | .number _, f, h | .string _, f, h | .object _, f, h => by simp [items?] at h

theorem heightAll_le_of_ofItems? : (items : List Json) → {fs : List Fragment} → ofItems? items = some fs →
    heightAll (fun _ => 0) fs ≤ Json.depthItems items + 1
  | [], fs, h => by
    obtain rfl : [] = fs := by simpa [ofItems?] using h
    exact Nat.zero_le _
  | item :: items, fs, h => by
    simp only [ofItems?, Option.bind_eq_bind, Option.bind_eq_some_iff] at h
    obtain ⟨first, hitem, rest, hitems, heq⟩ := h
    obtain rfl := Option.some.inj heq
    have hfirst := height_le_of_ofJson? item hitem
    have hrest := heightAll_le_of_ofItems? items hitems
    rw [heightAll, Json.depthItems]
    omega

end

end Fragment

end NestedStyles
