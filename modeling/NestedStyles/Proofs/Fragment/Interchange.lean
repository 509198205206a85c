import NestedStyles.Fragment.Interchange
import NestedStyles.Proofs.Json.RoundTrip

/-!
# Reading fragments in the interchange format

A fragment is read back from its JSON value, whatever its texts are and whatever is below what
(`Fragment.ofJson?_toJson`), and there are no numbers in that value (`Fragment.textual_toJson`).
-/

namespace NestedStyles

open Json (field? textField? optionalTextField? flagField? listField?)

private theorem mapM_map_eq_some {α β : Type} {read : β → Option α} {write : α → β} (h : ∀ x, read (write x) = some x)
    (xs : List α) : (xs.map write).mapM read = some xs := by
  induction xs with
  | nil => rfl
  | cons x xs ih => simp [h, ih]

theorem Param.ofJson?_toJson (param : Param) : Param.ofJson? param.toJson = some param := by
  obtain ⟨name, fallback⟩ := param
  cases fallback <;>
    simp [Param.toJson, Param.ofJson?, textField?, optionalTextField?, field?, Json.text?, Json.optionalText?]

namespace Kind

/-- The members that may follow those of a kind in a fragment: at most the one with the children. -/
def Trailing (extra : List (String × Json)) : Prop := extra = [] ∨ ∃ children, extra = [("children", children)]

theorem ofMembers?_members (kind : Kind) {extra : List (String × Json)} (hextra : Trailing extra) :
    ofMembers? kind.label (kind.members ++ extra) = some kind := by
  have hparams := mapM_map_eq_some Param.ofJson?_toJson
  have hargs : ∀ args : List String, (args.map Json.string).mapM Json.text? = some args :=
    mapM_map_eq_some fun _ => rfl
  rcases hextra with rfl | ⟨children, rfl⟩
  all_goals
    cases kind with
    | mixin name params =>
      simp [ofMembers?, label, members, ownMembers, textField?, listField?, field?, Json.text?, hparams]
    | inclusion name args =>
      simp [ofMembers?, label, members, ownMembers, textField?, listField?, field?, Json.text?, hargs]
    | stylesheet text | branch text | importRule _ text =>
      cases text <;>
        simp [ofMembers?, label, members, ownMembers, optionalMember, textField?, optionalTextField?, field?,
          Json.text?, Json.optionalText?]
    | _ => simp [ofMembers?, label, members, ownMembers, textField?, flagField?, field?, Json.text?]

/-- The `type` of a fragment is what its kind is called. -/
theorem field?_type_members (kind : Kind) {extra : List (String × Json)} (hextra : Trailing extra) :
    field? "type" (kind.members ++ extra) = some (some (.string kind.label)) := by
  rcases hextra with rfl | ⟨children, rfl⟩
  all_goals
    cases kind with
    | stylesheet text | branch text | importRule _ text =>
      cases text <;> simp [field?, members, ownMembers, optionalMember]
    | _ => simp [field?, members, ownMembers]

/-- No kind has a member of its own that is taken for the children. -/
theorem childLists?_members (kind : Kind) (extra : List (String × Json)) :
    Fragment.childLists? (kind.members ++ extra) = Fragment.childLists? extra := by
  cases kind with
  | stylesheet text | branch text | importRule _ text =>
    cases text <;> simp [Fragment.childLists?, members, ownMembers, optionalMember]
  | _ => simp [Fragment.childLists?, members, ownMembers]

theorem textual_members (kind : Kind) : ∀ m ∈ kind.members, m.2.Textual := by
  have hparams : ∀ params : List Param, (Json.array (params.map Param.toJson)).Textual := by
    intro params
    refine .array fun v hv => ?_
    obtain ⟨⟨name, fallback⟩, _, rfl⟩ := List.mem_map.1 hv
    cases fallback <;> exact .object (by simp [Json.Textual.string])
  have hargs : ∀ args : List String, (Json.array (args.map Json.string)).Textual := by
    intro args
    refine .array fun v hv => ?_
    obtain ⟨arg, _, rfl⟩ := List.mem_map.1 hv
    exact .string arg
  cases kind with
  | mixin name params => simp [members, ownMembers, Json.Textual.string, hparams]
  | inclusion name args => simp [members, ownMembers, Json.Textual.string, hargs]
  | stylesheet text | branch text | importRule _ text =>
    cases text <;> simp [members, ownMembers, optionalMember, Json.Textual.string]
  | _ => simp [members, ownMembers, Json.Textual.string, Json.Textual.bool]

end Kind

namespace Fragment

mutual

/-- A fragment is read back from its JSON value. -/
theorem ofJson?_toJson : (f : Fragment) → ofJson? f.toJson = some f
  | ⟨kind, []⟩ => by
    have hextra : Kind.Trailing [] := .inl rfl
    have htype := kind.field?_type_members hextra
    have hkind := kind.ofMembers?_members hextra
    have hchildren := kind.childLists?_members []
    rw [List.append_nil] at htype hkind hchildren
    simp [toJson, ofJson?, htype, Kind.labelOf?, hkind, hchildren, childLists?]
  | ⟨kind, child :: children⟩ => by
    have hextra : Kind.Trailing [("children", .array (child.toJson :: toJsonAll children))] := .inr ⟨_, rfl⟩
    have htype := kind.field?_type_members hextra
    have hkind := kind.ofMembers?_members hextra
    have hchildren := kind.childLists?_members [("children", .array (child.toJson :: toJsonAll children))]
    have hitems : items? (.array (child.toJson :: toJsonAll children)) = some (child :: children) :=
      ofItems?_toJsonAll (child :: children)
    simp [toJson, ofJson?, htype, Kind.labelOf?, hkind, hchildren, childLists?, hitems]

theorem ofItems?_toJsonAll : (fs : List Fragment) → ofItems? (toJsonAll fs) = some fs
  | [] => rfl
  | f :: fs => by
    have hfirst := ofJson?_toJson f
    have hrest := ofItems?_toJsonAll fs
    simp [toJsonAll, ofItems?, hfirst, hrest]

end

mutual

theorem textual_toJson : (f : Fragment) → f.toJson.Textual
  | ⟨kind, []⟩ => .object kind.textual_members
  | ⟨kind, child :: children⟩ => by
    refine .object fun m hm => ?_
    rcases List.mem_append.1 hm with hm | hm
    · exact kind.textual_members m hm
    · obtain rfl := List.mem_singleton.1 hm
      exact .array (textual_toJsonAll (child :: children))

theorem textual_toJsonAll : (fs : List Fragment) → ∀ v ∈ toJsonAll fs, v.Textual
  | [], v, hv => by simp [toJsonAll] at hv
  | f :: fs, v, hv => by
    rw [toJsonAll, List.mem_cons] at hv
    rcases hv with rfl | hv
    · exact textual_toJson f
    · exact textual_toJsonAll fs v hv

end

end Fragment

end NestedStyles
