import NestedStyles.Document.Interchange
import NestedStyles.Proofs.Fragment.Interchange
import NestedStyles.Proofs.Json.Recognition

/-!
# Texts of the same document

What a text is read as depends on the nodes that it denotes, not on their presentation. Values denote the same node if
they have the same members up to their order and to members that the node does not have (`SameNode`). A name that
belongs to one variant may be unknown to another, and the `type` that says which variant it is may come after the
members in question. The reader nevertheless takes such values to the same fragment, because it looks up every member by
its name and looks for no others (`ofJson?_object_congr`). With any way to write the values it gives the same document,
or the same error (`read_sameNode`).
-/

namespace NestedStyles

namespace Json

mutual

def decEq (v w : Json) : Decidable (v = w) :=
  if h : v.ctorIdx = w.ctorIdx then
    match v, w, h with
    | .null, .null, _ => .isTrue rfl
    | .bool b, .bool b', _ => decidable_of_iff (b = b') (by simp)
    | .number n, .number n', _ => decidable_of_iff (n = n') (by simp)
    | .string s, .string s', _ => decidable_of_iff (s = s') (by simp)
    | .array items, .array items', _ =>
      have := decEqItems items items'
      decidable_of_iff (items = items') (by simp)
    | .object members, .object members', _ =>
      have := decEqMembers members members'
      decidable_of_iff (members = members') (by simp)
  else .isFalse fun heq => h (congrArg Json.ctorIdx heq)

def decEqItems : (vs ws : List Json) → Decidable (vs = ws)
  | [], [] => .isTrue rfl
  | [], _ :: _ | _ :: _, [] => .isFalse nofun
  | v :: vs, w :: ws =>
    have := decEq v w
    have := decEqItems vs ws
    decidable_of_iff (v = w ∧ vs = ws) (by simp)

def decEqMembers : (ms ns : List (String × Json)) → Decidable (ms = ns)
  | [], [] => .isTrue rfl
  | [], _ :: _ | _ :: _, [] => .isFalse nofun
  | (name, v) :: ms, (name', w) :: ns =>
    have := decEq v w
    have := decEqMembers ms ns
    decidable_of_iff ((name = name' ∧ v = w) ∧ ms = ns) (by simp)

end

instance : DecidableEq Json := decEq

/-! ### Looking up members -/

variable {ms ns : List (String × Json)} {name : String}

/-- A member is found if it is not among the others already. -/
theorem field?_cons (name : String) (m : String × Json) (ms : List (String × Json)) :
    field? name (m :: ms) =
      if m.1 = name then (field? name ms).bind fun found => if found.isNone then some (some m.2) else none
      else field? name ms := by
  unfold field?
  by_cases hname : m.1 = name
  · rcases hms : ms.filter fun m => decide (m.1 = name) with _ | ⟨first, _ | ⟨second, rest⟩⟩ <;> simp [hms, hname]
  · simp [hname]

theorem field?_cons_of_ne {other : String} (h : other ≠ name) (v : Json) (ms : List (String × Json)) :
    field? name ((other, v) :: ms) = field? name ms := by
  rw [field?_cons, if_neg h]

theorem field?_perm (h : ms.Perm ns) (name : String) : field? name ms = field? name ns := by
  induction h with
  | nil => rfl
  | cons m _ ih => rw [field?_cons, field?_cons, ih]
  | swap m m' ms =>
    simp only [field?_cons]
    -- two members of the name are one too many, in either order
    rcases field? name ms with _ | _ | v <;> by_cases hm : m.1 = name <;> by_cases hm' : m'.1 = name <;> simp [hm, hm']
  | trans _ _ ih ih' => rw [ih, ih']

theorem listField?_congr {α : Type} {item : Json → Option α} (h : field? name ms = field? name ns) :
    listField? name item ms = listField? name item ns := by
  rw [listField?, listField?, h]

theorem listField?_cons_congr {α : Type} {item : Json → Option α} {items items' : List Json}
    (h : items.mapM item = items'.mapM item) (name : String) (ms : List (String × Json)) :
    listField? name item ((name, .array items) :: ms) = listField? name item ((name, .array items') :: ms) := by
  rw [listField?, listField?, field?_cons, field?_cons, if_pos rfl, if_pos rfl]
  rcases field? name ms with _ | _ | v <;> simp [h]

theorem mapM_middle_congr {α β : Type} {read : α → Option β} {x y : α} (h : read x = read y) (before after : List α) :
    (before ++ x :: after).mapM read = (before ++ y :: after).mapM read := by
  simp [h]

/-- The members of an object in another order, or with one more that is not known. -/
inductive Rearranged (known : List (String × Json) → List String) :
    List (String × Json) → List (String × Json) → Prop
  | order {ms ns : List (String × Json)} (h : ms.Perm ns) : Rearranged known ms ns
  | unknown {ms : List (String × Json)} {name : String} (h : name ∉ known ms) (v : Json) :
      Rearranged known ms ((name, v) :: ms)

theorem Rearranged.field?_eq {known : List (String × Json) → List String} (h : Rearranged known ms ns)
    (hname : name ∈ known ms) : field? name ms = field? name ns := by
  cases h with
  | order h => exact field?_perm h name
  | unknown h v =>
    rw [field?_cons_of_ne]
    rintro rfl
    exact h hname

end Json

open Json (field? textField? optionalTextField? flagField? listField? Rearranged)

variable {ms ns : List (String × Json)}

/-! ### Members of parameters and kinds -/

namespace Param

/-- The names of the members that a parameter can have. -/
def memberNames : List String := ["name", "default"]

theorem ofJson?_congr (h : ∀ name ∈ memberNames, field? name ms = field? name ns) :
    ofJson? (.object ms) = ofJson? (.object ns) := by
  simp only [memberNames, List.forall_mem_cons] at h
  simp only [ofJson?, textField?, optionalTextField?, h]

end Param

namespace Kind

/-- The names of the members that a kind can have after its `type`. -/
def memberNames : String → List String
  | "Stylesheet" => ["file_name"]
  | "Rule" => ["selector"]
  | "Declaration" => ["property", "value"]
  | "Variable" => ["name", "value", "guarded"]
  | "MixinDef" => ["name", "params"]
  | "MixinInclude" => ["name", "args"]
  | "IfBranch" => ["condition"]
  | "Import" => ["href", "media"]
  | "Comment" | "Raw" => ["text"]
  | _ => []

theorem ofMembers?_congr {label : String} (h : ∀ name ∈ memberNames label, field? name ms = field? name ns) :
    ofMembers? label ms = ofMembers? label ns := by
  unfold memberNames at h
  unfold ofMembers?
  split <;> simp_all [textField?, optionalTextField?, flagField?, listField?]

theorem ofMembers?_cons_congr {label name : String} (h : name ∉ memberNames label) (v w : Json) :
    ofMembers? label ((name, v) :: ms) = ofMembers? label ((name, w) :: ms) := by
  apply ofMembers?_congr
  intro other hother
  have hne : name ≠ other := by
    rintro rfl
    exact h hother
  rw [Json.field?_cons_of_ne hne, Json.field?_cons_of_ne hne]

theorem children_not_mem_memberNames (label : String) : "children" ∉ memberNames label := by
  unfold memberNames
  split <;> decide

theorem params_not_mem_memberNames {label : String} (h : label ≠ "MixinDef") : "params" ∉ memberNames label := by
  unfold memberNames
  split <;> simp_all

theorem ofMembers?_params_congr {v w : Json}
    (h : listField? "params" Param.ofJson? (("params", v) :: ms) =
      listField? "params" Param.ofJson? (("params", w) :: ms)) (label : String) :
    ofMembers? label (("params", v) :: ms) = ofMembers? label (("params", w) :: ms) := by
  by_cases hlabel : label = "MixinDef"
  · subst hlabel
    simp only [ofMembers?, textField?, Json.field?_cons_of_ne (show "params" ≠ "name" by decide), h]
  · exact ofMembers?_cons_congr (params_not_mem_memberNames hlabel) v w

end Kind

/-! ### Nodes -/

namespace Fragment

/-- The variant of a node, which its `type` says. -/
def variant? (ms : List (String × Json)) : Option String := do Kind.labelOf? (← (← field? "type" ms))

theorem ofItems?_eq (items : List Json) : ofItems? items = items.mapM ofJson? := by
  induction items with
  | nil => rfl
  | cons item items ih => simp [ofItems?, ih]

/-- The children are in no member, in one member, or there are too many members for them. -/
theorem childLists?_cases (ms : List (String × Json)) :
    (field? "children" ms = some none ∧ childLists? ms = some []) ∨
      (∃ v, field? "children" ms = some (some v) ∧ childLists? ms = (items? v).map fun children => [children]) ∨
      (field? "children" ms = none ∧ ∀ lists, childLists? ms = some lists → 2 ≤ lists.length) := by
  induction ms with
  | nil => exact .inl ⟨rfl, rfl⟩
  | cons m ms ih =>
    obtain ⟨name, value⟩ := m
    rw [Json.field?_cons, childLists?]
    by_cases hname : name = "children"
    · simp only [if_pos hname, Option.bind_eq_bind]
      rcases ih with ⟨hfield, hlists⟩ | ⟨v, hfield, hlists⟩ | ⟨hfield, hlists⟩
      · refine .inr (.inl ⟨value, by simp [hfield], ?_⟩)
        cases items? value <;> simp [hlists]
      · refine .inr (.inr ⟨by simp [hfield], ?_⟩)
        intro lists h
        simp only [hlists, Option.bind_eq_some_iff] at h
        obtain ⟨first, -, others, hothers, heq⟩ := h
        obtain ⟨second, -, rfl⟩ := Option.map_eq_some_iff.1 hothers
        simp [← Option.some.inj heq]
      · refine .inr (.inr ⟨by simp [hfield], ?_⟩)
        intro lists h
        simp only [Option.bind_eq_some_iff] at h
        obtain ⟨first, -, others, hothers, heq⟩ := h
        have hlength := hlists others hothers
        simp only [← Option.some.inj heq, List.length_cons]
        omega
    · simp only [if_neg hname]
      exact ih

/-- The children are read like any other list. -/
theorem ofJson?_object (ms : List (String × Json)) :
    ofJson? (.object ms) = (variant? ms).bind fun label => (Kind.ofMembers? label ms).bind fun kind =>
      (listField? "children" ofJson? ms).map (Fragment.mk kind) := by
  simp only [ofJson?, Option.bind_eq_bind, variant?, Option.bind_assoc]
  congr! with type label kind
  rcases childLists?_cases ms with ⟨hfield, hlists⟩ | ⟨v, hfield, hlists⟩ | ⟨hfield, hlists⟩
  · simp [listField?, hfield, hlists]
  · cases v with
    | array items =>
      have hread : listField? "children" ofJson? ms = items.mapM ofJson? := by simp [listField?, hfield]
      rw [hlists, hread, items?, ofItems?_eq]
      cases items.mapM ofJson? <;> rfl
    | _ => simp [listField?, hfield, hlists, items?]
  · rcases h : childLists? ms with _ | lists
    · simp [listField?, hfield]
    · have hlength := hlists lists h
      rcases lists with _ | ⟨first, _ | ⟨second, rest⟩⟩
      · simp at hlength
      · simp at hlength
      · simp [listField?, hfield]

/-- The names of the members that a node can have, which depend on its variant. -/
def memberNames (ms : List (String × Json)) : List String :=
  "type" :: "children" :: ((variant? ms).map Kind.memberNames).getD []

/-- No other members of an object have a part in the fragment. -/
theorem ofJson?_object_congr (h : ∀ name ∈ memberNames ms, field? name ms = field? name ns) :
    ofJson? (.object ms) = ofJson? (.object ns) := by
  have htype : variant? ms = variant? ns := by rw [variant?, variant?, h "type" (by simp [memberNames])]
  have hchildren : listField? "children" ofJson? ms = listField? "children" ofJson? ns :=
    Json.listField?_congr (h "children" (by simp [memberNames]))
  rw [ofJson?_object, ofJson?_object, ← htype, ← hchildren]
  rcases hlabel : variant? ms with _ | label
  · rfl
  · have hkind : Kind.ofMembers? label ms = Kind.ofMembers? label ns := by
      apply Kind.ofMembers?_congr
      intro name hname
      exact h name (by simp [memberNames, hlabel, hname])
    simp only [Option.bind_some, hkind]

/-- Two values of a member make no difference if they make none to the kind and to the children. -/
theorem ofJson?_cons_congr {name : String} {v w : Json} (hname : name ≠ "type")
    (hkind : ∀ label, Kind.ofMembers? label ((name, v) :: ms) = Kind.ofMembers? label ((name, w) :: ms))
    (hchildren : listField? "children" ofJson? ((name, v) :: ms) = listField? "children" ofJson? ((name, w) :: ms)) :
    ofJson? (.object ((name, v) :: ms)) = ofJson? (.object ((name, w) :: ms)) := by
  have htype : ∀ v, variant? ((name, v) :: ms) = variant? ms := by
    intro v
    rw [variant?, variant?, Json.field?_cons_of_ne hname]
  simp only [ofJson?_object, htype, hkind, hchildren]

/-- The values denote the same node: they have the same members up to their order and to members that the node does not
have, and so have their parameters and the nodes below. -/
inductive SameNode : Json → Json → Prop
  | refl (v : Json) : SameNode v v
  | symm {v w : Json} (h : SameNode v w) : SameNode w v
  | trans {u v w : Json} (h : SameNode u v) (h' : SameNode v w) : SameNode u w
  | members {ms ns : List (String × Json)} (h : Rearranged memberNames ms ns) : SameNode (.object ms) (.object ns)
  | param {ps qs : List (String × Json)} (h : Rearranged (fun _ => Param.memberNames) ps qs) (before after : List Json)
      (ms : List (String × Json)) :
      SameNode (.object (("params", .array (before ++ .object ps :: after)) :: ms))
        (.object (("params", .array (before ++ .object qs :: after)) :: ms))
  | child {v w : Json} (h : SameNode v w) (before after : List Json) (ms : List (String × Json)) :
      SameNode (.object (("children", .array (before ++ v :: after)) :: ms))
        (.object (("children", .array (before ++ w :: after)) :: ms))

theorem SameNode.ofJson?_eq {v w : Json} (h : SameNode v w) : ofJson? v = ofJson? w := by
  induction h with
  | refl v => rfl
  | symm _ ih => exact ih.symm
  | trans _ _ ih ih' => exact ih.trans ih'
  | members h => exact ofJson?_object_congr fun name hname => h.field?_eq hname
  | param h before after ms =>
    have hparam := Param.ofJson?_congr fun name hname => h.field?_eq hname
    have hparams := Json.listField?_cons_congr (Json.mapM_middle_congr hparam before after) "params" ms
    apply ofJson?_cons_congr (by decide) (Kind.ofMembers?_params_congr hparams)
    have hne : "params" ≠ "children" := by decide
    apply Json.listField?_congr
    rw [Json.field?_cons_of_ne hne, Json.field?_cons_of_ne hne]
  | child _ before after ms ih =>
    have hchildren := Json.listField?_cons_congr (Json.mapM_middle_congr ih before after) "children" ms
    apply ofJson?_cons_congr (by decide) _ hchildren
    intro label
    exact Kind.ofMembers?_cons_congr (Kind.children_not_mem_memberNames label) _ _

end Fragment

/-! ### Documents -/

namespace Document

open Fragment (SameNode)

/-- Texts within the limits that denote the same node give the same document or the same error, whichever way they are
written. If the node is that of a fragment, they give the document of the fragment. -/
theorem read_sameNode {s t : String} {v w : Json} (hs : v.Written s.toList) (ht : w.Written t.toList)
    (hv : v.Within Json.maxDepth) (hw : w.Within Json.maxDepth) (h : SameNode v w) :
    read s = read t ∧ ∀ f : Fragment, SameNode v f.toJson → read s = ofFragment f := by
  have hvalue : Json.read? s = some v := Json.read?_eq_some_iff.2 ⟨hs, hv⟩
  have hvalue' : Json.read? t = some w := Json.read?_eq_some_iff.2 ⟨ht, hw⟩
  constructor
  · rw [read, read, hvalue, hvalue', Option.bind_some, Option.bind_some, h.ofJson?_eq]
  · intro f hf
    rw [read, hvalue, Option.bind_some, hf.ofJson?_eq, f.ofJson?_toJson]

/-- A mixin that has one parameter with a default. -/
def edged : Fragment := ⟨.stylesheet none, [⟨.mixin "edge" [{ name := "w", fallback := some "1" }], []⟩]⟩

/-- The members of the mixin, from the last to the first. -/
def edgeMembers (param : List (String × Json)) : List (String × Json) :=
  [("params", .array [.object param]), ("name", .string "edge"), ("type", .string "MixinDef")]

/-- The same stylesheet with every `type` last, with a member that belongs to rules and one that belongs to comments. -/
def edgedBackwards : Json :=
  .object
    [("children", .array
      [.object
        (("selector", .number { negative := true, whole := ['1'], fraction := ['5'], exponent := some 3 }) ::
          edgeMembers [("text", .array []), ("default", .string "1"), ("name", .string "w")])]),
     ("type", .string "Stylesheet")]

/-- A text of it with white space and escapes that are not needed. -/
def edgedText : String :=
  " \x7b\"children\":[\x7b\"selector\" :-1.5E+3,\"params\":[\x7b\"text\":[ ],\"default\":\"\\u0031\"," ++
    "\"name\":\"w\"\x7d]\n,\"name\":\"e\\u0064ge\",\"type\":\"MixinDef\"\x7d\t],\"type\":\"Stylesheet\"\x7d"

theorem read?_edgedText : Json.read? edgedText = some edgedBackwards := by
  decide +kernel

theorem sameNode_edgedBackwards : SameNode edgedBackwards edged.toJson := by
  have hselector : "selector" ∉
      Fragment.memberNames (edgeMembers [("text", .array []), ("default", .string "1"), ("name", .string "w")]) := by
    decide +kernel
  have htext : Rearranged (fun _ => Param.memberNames) [("default", .string "1"), ("name", .string "w")]
      [("text", .array []), ("default", .string "1"), ("name", .string "w")] :=
    .unknown (by decide) _
  have hdefault : Rearranged (fun _ => Param.memberNames) [("default", .string "1"), ("name", .string "w")]
      [("name", .string "w"), ("default", .string "1")] :=
    .order (.swap _ _ [])
  have hparam := (SameNode.param htext [] [] _).symm.trans (SameNode.param hdefault [] [] (edgeMembers []).tail)
  have hbackwards : ∀ ms : List (String × Json), SameNode (.object ms) (.object ms.reverse) :=
    fun ms => .members (.order (List.reverse_perm ms).symm)
  have hmixin := fun v => (SameNode.members (.unknown hselector v)).symm.trans (hparam.trans (hbackwards _))
  exact (SameNode.child (hmixin _) [] [] [("type", .string "Stylesheet")]).trans (hbackwards _)

/-- The members are found in any order, and the others are passed over. -/
theorem read_sameNode_edged :
    read edgedText = read edged.toJson.print ∧ read edgedText = ofFragment edged := by
  obtain ⟨htext, hwithin⟩ := Json.read?_eq_some_iff.1 read?_edgedText
  have hprint : edged.toJson.Written edged.toJson.print.toList := by
    rw [Json.print, String.toList_ofList]
    exact Json.written_pretty edged.textual_toJson 0
  obtain ⟨hsame, hfragment⟩ := read_sameNode htext hprint hwithin (by decide +kernel) sameNode_edgedBackwards
  exact ⟨hsame, hfragment edged sameNode_edgedBackwards⟩

end Document

end NestedStyles
