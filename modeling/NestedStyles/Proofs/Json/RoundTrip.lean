import NestedStyles.Json.Printer
import NestedStyles.Proofs.Json.Reading

/-!
# Reading what was printed

The pretty form of a value is a way to write it. So the reader takes it back to that value, provided that arrays and
objects do not nest deeper than it allows, and refuses the text otherwise (`read?_print`). Only values without numbers
are considered: a numeral need not consist of digits.
-/

namespace NestedStyles.Json

/-- There are no numbers in the value. -/
inductive Textual : Json → Prop
  | null : Textual .null
  | bool (value : Bool) : Textual (.bool value)
  | string (text : String) : Textual (.string text)
  | array {items : List Json} (h : ∀ item ∈ items, Textual item) : Textual (.array items)
  | object {members : List (String × Json)} (h : ∀ m ∈ members, Textual m.2) : Textual (.object members)

theorem Textual.within_iff {v : Json} (h : Textual v) (bound : Nat) : v.Within bound ↔ v.depth ≤ bound := by
  have hnone : ∀ n ∈ v.numerals, n.inRange = true := by
    induction h with
    | null | bool _ | string _ => simp [numerals]
    | array _ ih => exact forall_numeralsItems.2 ih
    | object _ ih => exact forall_numeralsMembers.2 ih
  exact ⟨And.left, fun hdepth => ⟨hdepth, hnone⟩⟩

/-! ### Strings -/

private theorem unit?_control :
    ∀ n < 0x20, unit? '0' '0' (Nat.digitChar (n / 16)) (Nat.digitChar (n % 16)) = some n := by
  decide

private theorem spells_escape (c : Char) {cs text : List Char} (h : Spells cs text) :
    Spells (c :: cs) (escape c ++ text) := by
  fun_cases escape c with
  | case8 _ _ _ _ _ _ _ hcontrol =>
    have hlow : isLowSurrogate c.toNat = false := by simp [isLowSurrogate]; omega
    have hhigh : isHighSurrogate c.toNat = false := by simp [isHighSurrogate]; omega
    simpa [Char.ofNat_toNat] using h.unit (unit?_control _ hcontrol) hlow hhigh
  | case9 hquote hbackslash _ _ _ _ _ hcontrol => exact h.plain hquote hbackslash (Nat.not_lt.1 hcontrol)
  | _ =>
    subst c
    exact h.short rfl

theorem writtenString_quote (s : String) : WrittenString s (quote s) := by
  have hspells : ∀ cs : List Char, Spells cs (cs.flatMap escape) := by
    intro cs
    induction cs with
    | nil => exact .nil
    | cons c cs ih =>
      rw [List.flatMap_cons]
      exact spells_escape c ih
  exact ⟨hspells s.toList⟩

/-! ### Values -/

theorem blank_nil : Blank [] := by simp [Blank]

theorem blank_newline (level : Nat) : Blank (newline level) := by
  simp [Blank, newline, isSpace]

theorem intercalate_cons_map {α : Type} (form : α → List Char) (x : α) (xs : List α) :
    List.intercalate [','] ((x :: xs).map form) = form x ++ xs.flatMap fun y => ',' :: form y := by
  induction xs generalizing x with
  | nil => simp
  | cons y ys ih =>
    rw [List.map_cons, List.map_cons, List.intercalate_cons_cons, ← List.map_cons, ih]
    simp

/-- An item on a line of its own. -/
private def itemForm (level : Nat) (item : Json) : List Char := newline level ++ pretty level item

/-- A member on a line of its own. -/
private def memberEntry (level : Nat) (m : String × Json) : Entry where
  name := m.1
  label := newline level ++ quote m.1
  value := m.2
  body := ' ' :: pretty level m.2

private theorem pretty_array (level : Nat) (item : Json) (items : List Json) :
    pretty level (.array (item :: items)) =
      '[' :: enclosed ((item :: items).map (itemForm (level + 1))) (newline level) ']' := by
  have hitems : ∀ items,
      prettyItems (level + 1) items = items.flatMap fun item => ',' :: itemForm (level + 1) item := by
    intro items
    induction items with
    | nil => rfl
    | cons item items ih => simp [prettyItems, itemForm, ih]
  rw [enclosed, intercalate_cons_map]
  simp [pretty, hitems, itemForm]

private theorem pretty_object (level : Nat) (m : String × Json) (members : List (String × Json)) :
    pretty level (.object (m :: members)) =
      '\x7b' :: enclosed ((m :: members).map fun m => (memberEntry (level + 1) m).text) (newline level) '\x7d' := by
  have hmembers : ∀ members,
      prettyMembers (level + 1) members = members.flatMap fun m => ',' :: (memberEntry (level + 1) m).text := by
    intro members
    induction members with
    | nil => rfl
    | cons m members ih => simp [prettyMembers, memberEntry, Entry.text, ih]
  rw [enclosed, intercalate_cons_map]
  simp [pretty, hmembers, memberEntry, Entry.text]

/-- An array whose items are all written in the same form. -/
theorem written_array {items : List Json} {form : Json → List Char} {blank : List Char} (hblank : Blank blank)
    (h : ∀ item ∈ items, Written item (form item)) :
    Written (.array items) ('[' :: enclosed (items.map form) blank ']') := by
  have hitems : ∀ e ∈ items.map fun item => (item, form item), Written e.1 e.2 := by simpa using h
  have harray := Written.array hblank hitems
  rw [List.map_map, List.map_map] at harray
  simpa [Function.comp_def] using harray

theorem written_object {members : List (String × Json)} {entry : String × Json → Entry} {blank : List Char}
    (hblank : Blank blank) (hentry : ∀ m, (entry m).member = m)
    (hnames : ∀ m ∈ members, WrittenName (entry m).name (entry m).label)
    (h : ∀ m ∈ members, Written (entry m).value (entry m).body) :
    Written (.object members) ('\x7b' :: enclosed (members.map fun m => (entry m).text) blank '\x7d') := by
  have hobject := Written.object hblank (List.forall_mem_map.2 hnames) (List.forall_mem_map.2 h)
  rw [List.map_map, List.map_map] at hobject
  have hid : Entry.member ∘ entry = id := funext hentry
  rwa [hid, List.map_id] at hobject

/-- The pretty form is a way to write a value. -/
theorem written_pretty {v : Json} (hv : Textual v) (level : Nat) : Written v (pretty level v) := by
  induction hv generalizing level with
  | null => exact .null
  | bool b =>
    cases b with
    | true => exact .bool true
    | false => exact .bool false
  | string text => exact .string (writtenString_quote text)
  | @array items h ih =>
    cases items with
    | nil => exact written_array blank_nil fun item hitem => ih item hitem level
    | cons item items =>
      rw [pretty_array]
      apply written_array (blank_newline level)
      intro x hx
      exact (ih x hx (level + 1)).blank_append (blank_newline (level + 1))
  | @object members h ih =>
    cases members with
    | nil =>
      have hnone : ∀ e ∈ ([] : List Entry), WrittenName e.name e.label ∧ Written e.value e.body := by simp
      exact Written.object blank_nil (fun e he => (hnone e he).1) fun e he => (hnone e he).2
    | cons m members =>
      rw [pretty_object]
      apply written_object (blank_newline level)
      · exact fun _ => rfl
      · intro x _
        have hname := WrittenName.mk (blank_newline (level + 1)) blank_nil (writtenString_quote x.1)
        rwa [List.append_nil] at hname
      · intro x hx
        have hspace : Blank [' '] := by simp [Blank, isSpace]
        exact (ih x hx (level + 1)).blank_append hspace

/-- Reading the text of a value without numbers gives the value back, unless it nests too deep. -/
theorem read?_print {v : Json} (hv : Textual v) : read? v.print = if v.depth ≤ maxDepth then some v else none := by
  have hwritten : Written v v.print.toList := by
    rw [print, String.toList_ofList]
    exact written_pretty hv 0
  rw [read?_of_written hwritten]
  simp only [hv.within_iff]

end NestedStyles.Json
