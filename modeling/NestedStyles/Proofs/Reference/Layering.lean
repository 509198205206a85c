import Std.Data.TreeMap.Lemmas
import NestedStyles.Arguments
import NestedStyles.Proofs.Reference.Filling
import NestedStyles.Run

/-!
# Parameters and variables

The body of a mixin goes through two substitutions, one for the parameters when it is copied and one for the variables
when the copy is visited. The second one reads what the first one has put in. The result is that of a single
substitution in which the parameters come first, if a value that takes the place of a parameter does not become a part
of another reference (`Separate`). This is so if no reference to a parameter comes right after a `$` and characters of a
name, and if the value of a parameter can be neither a brace of an interpolation nor what is between its braces.
-/

namespace NestedStyles.Reference

open Text

variable {params scope : Lookup} {form : Form} {c : Char} {cs : List Char}

/-- What the first lookup gives, or else the second one. -/
def shadow (params scope : Lookup) : Lookup := fun name => (params name).or (scope name)

theorem Form.bound?_shadow (form : Form) (params scope : Lookup) (cs : List Char) :
    form.bound? (shadow params scope) cs = (form.bound? params cs).or (form.bound? scope cs) := by
  rcases hread : form.read? cs with _ | ⟨name, rest⟩
  · simp [bound?, hread]
  · simp only [bound?, hread, shadow, Option.bind_eq_bind, Option.bind_some]
    cases params (String.ofList name) <;> rfl

theorem Form.bound?_shadow_eq_none {form : Form} :
    form.bound? (shadow params scope) cs = none ↔ form.bound? params cs = none ∧ form.bound? scope cs = none := by
  rw [bound?_shadow, Option.or_eq_none_iff]

/-- A value that cannot take the place of a part of an interpolation. -/
structure Solid (value : List Char) : Prop where
  not_blank : ∃ c ∈ value, isBlank c = false
  not_closing : '\x7d' ∉ value
  not_opening : value.getLast? ≠ some '#'

/-- The values of the parameters do not become parts of other references in the text. -/
structure Separate (params scope : Lookup) (cs : List Char) : Prop where
  /-- No interpolation of a bound name comes right after a `$` and characters of a name. -/
  detached : Detached (shadow params scope) cs
  /-- No reference to a parameter does so, except after a reference to a parameter. -/
  plain : ∀ t, '$' :: t <:+ cs → plain.bound? params ('$' :: t) = none →
    plain.bound? params (t.dropWhile isNameChar) = none
  /-- No value of a parameter opens an interpolation. -/
  no_brace : ∀ name value, params name = some value → '\x7b' ∉ value.toList
  /-- Where there are braces, the values of the parameters are solid. -/
  solid : '\x7b' ∈ cs → ∀ name value, params name = some value → Solid value.toList

theorem Separate.suffix {t : List Char} (h : Separate params scope cs) (ht : t <:+ cs) : Separate params scope t where
  detached := h.detached.suffix ht
  plain u hu := h.plain u (hu.trans ht)
  no_brace := h.no_brace
  solid hmem := h.solid (ht.subset hmem)

theorem bound?_either_eq_none {lookup : Lookup} (hplain : plain.bound? lookup cs = none)
    (hinterpolation : interpolation.bound? lookup cs = none) : either.bound? lookup cs = none := by
  cases cs with
  | nil => exact either.bound?_nil lookup
  | cons c cs =>
    by_cases hdollar : c = '$'
    · subst hdollar
      rw [bound?_either_dollar, hplain]
    · rw [bound?_either_of_ne lookup hdollar, hinterpolation]

/-! ### Putting in the parameters -/

/-- What is in no value comes from the text. -/
theorem mem_of_mem_fill_either {lookup : Lookup} {d : Char}
    (hvalues : ∀ name value, lookup name = some value → d ∉ value.toList) (h : d ∈ either.fill lookup cs) :
    d ∈ cs := by
  induction cs using Form.fill.induct either lookup with
  | case1 => simp at h
  | case2 c cs hnone ih =>
    rw [Form.fill_of_none hnone, List.mem_cons] at h
    rcases h with rfl | h
    · exact List.mem_cons_self
    · exact List.mem_cons_of_mem _ (ih h)
  | case3 c cs value rest hsome ih =>
    rw [Form.fill_of_some hsome, List.mem_append] at h
    obtain ⟨name, v, -, hv, rfl⟩ := Form.bound?_eq_some_iff.1 hsome
    rcases h with h | h
    · exact absurd h (hvalues _ v hv)
    · exact (bound?_either_suffix hsome).subset (ih h)

section Params

/-- What comes after the name that follows a `$` does not start with a reference to a parameter, unless the name is one
itself. -/
theorem Separate.bound?_behind (h : Separate params scope ('$' :: cs))
    (hnone : either.bound? params ('$' :: cs) = none) :
    either.bound? params (cs.dropWhile isNameChar) = none := by
  rw [bound?_either_dollar] at hnone
  have hdetached := Form.bound?_shadow_eq_none.1 (h.detached cs (List.suffix_refl _))
  exact bound?_either_eq_none (h.plain cs (List.suffix_refl _) hnone) hdetached.1

/-- The name after a `$` that is not a reference to a parameter is left as it is. -/
theorem Separate.fill_name (h : Separate params scope ('$' :: cs))
    (hnone : either.bound? params ('$' :: cs) = none) :
    either.fill params cs = cs.takeWhile isNameChar ++ either.fill params (cs.dropWhile isNameChar) ∧
      (either.fill params (cs.dropWhile isNameChar)).takeWhile isNameChar = [] := by
  refine Form.fill_name (fun c hc => ?_) (h.bound?_behind hnone)
  exact read?_either_of_ne (isNameChar_ne hc).1 (isNameChar_ne hc).2

/-- A plain reference to something else can be read off a text before or after the parameters are put in behind it. -/
theorem Separate.plain?_fill (h : Separate params scope cs) (hnone : either.bound? params cs = none) :
    plain? (either.fill params cs) = (plain? cs).map fun found => (found.1, either.fill params found.2) := by
  cases cs with
  | nil => simp [plain?]
  | cons c cs =>
    rw [Form.fill_of_none hnone]
    by_cases hdollar : c = '$'
    · subst hdollar
      obtain ⟨hname, hends⟩ := h.fill_name hnone
      rw [hname]
      exact name?_map (either.fill params) cs hends
    · rw [plain?_of_ne hdollar, plain?_of_ne hdollar]
      rfl

/-- An opening brace at the start of the result was there in the text. -/
theorem Separate.head?_fill (h : Separate params scope cs) (hhead : (either.fill params cs).head? = some '\x7b') :
    cs.head? = some '\x7b' := by
  have hmem : '\x7b' ∈ cs := mem_of_mem_fill_either h.no_brace (List.mem_of_mem_head? hhead)
  cases cs with
  | nil => simp at hmem
  | cons c cs =>
    rcases hbound : either.bound? params (c :: cs) with _ | ⟨value, rest⟩
    · rw [Form.fill_of_none hbound] at hhead
      exact hhead
    · obtain ⟨name, v, -, hv, rfl⟩ := Form.bound?_eq_some_iff.1 hbound
      obtain ⟨b, hb, -⟩ := (h.solid hmem _ v hv).not_blank
      obtain ⟨d, ds, hd⟩ := List.exists_cons_of_ne_nil (List.ne_nil_of_mem hb)
      rw [Form.fill_of_some hbound, hd, List.cons_append, List.head?_cons, Option.some.injEq] at hhead
      exact absurd (by simp [hd, hhead]) (h.no_brace _ v hv)

variable (hdollar : ∀ name value, params name = some value → '$' ∉ value.toList)
include hdollar

/-- White space in front of a text stays in front of it. If a reference to a parameter follows the white space,
something comes to stand there that belongs to no interpolation. -/
theorem trimStart_fill (hsolid : ∀ name value, params name = some value → Solid value.toList) (cs : List Char) :
    either.bound? params (trimStart cs) = none ∧ trimStart (either.fill params cs) = either.fill params (trimStart cs) ∨
      either.bound? params (trimStart cs) ≠ none ∧
        ∃ d ds, trimStart (either.fill params cs) = d :: ds ∧ d ≠ '$' ∧ d ≠ '\x7d' := by
  induction cs with
  | nil => exact Or.inl ⟨either.bound?_nil params, by simp [trimStart]⟩
  | cons c cs ih =>
    by_cases hblank : isBlank c = true
    · have hne : c ≠ '$' ∧ c ≠ '#' := by
        constructor <;> rintro rfl <;> revert hblank <;> decide
      have hskip : ∀ cs, trimStart (c :: cs) = trimStart cs := fun cs => List.dropWhile_cons_of_pos hblank
      rw [Form.fill_of_none (Form.bound?_of_read?_none (read?_either_of_ne hne.1 hne.2 cs)), hskip, hskip]
      exact ih
    · have hstop : ∀ cs, trimStart (c :: cs) = c :: cs := fun cs => List.dropWhile_cons_of_neg hblank
      rw [hstop]
      rcases hbound : either.bound? params (c :: cs) with _ | ⟨value, rest⟩
      · rw [Form.fill_of_none hbound, hstop]
        exact Or.inl ⟨rfl, rfl⟩
      · obtain ⟨name, v, -, hv, rfl⟩ := Form.bound?_eq_some_iff.1 hbound
        obtain ⟨⟨b, hb, hbb⟩, hclosing, -⟩ := hsolid _ v hv
        refine Or.inr ⟨by simp, ?_⟩
        cases htrim : v.toList.dropWhile isBlank with
        | nil =>
          have hall := List.dropWhile_eq_nil_iff.1 htrim b hb
          simp [hbb] at hall
        | cons d ds =>
          have hmem : d ∈ v.toList := (List.dropWhile_suffix isBlank).subset (htrim ▸ List.mem_cons_self)
          refine ⟨d, ds ++ either.fill params rest, ?_, ?_, ?_⟩
          · rw [Form.fill_of_some hbound, trimStart, List.dropWhile_append, htrim]
            rfl
          · rintro rfl
            exact hdollar _ v hv hmem
          · rintro rfl
            exact hclosing hmem

theorem closed?_fill (hsolid : ∀ name value, params name = some value → Solid value.toList) (cs : List Char) :
    closed? (either.fill params cs) = (closed? cs).map (either.fill params) := by
  rcases trimStart_fill hdollar hsolid cs with ⟨hnone, htrim⟩ | ⟨hsome, d, ds, htrim, -, hd⟩
  · cases hcs : trimStart cs with
    | nil =>
      rw [closed?_of_trimStart_ne (by simp [htrim, hcs]), closed?_of_trimStart_ne (by simp [hcs])]
      rfl
    | cons e es =>
      rw [hcs] at hnone
      rw [hcs, Form.fill_of_none hnone] at htrim
      by_cases he : e = '\x7d'
      · subst he
        rw [closed?_of_trimStart_eq htrim, closed?_of_trimStart_eq hcs]
        rfl
      · rw [closed?_of_trimStart_ne (by simp [htrim, he]), closed?_of_trimStart_ne (by simp [hcs, he])]
        rfl
  · have hhead : (trimStart cs).head? ≠ some '\x7d' := by
      intro hhead
      obtain ⟨es, hes⟩ := List.head?_eq_some_iff.1 hhead
      rw [hes] at hsome
      exact hsome (Form.bound?_of_read?_none (read?_either_of_ne (by decide) (by decide) es))
    rw [closed?_of_trimStart_ne (by simp [htrim, hd]), closed?_of_trimStart_ne hhead]
    rfl

theorem Separate.interpolation?_brace (h : Separate params scope ('#' :: '\x7b' :: cs))
    (hnone : either.bound? params ('#' :: '\x7b' :: cs) = none) :
    interpolation? ('#' :: '\x7b' :: either.fill params cs) =
      (interpolation? ('#' :: '\x7b' :: cs)).map fun found => (found.1, either.fill params found.2) := by
  have hsolid := h.solid (by simp)
  have hsuffix : trimStart cs <:+ '#' :: '\x7b' :: cs :=
    (List.dropWhile_suffix isBlank).trans ((List.suffix_cons _ _).trans (List.suffix_cons _ _))
  rw [interpolation?_eq, interpolation?_eq]
  rcases trimStart_fill hdollar hsolid cs with ⟨hnone', htrim⟩ | ⟨hsome, d, ds, htrim, hd, -⟩
  · rw [htrim, (h.suffix hsuffix).plain?_fill hnone']
    rcases plain? (trimStart cs) with _ | ⟨name, rest⟩
    · rfl
    · simp only [Option.map_some, Option.bind_some, closed?_fill hdollar hsolid, Option.map_map]
      rfl
  · rw [htrim, plain?_of_ne hd]
    rcases hplain : plain? (trimStart cs) with _ | ⟨name, rest⟩
    · rfl
    · rcases hclosed : closed? rest with _ | rest'
      · simp [hclosed]
      · -- an interpolation of a parameter would have been read as such
        have hread : interpolation? ('#' :: '\x7b' :: cs) = some (name, rest') := by
          rw [interpolation?_eq, hplain, Option.bind_some, hclosed]
          rfl
        have hread' : interpolation.read? ('#' :: '\x7b' :: cs) = some (name, rest') := hread
        simp only [Form.bound?, read?_either_hash, hread', read?_either_of_plain hplain, Option.bind_eq_bind,
          Option.bind_some] at hnone hsome
        cases hv : params (String.ofList name) with
        | none => simp [hv] at hsome
        | some v => simp [hv] at hnone

/-- The same for an interpolation. -/
theorem Separate.interpolation?_fill (h : Separate params scope cs) (hnone : either.bound? params cs = none) :
    interpolation? (either.fill params cs) =
      (interpolation? cs).map fun found => (found.1, either.fill params found.2) := by
  cases cs with
  | nil => simp [interpolation?]
  | cons c cs =>
    rw [Form.fill_of_none hnone]
    by_cases hhash : c = '#'
    · subst hhash
      by_cases hbrace : cs.head? = some '\x7b'
      · obtain ⟨cs, rfl⟩ := List.head?_eq_some_iff.1 hbrace
        have hskip : either.bound? params ('\x7b' :: cs) = none :=
          Form.bound?_of_read?_none (read?_either_of_ne (by decide) (by decide) cs)
        rw [Form.fill_of_none hskip]
        exact h.interpolation?_brace hdollar hnone
      · have hbrace' : (either.fill params cs).head? ≠ some '\x7b' := fun hhead =>
          hbrace ((h.suffix (List.suffix_cons _ _)).head?_fill hhead)
        rw [interpolation?_of_head?_ne hbrace, interpolation?_of_head?_ne hbrace']
        rfl
    · rw [interpolation?_of_ne hhash, interpolation?_of_ne hhash]
      rfl

theorem Separate.bound?_fill (h : Separate params scope cs) (hnone : either.bound? params cs = none) :
    either.bound? scope (either.fill params cs) =
      (either.bound? scope cs).map fun found => (found.1, either.fill params found.2) := by
  apply Form.bound?_map
  show (interpolation? _).or (plain? _) = ((interpolation? cs).or (plain? cs)).map _
  rw [h.interpolation?_fill hdollar hnone, h.plain?_fill hnone, Option.map_or]

end Params

/-! ### Putting in the variables -/

/-- A value without `$` that does not end up in front of a brace. -/
theorem fill_either_append {lookup : Lookup} {word rest : List Char} (hdollar : '$' ∉ word) (hopen : '\x7b' ∉ word)
    (hlast : word.getLast? = some '#' → rest.head? ≠ some '\x7b') :
    either.fill lookup (word ++ rest) = word ++ either.fill lookup rest := by
  induction word with
  | nil => rfl
  | cons c word ih =>
    rw [List.mem_cons, not_or] at hdollar hopen
    have hnone : either.read? (c :: (word ++ rest)) = none := by
      by_cases hc : c = '#'
      · subst hc
        rw [read?_either_hash]
        apply interpolation?_of_head?_ne
        cases word with
        | nil => exact hlast rfl
        | cons d word =>
          rintro hd
          obtain rfl := Option.some.inj hd
          exact hopen.2 List.mem_cons_self
      · exact read?_either_of_ne (Ne.symm hdollar.1) hc _
    rw [List.cons_append, Form.fill_of_none (Form.bound?_of_read?_none hnone), ih hdollar.2 hopen.2, List.cons_append]
    intro hword
    apply hlast
    rw [List.getLast?_cons, hword]
    rfl

theorem suffix_of_suffix_append {word t : List Char} (hc : c ∉ word) (h : c :: t <:+ word ++ cs) : c :: t <:+ cs := by
  induction word with
  | nil => exact h
  | cons d word ih =>
    rw [List.mem_cons, not_or] at hc
    rcases List.suffix_cons_iff.1 h with heq | h
    · exact absurd (List.cons.inj heq).1 hc.1
    · exact ih hc.2 h

section Scope

variable (hdollar : ∀ name value, params name = some value → '$' ∉ value.toList)
include hdollar

/-- Scanning for parameters and then for variables comes to one scan in which the parameters come first. -/
theorem Separate.fill_fill (h : Separate params scope cs) :
    either.fill scope (either.fill params cs) = either.fill (shadow params scope) cs := by
  induction cs using Form.fill.induct either (shadow params scope) with
  | case1 => simp
  | case2 c cs hnone ih =>
    obtain ⟨hparam, hscope⟩ := Form.bound?_shadow_eq_none.1 hnone
    have hread := h.bound?_fill hdollar hparam
    rw [hscope, Form.fill_of_none hparam] at hread
    rw [Form.fill_of_none hparam, Form.fill_of_none hread, Form.fill_of_none hnone,
      ih (h.suffix (List.suffix_cons c cs))]
  | case3 c cs value rest hsome ih =>
    have hsuffix := bound?_either_suffix hsome
    rw [Form.fill_of_some hsome, ← ih (h.suffix hsuffix)]
    rw [Form.bound?_shadow, Option.or_eq_some_iff] at hsome
    rcases hsome with hparam | ⟨hparam, hscope⟩
    · obtain ⟨name, v, -, hv, rfl⟩ := Form.bound?_eq_some_iff.1 hparam
      rw [Form.fill_of_some hparam, fill_either_append (hdollar _ v hv) (h.no_brace _ v hv)]
      intro hlast hhead
      have hmem : '\x7b' ∈ rest := mem_of_mem_fill_either h.no_brace (List.mem_of_mem_head? hhead)
      exact (h.solid (hsuffix.subset hmem) _ v hv).not_opening hlast
    · have hread := h.bound?_fill hdollar hparam
      rw [hscope] at hread
      rw [Form.fill_of_some hread]

/-- Every `$` of the result was one of the text, and what follows it is what followed it there. -/
theorem exists_suffix_of_fill {t : List Char} (ht : '$' :: t <:+ either.fill params cs) :
    ∃ u, '$' :: u <:+ cs ∧ either.bound? params ('$' :: u) = none ∧ t = either.fill params u := by
  induction cs using Form.fill.induct either params with
  | case1 => simp at ht
  | case2 c cs hnone ih =>
    rw [Form.fill_of_none hnone, List.suffix_cons_iff] at ht
    rcases ht with heq | ht
    · obtain ⟨rfl, rfl⟩ := List.cons.inj heq
      exact ⟨cs, List.suffix_refl _, hnone, rfl⟩
    · obtain ⟨u, hu, hnone', htu⟩ := ih ht
      exact ⟨u, hu.trans (List.suffix_cons _ _), hnone', htu⟩
  | case3 c cs value rest hsome ih =>
    rw [Form.fill_of_some hsome] at ht
    obtain ⟨name, v, -, hv, rfl⟩ := Form.bound?_eq_some_iff.1 hsome
    obtain ⟨u, hu, hnone', htu⟩ := ih (suffix_of_suffix_append (hdollar _ v hv) ht)
    exact ⟨u, hu.trans (bound?_either_suffix hsome), hnone', htu⟩

theorem Separate.detached_fill (h : Separate params scope cs) : Detached scope (either.fill params cs) := by
  intro t ht
  obtain ⟨u, hu, hnone, rfl⟩ := exists_suffix_of_fill hdollar ht
  have hrest := h.suffix hu
  have hscope := Form.bound?_shadow_eq_none.1 (hrest.detached u (List.suffix_refl _))
  have hsuffix : u.dropWhile isNameChar <:+ '$' :: u := (List.dropWhile_suffix _).trans (List.suffix_cons _ _)
  -- the name behind the `$` is as it was, and so is what can be read behind the name
  obtain ⟨hname, hends⟩ := hrest.fill_name hnone
  have hread := (hrest.suffix hsuffix).interpolation?_fill hdollar (hrest.bound?_behind hnone)
  have hbound : interpolation.bound? scope (either.fill params (u.dropWhile isNameChar)) = _ := Form.bound?_map hread
  rw [hname, List.dropWhile_append_of_pos fun c hc => List.mem_takeWhile_imp hc,
    List.dropWhile_eq_self_iff.2 (List.takeWhile_eq_nil_iff.1 hends), hbound, hscope.2]
  rfl

end Scope

end NestedStyles.Reference

namespace NestedStyles

open Reference

/-- The text of a mixin's body with the parameters put in, and then the variables in scope, is the text with both put in
at once, a parameter coming before a variable of the same name. -/
theorem Run.substitute_params (run : Run) (values : ParamValues) (text : String)
    (hvalues : ∀ name value : String, values[name]? = some value → '$' ∉ value.toList)
    (hscope : ∀ name value : String, run.lookup name = some value → '$' ∉ value.toList)
    (h : Separate (values[·]?) run.lookup text.toList) :
    run.substitute (Reference.substitute (values[·]?) text) =
      Reference.substitute (shadow (values[·]?) run.lookup) text := by
  have hboth : ∀ name value, shadow (values[·]?) run.lookup name = some value → '$' ∉ value.toList := by
    intro name value hvalue
    rcases Option.or_eq_some_iff.1 hvalue with hvalue | ⟨-, hvalue⟩
    · exact hvalues name value hvalue
    · exact hscope name value hvalue
  have hdetached : Detached (values[·]?) text.toList := by
    intro t ht
    exact (Form.bound?_shadow_eq_none.1 (h.detached t ht)).1
  have hfilled : Detached run.lookup (String.ofList (either.fill (values[·]?) text.toList)).toList := by
    rw [String.toList_ofList]
    exact h.detached_fill hvalues
  rw [substitute_eq_fill_either hboth h.detached, substitute_eq_fill_either hvalues hdetached]
  show Reference.substitute run.lookup _ = _
  rw [substitute_eq_fill_either hscope hfilled, String.toList_ofList, h.fill_fill hvalues]

/-- A parameter that stands for a letter. -/
def lettered : ParamValues := (∅ : ParamValues).insert "p" "x"

/-- A variable that stands for a number. -/
def numbered : Run := ({} : Run).bind "s" { value := "1" }

theorem eq_of_lettered {name value : String} (h : lettered[name]? = some value) : value = "x" := by
  rw [lettered, Std.TreeMap.getElem?_insert] at h
  split at h
  · exact (Option.some.inj h).symm
  · simp at h

theorem eq_of_numbered {name value : String} (h : numbered.lookup name = some value) : value = "1" := by
  rw [numbered, Run.lookup, Run.bind, Std.TreeMap.getElem?_insert] at h
  split at h
  · simpa using h.symm
  · simp at h

/-- References of both forms, with one of a parameter right before one of a variable. -/
theorem substitute_lettered :
    numbered.substitute (Reference.substitute (lettered[·]?) "$p$s #\x7b $p \x7d#\x7b$s\x7d") =
        Reference.substitute (shadow (lettered[·]?) numbered.lookup) "$p$s #\x7b $p \x7d#\x7b$s\x7d" ∧
      numbered.substitute (Reference.substitute (lettered[·]?) "$p$s #\x7b $p \x7d#\x7b$s\x7d") = "x1 x1" := by
  refine ⟨Run.substitute_params numbered lettered _ ?_ ?_ ⟨?_, ?_, ?_, ?_⟩, by decide +kernel⟩
  · intro name value h
    rw [eq_of_lettered h]
    decide
  · intro name value h
    rw [eq_of_numbered h]
    decide
  · rw [Detached, forall_suffix_iff]
    decide +kernel
  · rw [forall_suffix_iff]
    decide +kernel
  · intro name value h
    rw [eq_of_lettered h]
    decide
  · intro _ name value h
    rw [eq_of_lettered h]
    exact ⟨⟨'x', by decide, by decide⟩, by decide, by decide⟩

/-- A reference to a parameter right after one to a variable becomes a part of it. -/
theorem substitute_joined :
    numbered.substitute (Reference.substitute (lettered[·]?) "$s$p") = "$sx" ∧
      Reference.substitute (shadow (lettered[·]?) numbered.lookup) "$s$p" = "1x" ∧
      (∀ name value : String, lettered[name]? = some value → '$' ∉ value.toList) ∧
      (∀ name value : String, numbered.lookup name = some value → '$' ∉ value.toList) := by
  refine ⟨by decide +kernel, by decide +kernel, ?_, ?_⟩
  · intro name value h
    rw [eq_of_lettered h]
    decide
  · intro name value h
    rw [eq_of_numbered h]
    decide

end NestedStyles
