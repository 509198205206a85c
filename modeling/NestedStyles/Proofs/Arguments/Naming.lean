import NestedStyles.Arguments
import NestedStyles.Proofs.Reference.Filling

/-!
# Names of keyword arguments

A keyword argument may have any letters and numbers in its name, but a reference ends at the first character that is not
one of `[A-Za-z0-9_-]`. A parameter whose name stays within these can be referred to. For any other name that a keyword
argument can have, its reference is read as one to a shorter name, or as no reference at all, so that what the parameter
is bound to does not matter (`substitute_keyword`).
-/

namespace NestedStyles.Arguments

open Reference Text

variable {arg name value : String}

theorem keyword?_eq_some (h : keyword? arg = some (name, value)) :
    name.toList ≠ [] ∧ ∀ c ∈ name.toList, isKeywordChar c = true := by
  unfold keyword? at h
  split at h
  · split at h
    · simp at h
    · next cs ds _ =>
      by_cases hvalid : trim cs ≠ [] ∧ (trim cs).all isKeywordChar
      · obtain ⟨rfl, -⟩ : String.ofList (trim cs) = name ∧ _ := by simpa [hvalid] using h
        rw [String.toList_ofList]
        exact ⟨hvalid.1, List.all_eq_true.1 hvalid.2⟩
      · rw [if_neg hvalid] at h
        simp at h
  · simp at h

theorem isKeywordChar_ne {c : Char} (h : isKeywordChar c = true) : c ≠ '$' ∧ c ≠ '#' := by
  constructor
  · rintro rfl
    exact absurd h (by decide +kernel)
  · rintro rfl
    exact absurd h (by decide +kernel)

/-- The scope in which just one name is bound. -/
def only (name value : String) : Lookup := fun other => if other = name then some value else none

/-- The name that is read stops before a character of another kind. -/
theorem ne_of_plain? {found rest : List Char} (hname : ∃ c ∈ name.toList, isNameChar c = false)
    (h : plain? ('$' :: name.toList) = some (found, rest)) : String.ofList found ≠ name := by
  rintro rfl
  obtain ⟨c, hc, hchar⟩ := hname
  rw [String.toList_ofList] at hc h
  have hall : ∀ c ∈ found, isNameChar c = true := by
    have hread : name? found = some (found, rest) := h
    unfold name? at hread
    split at hread
    · simp at hread
    · intro c hc
      obtain ⟨hfound, -⟩ := Prod.mk.inj (Option.some.inj hread)
      rw [← hfound] at hc
      exact List.mem_takeWhile_imp hc
  simp [hall c hc] at hchar

/-- The binding of a name with other characters is not looked up. -/
theorem bound?_plain_congr {lookup lookup' : Lookup} (hname : ∃ c ∈ name.toList, isNameChar c = false)
    (h : ∀ other, other ≠ name → lookup other = lookup' other) :
    plain.bound? lookup ('$' :: name.toList) = plain.bound? lookup' ('$' :: name.toList) := by
  rcases hread : plain.read? ('$' :: name.toList) with _ | ⟨found, rest⟩
  · rw [Form.bound?_of_read?_none hread, Form.bound?_of_read?_none hread]
  · have heq := h (String.ofList found) (ne_of_plain? hname hread)
    simp only [Form.bound?, hread, Option.bind_eq_bind, Option.bind_some, heq]

/-- Whether the parameter that a keyword argument names can be referred to depends on the characters of the name. If
they are those of references, the reference gives what the parameter is bound to. Otherwise it gives the same whatever
that is, and stays as it is written when no other name is bound. -/
theorem substitute_keyword (h : keyword? arg = some (name, value)) :
    ((∀ c ∈ name.toList, isNameChar c = true) →
      ∀ (lookup : Lookup) (v : String), lookup name = some v → substitute lookup ("$" ++ name) = v) ∧
    ((∃ c ∈ name.toList, isNameChar c = false) →
      (∀ lookup lookup' : Lookup, (∀ other, other ≠ name → lookup other = lookup' other) →
        substitute lookup ("$" ++ name) = substitute lookup' ("$" ++ name)) ∧
      ∀ v, substitute (only name v) ("$" ++ name) = "$" ++ name) := by
  obtain ⟨hne, hkeyword⟩ := keyword?_eq_some h
  have hchars : ∀ c ∈ name.toList, c ≠ '$' ∧ c ≠ '#' := fun c hc => isKeywordChar_ne (hkeyword c hc)
  constructor
  · intro hall lookup v hv
    have hname : Referable name := ⟨hne, hall⟩
    exact hname.substitute_plain hv
  · intro hname
    have hcongr : ∀ lookup lookup' : Lookup, (∀ other, other ≠ name → lookup other = lookup' other) →
        substitute lookup ("$" ++ name) = substitute lookup' ("$" ++ name) := by
      intro lookup lookup' hagree
      rw [substitute_dollar lookup hchars, substitute_dollar lookup' hchars, bound?_plain_congr hname hagree]
    refine ⟨hcongr, ?_⟩
    intro v
    have hnothing : ∀ cs, plain.bound? (fun _ => none) cs = none := by
      intro cs
      rcases hread : plain.read? cs with _ | ⟨found, rest⟩
      · exact Form.bound?_of_read?_none hread
      · simp [Form.bound?, hread]
    rw [hcongr (only name v) (fun _ => none) fun other hother => if_neg hother, substitute_dollar _ hchars, hnothing]
    rfl

/-- A name that can be referred to, and one with a letter that references do not have. -/
theorem substitute_keyword_lettered :
    keyword? " $in-set_2 : 1px:2 " = some ("in-set_2", "1px:2") ∧
      substitute (only "in-set_2" "$a") "$in-set_2" = "$a" ∧
      keyword? "$größe: 1px" = some ("größe", "1px") ∧
      substitute (only "größe" "1px") "$größe" = "$größe" := by
  have hplain : keyword? " $in-set_2 : 1px:2 " = some ("in-set_2", "1px:2") := by decide +kernel
  have hlettered : keyword? "$größe: 1px" = some ("größe", "1px") := by decide +kernel
  have hchars : ∀ c ∈ "in-set_2".toList, isNameChar c = true := List.all_eq_true.1 (by decide)
  have hchar : ∃ c ∈ "größe".toList, isNameChar c = false := ⟨'ö', by decide, by decide⟩
  exact ⟨hplain, (substitute_keyword hplain).1 hchars (only "in-set_2" "$a") "$a" rfl, hlettered,
    ((substitute_keyword hlettered).2 hchar).2 "1px"⟩

/-- An argument that names a parameter, which the body of the mixin cannot refer to. -/
theorem substitute_keyword_unread :
    keyword? "$é: red" = some ("é", "red") ∧ only "é" "red" "é" = some "red" ∧
      substitute (only "é" "red") ("$" ++ "é") = "$é" ∧ "$é" ≠ "red" := by
  decide +kernel

end NestedStyles.Arguments
