import NestedStyles.Proofs.Reference.Filling
import NestedStyles.Proofs.Text.Cutting
import NestedStyles.Proofs.Walk.Settling

/-!
# Ways to refer to a variable

A variable can be put into a declaration as a plain reference, as an interpolation, and as the argument of a mixin whose
parameter the declaration refers to. The plain reference gives its value as it is. The value of an interpolation is read
once more for plain references, and that of an argument for references of both forms when the copied declaration is
visited. The three agree if the value has no reference to a bound name in it.
-/

namespace NestedStyles

namespace Reference

open Text

variable {lookup : Lookup} {name value : String} {rest : List Char}

theorem substitute_of_not_mem {text : String} (h : '$' ∉ text.toList) : substitute lookup text = text := if_neg h

/-- No reference to a bound name starts anywhere in a text. -/
def Free (lookup : Lookup) (cs : List Char) : Prop := ∀ t, t <:+ cs → plain.bound? lookup t = none

theorem substitute_of_free {text : String} (h : Free lookup text.toList) : substitute lookup text = text := by
  have hinterpolation : interpolation.fill lookup text.toList = text.toList := by
    apply Form.fill_eq_self
    intro t ht
    rcases hbound : interpolation.bound? lookup t with _ | ⟨found, rest⟩
    · rfl
    · obtain ⟨name, v, hread, hv, -⟩ := Form.bound?_eq_some_iff.1 hbound
      obtain ⟨u, rest', hu, hplain, -⟩ := exists_plain_of_interpolation hread
      have hbound' : plain.bound? lookup u = some (v.toList, rest') :=
        Form.bound?_eq_some_iff.2 ⟨name, v, hplain, hv, rfl⟩
      simp [h u (hu.trans ht)] at hbound'
  rw [substitute_eq_fill_fill, hinterpolation, plain.fill_eq_self h, String.ofList_toList]

namespace Referable

/-- The value of an interpolation is read again. -/
theorem substitute_interpolation (h : Referable name) (hvalue : lookup name = some value) :
    substitute lookup ("#\x7b$" ++ name ++ "\x7d") = String.ofList (plain.fill lookup value.toList) := by
  have hlist : ("#\x7b$" ++ name ++ "\x7d").toList = '#' :: '\x7b' :: '$' :: (name.toList ++ ['\x7d']) := by simp
  have hbound : interpolation.bound? lookup ('#' :: '\x7b' :: '$' :: (name.toList ++ ['\x7d'])) =
      some (value.toList, []) := by
    refine Form.bound?_eq_some_iff.2 ⟨name.toList, value, ?_, by rwa [String.ofList_toList], rfl⟩
    have hread : plain? ('$' :: (name.toList ++ ['\x7d'])) = some (name.toList, ['\x7d']) := h.name?_append rfl
    show interpolation? ('#' :: '\x7b' :: '$' :: (name.toList ++ ['\x7d'])) = _
    rw [interpolation?_eq, trimStart, List.dropWhile_cons_of_neg (by decide), hread]
    rfl
  rw [substitute, if_pos (by simp), hlist, Form.fill_of_some hbound, Form.fill_nil, List.append_nil]

/-! ### As an argument -/

theorem trim_eq (h : Referable name) : trim ("$" ++ name).toList = '$' :: name.toList := by
  have hlist : ("$" ++ name).toList = '$' :: name.toList := by simp
  rw [hlist]
  apply trim_eq_self
  intro c hc
  rcases List.mem_cons.1 hc with rfl | hc
  · decide
  · exact isBlank_of_isNameChar (h.all_name c hc)

theorem keyword?_eq_none (h : Referable name) : Arguments.keyword? ("$" ++ name) = none := by
  have hcut : cut? [':'] name.toList = none := by
    apply cut?_eq_none
    intro hmem
    exact absurd (h.all_name ':' hmem) (by decide)
  rw [Arguments.keyword?, h.trim_eq]
  simp only [hcut]

theorem positional_eq (h : Referable name) (hvalue : lookup name = some value) :
    Arguments.positional lookup ["$" ++ name] = [value] := by
  have htext : String.ofList (trim ("$" ++ name).toList) = "$" ++ name := by
    rw [h.trim_eq, ← String.toList_inj]
    simp
  rw [Arguments.positional, List.filter_cons_of_pos (by rw [h.keyword?_eq_none]; rfl), List.filter_nil,
    List.map_singleton, htext, h.substitute_plain hvalue]

/-- The parameter stands for the value itself. -/
theorem bind_eq (h : Referable name) (hvalue : lookup name = some value) (mixin : String) (param : Param) :
    (Arguments.bind lookup mixin [param] ["$" ++ name]).1 = (∅ : ParamValues).insert param.name value := by
  rw [Arguments.bind, h.positional_eq hvalue]
  rfl

end Referable

end Reference

open Document Semantics Reference

namespace Semantics.Env

variable {env : Env} {scope : Lookup} {n : Nat} {fs body : List Fragment}

theorem eval_declaration (property value : String) {rest : Evaluated n} (hrest : env.eval scope n fs = .ok rest) :
    ∃ out, env.eval scope n (⟨.declaration property value, []⟩ :: fs) = .ok out ∧
      out.fragments = ⟨.declaration (substitute scope property) (substitute scope value), []⟩ :: rest.fragments := by
  obtain ⟨out, hout, -, hfragments⟩ := eval_cons_done (f := ⟨.declaration property value, []⟩) rfl eval_nil hrest
  exact ⟨out, hout, hfragments⟩

theorem eval_inclusion {name : String} {args : List String} (hbody : env.instance? scope name args = some body)
    (hlimit : n < env.limit) {rest : Evaluated (n + 1)} (hrest : env.eval scope (n + 1) (body ++ fs) = .ok rest) :
    ∃ out, env.eval scope n (⟨.inclusion name args, []⟩ :: fs) = .ok out ∧ out.fragments = rest.fragments := by
  have hreact : env.react scope n ⟨.inclusion name args, []⟩ =
      .ok { scope, expansions := n + 1, kept := none, below := [], body } := by
    rw [react, hbody]
    simp only
    rw [if_neg (by omega)]
  obtain ⟨out, hout, -, hfragments⟩ := eval_cons_done hreact eval_nil hrest
  exact ⟨out, hout, hfragments⟩

end Semantics.Env

namespace Pass

/-- A declaration for each of some values. -/
def declared (property : String) (values : List String) : List Fragment :=
  values.map fun value => ⟨.declaration property value, []⟩

/-- A variable referred to in a declaration in both forms, and as the argument of a mixin. -/
def referring (property name mixin : String) : List Fragment :=
  declared property ["$" ++ name, "#\x7b$" ++ name ++ "\x7d"] ++ [⟨.inclusion mixin ["$" ++ name], []⟩]

/-- A plain reference gives the value of a variable as it is. The value of an interpolation is read again for plain
references, and that of an argument for references of both forms, so that all three are the value if no reference to a
bound name is in it. -/
theorem evaluate_referring (w : Workspace) (hwf : w.doc.WellFormed) (hpoints : w.run.insertionPoints.isEmpty = true)
    (hmixins : ∀ (name : String) (definition : Nat), w.run.mixins[name]? = some definition →
      definition < w.doc.next ∧ w.doc.isAttached definition = false)
    {directory : Option String} {property name value mixin label : String} {definition : Nat} {param : Param}
    (hroot : w.doc.fragment root = ⟨.stylesheet directory, referring property name mixin⟩)
    (hmixin : w.run.mixins[mixin]? = some definition)
    (hdefinition : w.doc.fragment definition = ⟨.mixin label [param], declared property ["$" ++ param.name]⟩)
    (hlimit : w.run.stats.mixinsExpanded < w.run.expansionLimit) (hproperty : '$' ∉ property.toList)
    (hname : Referable name) (hparam : Referable param.name) (hvalue : w.run.lookup name = some value) :
    ∃ w', evaluate root w = .ok false w' ∧
      w'.doc.fragment root = ⟨.stylesheet directory,
        declared property [value, String.ofList (plain.fill w.run.lookup value.toList), w.run.substitute value]⟩ ∧
      (Free w.run.lookup value.toList →
        w'.doc.fragment root = ⟨.stylesheet directory, declared property [value, value, value]⟩) := by
  rw [hwf.fragment_eq] at hroot hdefinition
  obtain ⟨hkind, hchildren⟩ := Fragment.mk.inj hroot
  obtain ⟨hkind', hchildren'⟩ := Fragment.mk.inj hdefinition
  have hinstance : w.env.instance? w.run.lookup mixin ["$" ++ name] = some (declared property [value]) := by
    have hbound : (fun key => ((∅ : ParamValues).insert param.name value)[key]?) param.name = some value := by simp
    simp only [Env.instance?, Workspace.env, hmixin, Option.map_some, hkind', hchildren', paramsOf,
      hname.bind_eq hvalue, declared, List.map_singleton, mapTextAll_eq_map, Fragment.mapText, Fragment.mapTextAll,
      Kind.mapText, substitute_of_not_mem hproperty, hparam.substitute_plain hbound]
  -- what evaluation by value gives, from the last declaration to the first
  have hnil : w.env.eval w.run.lookup (w.run.stats.mixinsExpanded + 1) [] = .ok _ := Env.eval_nil
  obtain ⟨copied, hcopied, hfragments₁⟩ := Env.eval_declaration property value hnil
  obtain ⟨included, hincluded, hfragments₂⟩ := Env.eval_inclusion hinstance hlimit hcopied
  obtain ⟨two, htwo, hfragments₃⟩ := Env.eval_declaration property ("#\x7b$" ++ name ++ "\x7d") hincluded
  obtain ⟨three, hthree, hfragments₄⟩ := Env.eval_declaration property ("$" ++ name) htwo
  rw [hfragments₃, hfragments₂, hfragments₁, substitute_of_not_mem hproperty, hname.substitute_plain hvalue,
    hname.substitute_interpolation hvalue] at hfragments₄
  rcases evaluate_root_cases hwf hkind hpoints hmixins with
    ⟨w', out, hok, hwf', hkept, hout, hfragments, -⟩ | ⟨e, w', -, herror⟩
  · rw [hchildren] at hout
    obtain rfl := Except.ok.inj (hthree.symm.trans hout)
    have hcontent : w'.doc.fragment root = ⟨.stylesheet directory,
        declared property [value, String.ofList (plain.fill w.run.lookup value.toList), w.run.substitute value]⟩ := by
      rw [hwf'.fragment_eq, hkept, hkind, hfragments, hfragments₄]
      rfl
    refine ⟨w', hok, hcontent, ?_⟩
    intro hfree
    have hsubstitute : w.run.substitute value = value := substitute_of_free hfree
    rw [hcontent, plain.fill_eq_self hfree, String.ofList_toList, hsubstitute]
  · rw [hchildren] at herror
    cases hthree.symm.trans herror

/-- A stylesheet of references to `$n`, and beside it a mixin for one of them. -/
def quotation : Document := (Document.instantiate
  ⟨#[{ kind := .stylesheet none, slots := #[1, 2, 3] }, { kind := .declaration "p" "$n", parent := some 0 },
     { kind := .declaration "p" "#\x7b$n\x7d", parent := some 0 },
     { kind := .inclusion "emit" ["$n"], parent := some 0 }]⟩
  ⟨.mixin "emit" [{ name := "x" }], declared "p" ["$x"]⟩).1

/-- The stylesheet with `$n` bound to a value, and `$m` to a number. -/
def quoting (value : String) : Workspace where
  doc := quotation
  run :=
    { scope := ((∅ : Scope).insert "m" { value := "1" }).insert "n" { value }
      mixins := Std.TreeMap.empty.insert "emit" 4
      expansionLimit := 1 }

/-- A value with references to an unbound name in it. -/
theorem evaluate_quoting : ∃ w', evaluate root (quoting "$k #\x7b$k\x7d") = .ok false w' ∧
    w'.doc.fragment root =
      ⟨.stylesheet none, declared "p" ["$k #\x7b$k\x7d", "$k #\x7b$k\x7d", "$k #\x7b$k\x7d"]⟩ := by
  have hwf : quotation.WellFormed := by
    apply WellFormed.instantiate
    refine (ofFragment_spec (f := ⟨.stylesheet none, referring "p" "n" "emit"⟩) ?_).1
    rfl
  have hmixins : ∀ (name : String) (definition : Nat),
      (quoting "$k #\x7b$k\x7d").run.mixins[name]? = some definition →
        definition < quotation.next ∧ quotation.isAttached definition = false := by
    intro name definition h
    rw [quoting, Std.TreeMap.getElem?_insert] at h
    split at h
    · obtain rfl := Option.some.inj h
      decide
    · simp at h
  have hroot : quotation.fragment root = ⟨.stylesheet none, referring "p" "n" "emit"⟩ := by decide +kernel
  have hemit : (quoting "$k #\x7b$k\x7d").run.mixins["emit"]? = some 4 := by decide +kernel
  have hdefinition : quotation.fragment 4 = ⟨.mixin "emit" [{ name := "x" }], declared "p" ["$x"]⟩ := by decide +kernel
  have hlookup : (quoting "$k #\x7b$k\x7d").run.lookup "n" = some "$k #\x7b$k\x7d" := by decide +kernel
  have hunbound : Free (quoting "$k #\x7b$k\x7d").run.lookup "$k #\x7b$k\x7d".toList := by
    intro t ht
    have hall : ∀ u ∈ "$k #\x7b$k\x7d".toList.tails,
        plain.bound? (quoting "$k #\x7b$k\x7d").run.lookup u = none := by decide +kernel
    exact hall t ((List.mem_tails _ _).2 ht)
  have hn : Referable "n" := ⟨by decide, List.all_eq_true.1 (by decide)⟩
  have hx : Referable "x" := ⟨by decide, List.all_eq_true.1 (by decide)⟩
  obtain ⟨w', hok, -, hfree⟩ := evaluate_referring (quoting "$k #\x7b$k\x7d") hwf rfl hmixins hroot hemit hdefinition
    (by decide) (by decide) hn hx hlookup
  exact ⟨w', hok, hfree hunbound⟩

/-- A value with a reference to a bound name in it. It is left alone only where the reference to the value is plain. -/
theorem evaluate_quoting_reference : (quoting "$m").run.lookup "n" = some "$m" ∧
    Outcome.read? (·.doc.fragment root) (evaluate root (quoting "$m")) =
      some ⟨.stylesheet none, declared "p" ["$m", "1", "1"]⟩ := by
  constructor
  · decide +kernel
  · decide +kernel

end Pass

end NestedStyles
