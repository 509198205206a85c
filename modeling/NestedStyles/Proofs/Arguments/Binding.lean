import Mathlib.Data.List.Induction
import Std.Data.TreeMap.Lemmas
import NestedStyles.Arguments

/-!
# Binding arguments

The parameters are filled one after the other, from a queue of positional arguments and a table of keyword arguments
that both shrink on the way. What a parameter gets depends only on what is left of the queue, on what the table says of
its name, and on the values found so far (`Filling.value?`). Hence only the order of the positional arguments and the
last value for each keyword matter (`Filling.Alike`). If the names of the parameters are different, nothing that a
parameter needs from the table has been taken before, and each parameter can be told apart from the others
(`Filled.fill`).
-/

namespace NestedStyles.Arguments

open Reference Text

/-- The positional arguments, as they are written. -/
def unnamed (args : List String) : List String := args.filter fun arg => (keyword? arg).isNone

/-- The value of the last keyword argument of the given name, as it is written. -/
def lastValue? (args : List String) (name : String) : Option String :=
  ((args.filterMap keyword?).filter fun k => k.1 = name).getLast?.map (·.2)

/-- The part of a lookup that is about the given names. -/
def among (names : List String) (lookup : Lookup) : Lookup := fun name => if name ∈ names then lookup name else none

variable {scope : Lookup} {mixin name : String} {args : List String} {params : List Param} {param : Param}

theorem positional_eq_map (scope : Lookup) (args : List String) : positional scope args =
    (unnamed args).map fun arg => substitute scope (String.ofList (trim arg.toList)) := rfl

theorem getElem?_positional (scope : Lookup) (args : List String) (i : Nat) :
    (positional scope args)[i]? =
      (unnamed args)[i]?.map fun arg => substitute scope (String.ofList (trim arg.toList)) := by
  rw [positional_eq_map, List.getElem?_map]

/-- Of several keyword arguments for one name the last one stays in the table. -/
theorem getElem?_keywords (scope : Lookup) (args : List String) (name : String) :
    (keywords scope args)[name]? = (lastValue? args name).map (substitute scope) := by
  unfold keywords lastValue?
  generalize args.filterMap keyword? = given
  induction given using List.reverseRecOn with
  | nil => simp
  | append_singleton given k ih =>
    rw [List.foldl_append, List.foldl_cons, List.foldl_nil, Std.TreeMap.getElem?_insert, List.filter_append]
    by_cases hname : k.1 = name
    · simp [hname]
    · simp [hname, ih]

theorem among_congr {names : List String} {lookup lookup' : Lookup}
    (h : ∀ name ∈ names, lookup name = lookup' name) : among names lookup = among names lookup' := by
  funext name
  unfold among
  by_cases hname : name ∈ names
  · rw [if_pos hname, if_pos hname, h name hname]
  · rw [if_neg hname, if_neg hname]

namespace Filling

variable {filling other : Filling}

/-- What a parameter gets when it is its turn. -/
def value? (scope : Lookup) (filling : Filling) (param : Param) : Option String :=
  filling.positional.head?.or (filling.keywords[param.name]?.or
    (param.fallback.map fun fallback => substitute scope (substitute (filling.values[·]?) fallback)))

/-! ### One parameter -/

theorem positional_fill (scope : Lookup) (mixin : String) (filling : Filling) (param : Param) :
    (filling.fill scope mixin param).positional = filling.positional.tail := by
  unfold fill
  cases filling.positional with
  | cons value rest => rfl
  | nil =>
    cases filling.keywords[param.name]? with
    | some value => rfl
    | none =>
      cases param.fallback with
      | some fallback => rfl
      | none => rfl

/-- At most the entry for the parameter itself is taken from the table. -/
theorem keywords_fill (scope : Lookup) (mixin : String) (filling : Filling) (h : name ≠ param.name) :
    (filling.fill scope mixin param).keywords[name]? = filling.keywords[name]? := by
  unfold fill
  cases filling.positional with
  | cons value rest => rfl
  | nil =>
    cases filling.keywords[param.name]? with
    | some value =>
      show (filling.keywords.erase param.name)[name]? = _
      rw [Std.TreeMap.getElem?_erase]
      simp [Ne.symm h]
    | none =>
      cases param.fallback with
      | some fallback => rfl
      | none => rfl

theorem values_fill (scope : Lookup) (mixin : String) (filling : Filling) (param : Param) (name : String) :
    (filling.fill scope mixin param).values[name]? =
      if name = param.name then (filling.value? scope param).or filling.values[name]? else filling.values[name]? := by
  have hinsert : ∀ value : String, (filling.values.insert param.name value)[name]? =
      if name = param.name then some value else filling.values[name]? := by
    intro value
    rw [Std.TreeMap.getElem?_insert]
    by_cases hname : name = param.name
    · simp [hname]
    · simp [hname, Ne.symm hname]
  unfold fill value?
  cases filling.positional with
  | cons value rest => exact hinsert value
  | nil =>
    cases filling.keywords[param.name]? with
    | some value => exact hinsert value
    | none =>
      cases param.fallback with
      | some fallback => exact hinsert _
      | none => simp

/-! ### What the order of the arguments does not change -/

/-- The two states say the same. Their tables may have come about in different ways. -/
structure Alike (filling other : Filling) : Prop where
  positional_eq : filling.positional = other.positional
  keywords_equiv : filling.keywords.Equiv other.keywords
  values_eq : filling.values = other.values
  events_eq : filling.events = other.events

theorem Alike.fill (h : Alike filling other) (scope : Lookup) (mixin : String) (param : Param) :
    Alike (filling.fill scope mixin param) (other.fill scope mixin param) := by
  obtain ⟨queue, table, values, events⟩ := filling
  obtain ⟨queue', table', values', events'⟩ := other
  obtain ⟨rfl, htable, rfl, rfl⟩ := h
  have hentry : table[param.name]? = table'[param.name]? := htable.getElem?_eq
  cases queue with
  | cons value rest => exact ⟨rfl, htable, rfl, rfl⟩
  | nil =>
    simp only [Filling.fill, hentry]
    cases table'[param.name]? with
    | some value => exact ⟨rfl, htable.erase param.name, rfl, rfl⟩
    | none =>
      cases param.fallback with
      | some fallback => exact ⟨rfl, htable, rfl, rfl⟩
      | none => exact ⟨rfl, htable, rfl, rfl⟩

theorem Alike.foldl_fill (h : Alike filling other) (scope : Lookup) (mixin : String) (params : List Param) :
    Alike (params.foldl (Filling.fill scope mixin) filling) (params.foldl (Filling.fill scope mixin) other) := by
  induction params generalizing filling other with
  | nil => exact h
  | cons param params ih => exact ih (h.fill scope mixin param)

end Filling

/-- The arguments count only by the positional ones and by the last value for each keyword. -/
theorem bind_congr (scope : Lookup) (mixin : String) (params : List Param) {args args' : List String}
    (hunnamed : unnamed args = unnamed args') (hvalues : ∀ name, lastValue? args name = lastValue? args' name) :
    bind scope mixin params args = bind scope mixin params args' := by
  have hqueue : positional scope args = positional scope args' := by
    rw [positional_eq_map, positional_eq_map, hunnamed]
  have hentries : ∀ name : String, (keywords scope args)[name]? = (keywords scope args')[name]? := by
    intro name
    rw [getElem?_keywords, getElem?_keywords, hvalues]
  have htable : (keywords scope args).Equiv (keywords scope args') :=
    Std.TreeMap.Equiv.of_forall_constGet?_eq hentries
  have hstart : Filling.Alike { positional := positional scope args, keywords := keywords scope args }
      { positional := positional scope args', keywords := keywords scope args' } := ⟨hqueue, htable, rfl, rfl⟩
  have hfilled := hstart.foldl_fill scope mixin params
  unfold bind
  simp only [hqueue] at hfilled ⊢
  rw [hfilled.values_eq, hfilled.events_eq, hfilled.keywords_equiv.keys_eq]

/-! ### What each parameter is bound to -/

/-- The state after some parameters have been filled, starting with the positional arguments `given` and the table
`table`. -/
structure Filled (scope : Lookup) (given : List String) (table : ParamValues) (params : List Param)
    (filling : Filling) : Prop where
  positional_eq : filling.positional = given.drop params.length
  keywords_eq : ∀ name, name ∉ params.map Param.name → filling.keywords[name]? = table[name]?
  unbound : ∀ name, name ∉ params.map Param.name → filling.values[name]? = none
  bound : ∀ (i : Nat) (param : Param), params[i]? = some param → filling.values[param.name]? =
    given[i]?.or (table[param.name]?.or (param.fallback.map fun fallback =>
      substitute scope (substitute (among ((params.take i).map Param.name) (filling.values[·]?)) fallback)))

variable {given : List String} {table : ParamValues} {filling : Filling}

/-- The values found so far are those of the parameters so far. -/
theorem Filled.among_values (h : Filled scope given table params filling) :
    among (params.map Param.name) (filling.values[·]?) = (filling.values[·]?) := by
  funext name
  unfold among
  by_cases hname : name ∈ params.map Param.name
  · rw [if_pos hname]
  · rw [if_neg hname, h.unbound name hname]

theorem Filled.value?_eq (h : Filled scope given table params filling) (hnew : param.name ∉ params.map Param.name) :
    filling.value? scope param =
      given[params.length]?.or (table[param.name]?.or (param.fallback.map fun fallback =>
        substitute scope (substitute (among (params.map Param.name) (filling.values[·]?)) fallback))) := by
  rw [Filling.value?, h.positional_eq, List.head?_drop, h.keywords_eq param.name hnew, h.among_values]

/-- One more parameter of a new name. The values of the others stay. -/
theorem Filled.fill (h : Filled scope given table params filling) (mixin : String)
    (hnew : param.name ∉ params.map Param.name) :
    Filled scope given table (params ++ [param]) (filling.fill scope mixin param) := by
  have hold : ∀ name ∈ params.map Param.name,
      (filling.fill scope mixin param).values[name]? = filling.values[name]? := by
    intro name hname
    have hne : name ≠ param.name := by
      intro heq
      exact hnew (heq ▸ hname)
    rw [Filling.values_fill, if_neg hne]
  constructor
  · rw [Filling.positional_fill, h.positional_eq, List.tail_drop]
    simp
  · intro name hname
    simp only [List.map_append, List.mem_append, List.map_singleton, List.mem_singleton, not_or] at hname
    rw [Filling.keywords_fill scope mixin filling hname.2, h.keywords_eq name hname.1]
  · intro name hname
    simp only [List.map_append, List.mem_append, List.map_singleton, List.mem_singleton, not_or] at hname
    rw [Filling.values_fill, if_neg hname.2, h.unbound name hname.1]
  · intro i found hfound
    by_cases hi : i < params.length
    · rw [List.getElem?_append_left hi] at hfound
      have hmem : found.name ∈ params.map Param.name := List.mem_map_of_mem (List.mem_of_getElem? hfound)
      have hbefore : among ((params.take i).map Param.name) ((filling.fill scope mixin param).values[·]?) =
          among ((params.take i).map Param.name) (filling.values[·]?) := by
        apply among_congr
        intro name hname
        obtain ⟨p, hp, rfl⟩ := List.mem_map.1 hname
        exact hold p.name (List.mem_map_of_mem (List.mem_of_mem_take hp))
      rw [hold found.name hmem, h.bound i found hfound, List.take_append_of_le_length (Nat.le_of_lt hi), hbefore]
    · -- the parameter that has just been filled
      have hlast : i = params.length ∧ param = found := by
        rw [List.getElem?_append_right (by omega), List.getElem?_singleton] at hfound
        split at hfound
        · next hzero => exact ⟨by omega, Option.some.inj hfound⟩
        · simp at hfound
      obtain ⟨rfl, rfl⟩ := hlast
      have hbefore : among (params.map Param.name) ((filling.fill scope mixin param).values[·]?) =
          among (params.map Param.name) (filling.values[·]?) := among_congr hold
      rw [Filling.values_fill, if_pos rfl, h.unbound param.name hnew, Option.or_none, h.value?_eq hnew,
        List.take_left, hbefore]

theorem filled_foldl (scope : Lookup) (mixin : String) (given : List String) (table : ParamValues)
    (hnodup : (params.map Param.name).Nodup) :
    Filled scope given table params
      (params.foldl (Filling.fill scope mixin) { positional := given, keywords := table }) := by
  induction params using List.reverseRecOn with
  | nil => exact ⟨rfl, fun _ _ => rfl, fun _ _ => rfl, fun i param h => by simp at h⟩
  | append_singleton params param ih =>
    rw [List.map_append, List.map_singleton, List.nodup_append] at hnodup
    have hnew : param.name ∉ params.map Param.name := by
      intro hmem
      exact hnodup.2.2 param.name hmem param.name List.mem_cons_self rfl
    rw [List.foldl_append]
    exact (ih hnodup.1).fill mixin hnew

/-- The arguments are used only by the order of the positional ones and by the last value for each keyword. If the
parameters have different names, each one is bound to the positional argument at its place, else to the value of its
keyword, else to its default with the parameters before it and then the scope put in. Nothing else is bound. -/
theorem bind_determined (scope : Lookup) (mixin : String) (params : List Param) :
    (∀ args args', unnamed args = unnamed args' → (∀ name, lastValue? args name = lastValue? args' name) →
      bind scope mixin params args = bind scope mixin params args') ∧
    ((params.map Param.name).Nodup → ∀ args values events, bind scope mixin params args = (values, events) →
      (∀ (i : Nat) (param : Param), params[i]? = some param → values[param.name]? =
        ((unnamed args)[i]?.map fun arg => substitute scope (String.ofList (trim arg.toList))).or
          (((lastValue? args param.name).map (substitute scope)).or
            (param.fallback.map fun fallback => substitute scope
              (substitute (among ((params.take i).map Param.name) (values[·]?)) fallback)))) ∧
      ∀ name, name ∉ params.map Param.name → values[name]? = none) := by
  constructor
  · intro args args' hunnamed hvalues
    exact bind_congr scope mixin params hunnamed hvalues
  · intro hnodup args values events hbind
    have hfilled := filled_foldl scope mixin (positional scope args) (keywords scope args) hnodup
    obtain rfl : (params.foldl (Filling.fill scope mixin)
        { positional := positional scope args, keywords := keywords scope args }).values = values :=
      congrArg Prod.fst hbind
    refine ⟨?_, hfilled.unbound⟩
    intro i param hparam
    rw [← getElem?_positional, ← getElem?_keywords]
    exact hfilled.bound i param hparam

/-- A scope with one variable. -/
def sized : Lookup := fun name => if name = "s" then some "9" else none

/-- Parameters of a mixin. The default refers to two parameters before it and to the variable. -/
def framing : List Param :=
  [{ name := "a" }, { name := "d" }, { name := "b", fallback := some "$a $d #\x7b$s\x7d" }, { name := "c" }]

/-- A repeated keyword, one for no parameter, and one for a parameter that is filled by position. -/
def framed : List String := ["$c: 1", "$a: 0", " 2 ", "$c: $s", "$z: 3"]

/-- The same keywords and positional argument in another order, with other values that do not count. -/
def reframed : List String := ["$z: 3", "$a: 7", " 2 ", "$c:$s", "$a:0"]

/-- A parameter that is left unbound is not put into the default of a later one. -/
theorem bind_framed :
    bind sized "frame" framing framed = bind sized "frame" framing reframed ∧
      (bind sized "frame" framing framed).1["a"]? = some "2" ∧
      (bind sized "frame" framing framed).1["d"]? = none ∧
      (bind sized "frame" framing framed).1["b"]? = some "2 $d 9" ∧
      (bind sized "frame" framing framed).1["c"]? = some "9" ∧
      (bind sized "frame" framing framed).1["z"]? = none := by
  obtain ⟨horder, hbound⟩ := bind_determined sized "frame" framing
  have hnodup : (framing.map Param.name).Nodup := by decide
  obtain ⟨hvalues, hothers⟩ := hbound hnodup framed (bind sized "frame" framing framed).1
    (bind sized "frame" framing framed).2 rfl
  have ha : (bind sized "frame" framing framed).1["a"]? = some "2" := (hvalues 0 _ rfl).trans (by decide +kernel)
  have hd : (bind sized "frame" framing framed).1["d"]? = none := (hvalues 1 _ rfl).trans (by decide +kernel)
  refine ⟨horder _ _ (by decide +kernel) ?_, ha, hd, (hvalues 2 _ rfl).trans ?_, ?_, hothers "z" (by decide)⟩
  · intro name
    have hframed : framed.filterMap keyword? = [("c", "1"), ("a", "0"), ("c", "$s"), ("z", "3")] := by decide +kernel
    have hreframed : reframed.filterMap keyword? = [("z", "3"), ("a", "7"), ("c", "$s"), ("a", "0")] := by
      decide +kernel
    unfold lastValue?
    rw [hframed, hreframed]
    by_cases ha : "a" = name
    · subst ha
      rfl
    by_cases hc : "c" = name
    · subst hc
      rfl
    simp [ha, hc]
  · have hnames : (framing.take 2).map Param.name = ["a", "d"] := rfl
    have hbefore : among ["a", "d"] ((bind sized "frame" framing framed).1[·]?) =
        among ["a", "d"] fun name => if name = "a" then some "2" else none := by
      apply among_congr
      intro name hname
      simp only [List.mem_cons, List.not_mem_nil, or_false] at hname
      rcases hname with rfl | rfl
      · exact ha
      · exact hd
    rw [hnames, hbefore]
    decide +kernel
  · exact (hvalues 3 _ rfl).trans (by decide +kernel)

end NestedStyles.Arguments
