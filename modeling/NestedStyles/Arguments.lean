import Std.Data.TreeMap.Basic
import NestedStyles.Event
import NestedStyles.Reference
import NestedStyles.Text.Alphanumeric
import NestedStyles.Text.Pieces

/-!
# Arguments of an inclusion

Positional arguments fill the parameters of a mixin in order, and keyword arguments `$name: value` those they name.
A parameter that gets neither takes its default, which may refer to the parameters before it.
-/

namespace NestedStyles

open Reference Text

/-- What parameters stand for in the body of a mixin. -/
abbrev ParamValues := Std.TreeMap String String

namespace Arguments

def isKeywordChar (c : Char) : Bool := isAlphanumeric c || c = '-' || c = '_'

/-- The name and the value of a keyword argument. -/
def keyword? (arg : String) : Option (String × String) :=
  match trim arg.toList with
  | '$' :: rest =>
    match cut? [':'] rest with
    | none => none
    | some (name, value) =>
      let name := trim name
      if name ≠ [] ∧ name.all isKeywordChar then some (String.ofList name, String.ofList (trim value)) else none
  | _ => none

/-- The values of the positional arguments, trimmed and substituted. -/
def positional (scope : Lookup) (args : List String) : List String :=
  (args.filter fun arg => (keyword? arg).isNone).map fun arg => substitute scope (String.ofList (trim arg.toList))

/-- The values of the keyword arguments, substituted, the last one for a name being the one that counts. -/
def keywords (scope : Lookup) (args : List String) : ParamValues :=
  (args.filterMap keyword?).foldl (fun values (name, value) => values.insert name (substitute scope value)) ∅

/-- The state of filling parameters: the arguments still left, the values found, and what there is to report. -/
structure Filling where
  positional : List String
  keywords : ParamValues
  values : ParamValues := ∅
  events : List Event := []

/-- Fills one parameter. -/
def Filling.fill (scope : Lookup) (mixin : String) (filling : Filling) (param : Param) : Filling :=
  match filling.positional with
  | value :: rest => { filling with positional := rest, values := filling.values.insert param.name value }
  | [] =>
    match filling.keywords[param.name]? with
    | some value =>
      { filling with
        keywords := filling.keywords.erase param.name
        values := filling.values.insert param.name value }
    | none =>
      match param.fallback with
      | some fallback =>
        let value := substitute scope (substitute (filling.values[·]?) fallback)
        { filling with values := filling.values.insert param.name value }
      | none => { filling with events := filling.events ++ [.unboundParam mixin param.name] }

/-- The values of the parameters of a mixin for some arguments, and what there is to report about them. -/
def bind (scope : Lookup) (mixin : String) (params : List Param) (args : List String) : ParamValues × List Event :=
  let given := positional scope args
  let surplus := if params.length < given.length then
      [Event.surplusArguments mixin given.length params.length]
    else []
  let filled := params.foldl (Filling.fill scope mixin) { positional := given, keywords := keywords scope args }
  (filled.values, surplus ++ filled.events ++ filled.keywords.keys.map (.unknownArgument mixin))

end Arguments

end NestedStyles
