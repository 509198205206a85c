import NestedStyles.Error
import NestedStyles.Proofs.Document.Content
import NestedStyles.Walk.Visit

/-!
# The meaning of evaluation

Evaluation by value, without node numbers, links or insertion points: a list of fragments is read from left to right in
a scope, with a count of the mixins expanded so far. The fragment at the head reacts by its kind (`Env.react`). It is
kept or leaves, it may extend the scope of what follows it, and it may put a body in front of what follows it. What is
below it is evaluated in the scope that it leaves behind and does not change that scope, and it is evaluated also if
the fragment itself leaves. Evaluation ends since an expansion uses up one of the expansions allowed, and every other
reaction leaves fewer nodes to read.
-/

namespace NestedStyles

open Reference (Lookup)

namespace Semantics

/-- What evaluation depends on beside the fragments, the scope and the count of expansions. -/
structure Env where
  /-- The parameters and the body of a mixin. -/
  mixin? : String → Option (List Param × List Fragment)
  /-- Whether a condition holds. -/
  holds : String → Bool
  /-- Whether including an unknown mixin is an error. -/
  strict : Bool
  /-- How many mixins may be expanded. -/
  limit : Nat

/-- A scope with one more name bound. -/
def extend (scope : Lookup) (name value : String) : Lookup :=
  fun other => if other = name then some value else scope other

/-- How a fragment at the head of a list reacts. -/
structure Reaction where
  /-- The scope of what is below and behind it. -/
  scope : Lookup
  /-- The number of expansions so far. -/
  expansions : Nat
  /-- The kind with which it is kept, if it is. -/
  kept : Option Kind
  /-- What is below it. -/
  below : List Fragment
  /-- What is read in its place, before what follows it. -/
  body : List Fragment

namespace Env

/-- The body of the first branch whose condition, if it has one, holds. -/
def chosen (env : Env) (scope : Lookup) : List Fragment → List Fragment
  | [] => []
  | ⟨.branch none, body⟩ :: _ => body
  | ⟨.branch (some condition), body⟩ :: rest =>
    if env.holds (Reference.substitute scope condition) then body else env.chosen scope rest
  | _ :: rest => env.chosen scope rest

/-- The body of a mixin with the parameters put in, for some arguments. -/
def instance? (env : Env) (scope : Lookup) (name : String) (args : List String) : Option (List Fragment) :=
  (env.mixin? name).map fun (params, body) =>
    Fragment.mapTextAll (Reference.substitute ((Arguments.bind scope name params args).1[·]?)) body

def react (env : Env) (scope : Lookup) (expansions : Nat) : Fragment → Except CompileError Reaction
  | ⟨.rule selector, below⟩ =>
    .ok { scope, expansions, kept := some (.rule (Reference.substitute scope selector)), below, body := [] }
  | ⟨.declaration property value, below⟩ =>
    let substitute := Reference.substitute scope
    .ok { scope, expansions, kept := some (.declaration (substitute property) (substitute value)), below, body := [] }
  | ⟨.assignment name value guarded, below⟩ =>
    let scope := if guarded && (scope name).isSome then scope else extend scope name (Reference.substitute scope value)
    .ok { scope, expansions, kept := none, below, body := [] }
  | ⟨.inclusion name args, below⟩ =>
    match env.instance? scope name args with
    | none =>
      if env.strict then .error (.unknownMixin name)
      else .ok { scope, expansions, kept := none, below, body := [] }
    | some body =>
      if env.limit < expansions + 1 then .error (.expansionLimit env.limit)
      else .ok { scope, expansions := expansions + 1, kept := none, below, body }
  | ⟨.conditional, branches⟩ =>
    .ok { scope, expansions, kept := none, below := [], body := env.chosen scope branches }
  | ⟨kind, below⟩ => .ok { scope, expansions, kept := some kind, below, body := [] }

/-! ### Reactions use something up -/

theorem sizeAll_chosen_le (env : Env) (scope : Lookup) (branches : List Fragment) :
    Fragment.sizeAll (env.chosen scope branches) ≤ Fragment.sizeAll branches := by
  induction branches with
  | nil => exact Nat.le_refl _
  | cons f rest ih =>
    obtain ⟨kind, below⟩ := f
    have hsize : Fragment.size ⟨kind, below⟩ = Fragment.sizeAll below + 1 := rfl
    have hskip : Fragment.sizeAll (env.chosen scope rest) ≤ Fragment.sizeAll (⟨kind, below⟩ :: rest) := by
      rw [Fragment.sizeAll_cons]
      omega
    have htake : Fragment.sizeAll below ≤ Fragment.sizeAll (⟨kind, below⟩ :: rest) := by
      rw [Fragment.sizeAll_cons, hsize]
      omega
    cases kind with
    | branch condition =>
      cases condition with
      | none => exact htake
      | some condition =>
        rw [chosen]
        split
        · exact htake
        · exact hskip
    | _ => exact hskip

/-- A reaction is an expansion within the limit, or it leaves fewer nodes to read. -/
theorem react_cases {env : Env} {scope : Lookup} {n : Nat} {f : Fragment} {r : Reaction}
    (h : env.react scope n f = .ok r) :
    r.expansions = n + 1 ∧ n < env.limit ∨
      r.expansions = n ∧ Fragment.sizeAll r.below + Fragment.sizeAll r.body < f.size := by
  obtain ⟨kind, below⟩ := f
  have hsize : Fragment.size ⟨kind, below⟩ = Fragment.sizeAll below + 1 := rfl
  rw [hsize]
  have hplain : ∀ {scope : Lookup} {kept : Option Kind},
      Except.ok (ε := CompileError) (Reaction.mk scope n kept below []) = .ok r →
        r.expansions = n ∧ Fragment.sizeAll r.below + Fragment.sizeAll r.body < Fragment.sizeAll below + 1 := by
    intro scope kept h
    obtain rfl := Except.ok.inj h
    exact ⟨rfl, by simp⟩
  cases kind with
  | inclusion name args =>
    rw [react] at h
    split at h
    · split at h
      · simp at h
      · exact Or.inr (hplain h)
    · split at h
      · simp at h
      · next hlimit =>
        obtain rfl := Except.ok.inj h
        exact Or.inl ⟨rfl, by omega⟩
  | conditional =>
    rw [react] at h
    obtain rfl := Except.ok.inj h
    have := env.sizeAll_chosen_le scope below
    exact Or.inr ⟨rfl, by simp only [Fragment.sizeAll_nil]; omega⟩
  | _ => exact Or.inr (hplain h)

/-- A fragment is refused only for what the stylesheet says. -/
theorem react_error {env : Env} {scope : Lookup} {n : Nat} {f : Fragment} {e : CompileError}
    (h : env.react scope n f = .error e) : e.isInternal = false := by
  obtain ⟨kind, below⟩ := f
  cases kind with
  | inclusion name args =>
    rw [react] at h
    split at h
    · split at h
      · obtain rfl := Except.error.inj h
        rfl
      · simp at h
    · split at h
      · obtain rfl := Except.error.inj h
        rfl
      · simp at h
  | _ => simp [react] at h

end Env

/-- What evaluation comes to, when it started with the given number of expansions. -/
structure Evaluated (before : Nat) where
  fragments : List Fragment
  expansions : Nat
  before_le : before ≤ expansions

theorem Env.react_expansions_le {env : Env} {scope : Lookup} {n : Nat} {f : Fragment} {r : Reaction}
    (h : env.react scope n f = .ok r) : n ≤ r.expansions := by
  rcases Env.react_cases h with ⟨h, _⟩ | ⟨h, _⟩ <;> omega

/-- Evaluates a list of fragments in a scope, after the given number of expansions. -/
def Env.eval (env : Env) (scope : Lookup) (expansions : Nat) :
    (fs : List Fragment) → Except CompileError (Evaluated expansions)
  | [] => .ok ⟨[], expansions, Nat.le_refl _⟩
  | f :: fs =>
    match h : env.react scope expansions f with
    | .error e => .error e
    | .ok r =>
      match env.eval r.scope r.expansions r.below with
      | .error e => .error e
      | .ok inner =>
        match env.eval r.scope inner.expansions (r.body ++ fs) with
        | .error e => .error e
        | .ok rest =>
          .ok ⟨(r.kept.map (⟨·, inner.fragments⟩)).toList ++ rest.fragments, rest.expansions,
            Nat.le_trans (Env.react_expansions_le h) (Nat.le_trans inner.before_le rest.before_le)⟩
termination_by fs => (env.limit - expansions, Fragment.sizeAll fs)
decreasing_by
  · rcases Env.react_cases h with ⟨hr, hlimit⟩ | ⟨hr, hsize⟩
    · exact Prod.Lex.left _ _ (by omega)
    · rw [hr]
      exact Prod.Lex.right _ (by rw [Fragment.sizeAll_cons]; omega)
  · have hle := inner.before_le
    rcases Env.react_cases h with ⟨hr, hlimit⟩ | ⟨hr, hsize⟩
    · exact Prod.Lex.left _ _ (by omega)
    · rcases Nat.eq_or_lt_of_le (show env.limit - inner.expansions ≤ env.limit - expansions by omega) with heq | hlt
      · rw [heq]
        exact Prod.Lex.right _ (by rw [Fragment.sizeAll_append, Fragment.sizeAll_cons]; omega)
      · exact Prod.Lex.left _ _ hlt

end Semantics

end NestedStyles
