import NestedStyles.Compiler
import NestedStyles.Proofs.Pass.Splicing

/-!
# The passes of a run

What is said about a run of the compiler is put together from what its passes do. The different ways to speak of passes,
by what is safe, by what holds before and after, or by what another pass does in its place, have in common that they go
through sequences (`Sequential`). That is enough to get from the passes to the run (`Sequential.reduce`).
-/

namespace NestedStyles

open Document Pass

/-- A relation of two passes with what is known before and after them. It goes through sequences. To look at anything
but the settings, and to report something, does not change what is known. -/
structure Sequential {S : Type} (C : (α : Type) → S → Pass α → Pass α → S → Prop) : Prop where
  bind : ∀ {α β : Type} {p q r : S} {x x' : Pass α} {f f' : α → Pass β},
    C α p x x' q → (∀ a, C β q (f a) (f' a) r) → C β p (x >>= f) (x' >>= f') r
  view : ∀ {α : Type} (p : S) (f : Workspace → α),
    (∀ w strict limit, f { w with run := { w.run with strict := strict, expansionLimit := limit } } = f w) →
      C α p (view f) (view f) p
  report : ∀ (p : S) (event : Event), C Unit p (report event) (report event) p

namespace Sequential

variable {S : Type} {C : (α : Type) → S → Pass α → Pass α → S → Prop}

theorem dump (h : Sequential C) (p : S) (pass : String) : C Unit p (dump pass) (dump pass) p :=
  h.bind (h.view p _ fun _ _ _ => rfl) fun _ => h.report p _

/-- What holds of the passes after the expansion of imports holds of their sequence. -/
theorem reduce (h : Sequential C) (compiler loose : Compiler) (heq : loose.settings.prune = compiler.settings.prune)
    (p₀ p₁ p₂ p₃ p₄ : S) (hcollect : C Unit p₀ (collect root) (collect root) p₁)
    (hevaluate : C Bool p₁ (evaluate root) (evaluate root) p₂) (hverify : C Unit p₂ verify verify p₂)
    (hflatten : C Nat p₂ flattenStylesheet flattenStylesheet p₃)
    (hprune : compiler.settings.prune = true → C Nat p₃ pruneStylesheet pruneStylesheet p₄)
    (hkeep : compiler.settings.prune = false → C Unit p₃ (pure ()) (pure ()) p₄) :
    C Unit p₀ compiler.reduce loose.reduce p₄ := by
  rw [Compiler.reduce, Compiler.reduce, heq]
  refine h.bind hcollect fun _ => h.bind (h.view p₁ _ fun _ _ _ => rfl) fun _ => ?_
  refine h.bind (h.view p₁ _ fun _ _ _ => rfl) fun _ => h.bind (h.report p₁ _) fun _ => ?_
  refine h.bind hevaluate fun _ => h.bind hverify fun _ => ?_
  refine h.bind (h.view p₂ _ fun _ _ _ => rfl) fun _ => h.bind (h.report p₂ _) fun _ => ?_
  refine h.bind (h.dump p₂ _) fun _ => h.bind hflatten fun _ => h.bind (h.report p₃ _) fun _ => ?_
  split
  · next hset => exact h.bind (hprune hset) fun _ => h.report p₄ _
  · next hset => exact hkeep (Bool.eq_false_iff.2 hset)

end Sequential

namespace Compiler

/-- A run that succeeds has expanded the imports and gone on from there. -/
theorem exists_of_compile_eq_ok {compiler : Compiler} {w w' : Workspace} (h : compiler.compile w = .ok () w') :
    ∃ n w₁ log, expandImports compiler.library { w with run := (w.run.setActive w.doc).clear } = .ok n w₁ ∧
      compiler.reduce { w₁ with log := log } = .ok () w' := by
  rw [compile, run_bind, run_edit] at h
  obtain ⟨n, w₁, hexpand, hrest⟩ := exists_of_bind_eq_ok h
  exact ⟨n, w₁, _, hexpand, hrest⟩

end Compiler

end NestedStyles
