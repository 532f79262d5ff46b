import Predictive.Proofs.Factoring.Inlining
import Predictive.Proofs.Factoring.Prefix

set_option autoImplicit false

namespace Predictive

namespace Grammar

variable {g : Grammar}

/-- Whether, when the non-terminals of a list are factored in turn, every factored body begins with
the prefix shared at that time. -/
def FactorsAllByPrefix : List Symbol → Grammar → Prop
  | [], _ => True
  | head :: rest, g => g.FactorsByPrefix head ∧ FactorsAllByPrefix rest (g.factor head)

instance decidableFactorsAllByPrefix : (names : List Symbol) → (g : Grammar) →
    Decidable (FactorsAllByPrefix names g)
  | [], _ => .isTrue trivial
  | head :: rest, g =>
    have := decidableFactorsAllByPrefix rest (g.factor head)
    inferInstanceAs (Decidable (g.FactorsByPrefix head ∧ FactorsAllByPrefix rest (g.factor head)))

/-- Whether in a round of left factoring every factored body begins with the prefix. -/
def LeftFactorsByPrefix (g : Grammar) : Prop :=
  FactorsAllByPrefix g.inlineCollisions.names g.inlineCollisions

instance (g : Grammar) : Decidable g.LeftFactorsByPrefix :=
  inferInstanceAs (Decidable (FactorsAllByPrefix _ _))

theorem rewrites_factorAll (valid : g.WellFormed) : g.Rewrites g.factorAll :=
  .foldl valid fun _ reached name named =>
    rewrites_factor reached.wellFormed (reached.names name named)

/-- What holds at the beginning and is kept by factoring bodies that begin with the prefix holds in
the end, and the languages are kept as well. -/
theorem foldl_factor_induction {I : Grammar → Prop} {names : List Symbol} (valid : g.WellFormed)
    (known : ∀ name ∈ names, name ∈ g.names) (begin : FactorsAllByPrefix names g) (start : I g)
    (step : ∀ h head, h.WellFormed → head ∈ h.names → h.FactorsByPrefix head → I h →
      I (h.factor head)) :
    g.Preserves (names.foldl factor g) ∧ I (names.foldl factor g) := by
  induction names generalizing g with
  | nil => exact ⟨.refl valid, start⟩
  | cons head rest ih =>
      obtain ⟨first, later⟩ := begin
      obtain ⟨named, others⟩ := List.forall_mem_cons.1 known
      have factored := preserves_factor valid named first
      obtain ⟨preserved, inv⟩ := ih factored.wellFormed
        (fun name inside => factored.names name (others name inside)) later
        (step g head valid named first start)
      exact ⟨factored.trans preserved, inv⟩

theorem preserves_factorAll (valid : g.WellFormed) (begin : FactorsAllByPrefix g.names g) :
    g.Preserves g.factorAll :=
  (foldl_factor_induction (I := fun _ => True) valid (fun _ named => named) begin trivial
    fun _ _ _ _ _ _ => trivial).1

theorem rewrites_leftFactor (valid : g.WellFormed) : g.Rewrites g.leftFactor := by
  have inlined := (preserves_inlineCollisions valid).toRewrites
  exact inlined.trans (rewrites_factorAll inlined.wellFormed)

theorem preserves_leftFactor (valid : g.WellFormed) (begin : g.LeftFactorsByPrefix) :
    g.Preserves g.leftFactor := by
  have inlined := preserves_inlineCollisions valid
  exact inlined.trans (preserves_factorAll inlined.wellFormed begin)

end Grammar

end Predictive
