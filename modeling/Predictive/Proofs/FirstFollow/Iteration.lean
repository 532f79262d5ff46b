import Predictive.Grammar.First
import Predictive.Proofs.Collection.Traversal

set_option autoImplicit false

namespace Predictive

variable {ε σ : Type} {step : σ → Except ε σ}

/-- `Settles step n s r`: when `step` is repeated from `s`, the `n`-th pass is the first that changes
nothing, and `r` is what it leaves. -/
inductive Settles (step : σ → Except ε σ) : Nat → σ → σ → Prop where
  | still {s : σ} (done : step s = .ok s) : Settles step 1 s s
  | onward {n : Nat} {s next r : σ} (done : step s = .ok next) (other : next ≠ s)
      (later : Settles step n next r) : Settles step (n + 1) s r

theorem Settles.step_eq {n : Nat} {s r : σ} (settles : Settles step n s r) : step r = .ok r := by
  induction settles with
  | still done => exact done
  | onward _ _ _ ih => exact ih

theorem Settles.untilStable_eq [DecidableEq σ] {n bound : Nat} {s r : σ}
    (settles : Settles step n s r) (enough : n ≤ bound) : untilStable step bound s = .ok r := by
  induction settles generalizing bound with
  | still done =>
      obtain ⟨bound, rfl⟩ := Nat.exists_eq_add_of_le' enough
      rw [untilStable, done]
      exact if_pos rfl
  | onward done other _ ih =>
      obtain ⟨bound, rfl⟩ := Nat.exists_eq_add_of_le' (Nat.le_of_add_left_le enough)
      have later := ih (Nat.le_of_succ_le_succ enough)
      rw [untilStable, done, ← later]
      exact if_neg other

/-- Every pass but the last takes some of the room that is left below the limit. -/
theorem exists_settles {Inv : σ → Prop} {size : σ → Nat} {limit : Nat}
    (total : ∀ s, Inv s → ∃ next, step s = .ok next ∧ Inv next ∧ (next ≠ s → size s < size next))
    (limited : ∀ s, Inv s → size s ≤ limit) {s : σ} (inv : Inv s) :
    ∃ n r, Settles step n s r ∧ n + size s ≤ limit + 1 ∧ Inv r := by
  induction room : limit - size s using Nat.strongRecOn generalizing s with
  | ind left ih =>
    obtain ⟨next, done, inv', larger⟩ := total s inv
    have small := limited s inv
    by_cases same : next = s
    · subst same
      exact ⟨1, next, .still done, by omega, inv⟩
    · have below := larger same
      have small' := limited next inv'
      obtain ⟨n, r, settles, few, result⟩ := ih (limit - size next) (by omega) inv' rfl
      exact ⟨n + 1, r, .onward done same settles, by omega, result⟩

end Predictive
