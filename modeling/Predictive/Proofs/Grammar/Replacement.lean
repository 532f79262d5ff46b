import Predictive.Grammar.LeftRecursion
import Mathlib.Tactic.Tauto

set_option autoImplicit false

namespace Predictive

variable {bodies : OrderedSet Body} {chosen : List Body} {expand : Body → List Body} {b : Body}

theorem replaceBodies_cons (bodies : OrderedSet Body) (c : Body) (chosen : List Body)
    (expand : Body → List Body) :
    replaceBodies bodies (c :: chosen) expand =
      replaceBodies ((bodies.erase c).insertMany (expand c)) chosen expand := rfl

theorem mem_of_mem_replaceBodies (inside : b ∈ replaceBodies bodies chosen expand) :
    b ∈ bodies ∧ b ∉ chosen ∨ ∃ c ∈ chosen, b ∈ expand c := by
  induction chosen generalizing bodies with
  | nil => exact .inl ⟨inside, List.not_mem_nil⟩
  | cons c chosen ih =>
      rcases ih inside with ⟨old, left⟩ | ⟨d, later, added⟩
      · rw [OrderedSet.mem_insertMany, OrderedSet.mem_erase] at old
        rcases old with ⟨old, other⟩ | added
        · exact .inl ⟨old, List.not_mem_cons_of_ne_of_not_mem other left⟩
        · exact .inr ⟨c, List.mem_cons_self, added⟩
      · exact .inr ⟨d, List.mem_cons_of_mem c later, added⟩

/-- What holds of the bodies after the replacements, and of a replaced body whenever it holds of all
that it was replaced by, holds of the bodies before them. -/
theorem replaceBodies_induction {P : Body → Prop}
    (final : ∀ b ∈ replaceBodies bodies chosen expand, P b)
    (back : ∀ c ∈ chosen, (∀ e ∈ expand c, P e) → P c) : ∀ b ∈ bodies, P b := by
  induction chosen generalizing bodies with
  | nil => exact final
  | cons c chosen ih =>
      have next : ∀ b ∈ (bodies.erase c).insertMany (expand c), P b :=
        ih final fun d later => back d (List.mem_cons_of_mem c later)
      intro b inside
      by_cases same : b = c
      · subst same
        apply back b List.mem_cons_self
        intro e added
        exact next e (OrderedSet.mem_insertMany.2 (.inr added))
      · exact next b (OrderedSet.mem_insertMany.2 (.inl (OrderedSet.mem_erase.2 ⟨inside, same⟩)))

theorem exists_mem_replaceBodies (inside : b ∈ bodies) (some : ∀ c ∈ chosen, expand c ≠ []) :
    ∃ b, b ∈ replaceBodies bodies chosen expand := by
  refine replaceBodies_induction (P := fun _ => ∃ b, b ∈ replaceBodies bodies chosen expand)
    (fun b left => ⟨b, left⟩) (fun c within later => ?_) b inside
  obtain ⟨e, added⟩ := List.exists_mem_of_ne_nil _ (some c within)
  exact later e added

/-- Where no replacement is itself replaced, the final bodies are those that were left alone and the
replacements. -/
theorem mem_replaceBodies_iff (apart : ∀ c ∈ chosen, ∀ e ∈ expand c, e ∉ chosen) :
    b ∈ replaceBodies bodies chosen expand ↔
      b ∈ bodies ∧ b ∉ chosen ∨ ∃ c ∈ chosen, b ∈ expand c := by
  induction chosen generalizing bodies with
  | nil => simp [replaceBodies]
  | cons c chosen ih =>
      have later : ∀ d ∈ chosen, ∀ e ∈ expand d, e ∉ chosen := by
        intro d within e added inside
        exact apart d (List.mem_cons_of_mem c within) e added (List.mem_cons_of_mem c inside)
      have first : b ∈ expand c → b ∉ chosen := by
        intro added inside
        exact apart c List.mem_cons_self b added (List.mem_cons_of_mem c inside)
      rw [replaceBodies_cons, ih later, OrderedSet.mem_insertMany, OrderedSet.mem_erase]
      simp only [List.mem_cons, not_or, exists_eq_or_imp, ne_eq]
      tauto

end Predictive
