import Predictive.Proofs.Derivation.Language

set_option autoImplicit false

namespace Predictive

namespace Grammar

variable {g : Grammar} {t s name : Symbol} {u v : List Symbol}

/-- `t` is a terminal, and one of the forms that `u` derives begins with it. -/
def Opens (g : Grammar) (u : List Symbol) (t : Symbol) : Prop :=
  t ∈ g.terminals ∧ ∃ rest, g.Derives u (t :: rest)

/-- `t` is a terminal that opens the form, or `&` where the form derives the empty one. -/
def FirstMark (g : Grammar) (u : List Symbol) (t : Symbol) : Prop :=
  g.Opens u t ∨ t = epsilon ∧ g.Derives u []

theorem derives_append_nil_iff : g.Derives (u ++ v) [] ↔ g.Derives u [] ∧ g.Derives v [] := by
  rw [derives_append_iff]
  constructor
  · intro found
    rcases found with ⟨front, back, split, left, right⟩
    obtain ⟨rfl, rfl⟩ := List.append_eq_nil_iff.1 split.symm
    exact ⟨left, right⟩
  · intro both
    exact ⟨[], [], rfl, both.1, both.2⟩

theorem not_opens_nil : ¬ g.Opens [] t := by
  intro opens
  obtain ⟨-, rest, derived⟩ := opens
  have := derives_nil_iff.1 derived
  contradiction

theorem opens_self (terminal : t ∈ g.terminals) : g.Opens [t] t :=
  ⟨terminal, [], Derives.refl g [t]⟩

theorem opens_append_iff : g.Opens (u ++ v) t ↔ g.Opens u t ∨ g.Derives u [] ∧ g.Opens v t := by
  constructor
  · intro opens
    obtain ⟨terminal, rest, derived⟩ := opens
    obtain ⟨front, back, split, left, right⟩ := derives_append_iff.1 derived
    cases front with
    | nil =>
        rw [List.nil_append] at split
        subst split
        exact .inr ⟨left, terminal, rest, right⟩
    | cons s front =>
        obtain ⟨rfl, -⟩ := List.cons.inj split
        exact .inl ⟨terminal, front, left⟩
  · intro found
    rcases found with ⟨terminal, rest, left⟩ | ⟨empty, terminal, rest, right⟩
    · exact ⟨terminal, rest ++ v, left.append (Derives.refl g v)⟩
    · exact ⟨terminal, rest, empty.append right⟩

theorem opens_cons_iff : g.Opens (s :: v) t ↔ g.Opens [s] t ∨ g.Derives [s] [] ∧ g.Opens v t :=
  opens_append_iff (u := [s])

theorem derives_cons_nil_iff : g.Derives (s :: v) [] ↔ g.Derives [s] [] ∧ g.Derives v [] :=
  derives_append_nil_iff (u := [s])

theorem derives_nil_iff_forall : g.Derives u [] ↔ ∀ s ∈ u, g.Derives [s] [] := by
  induction u with
  | nil => simp [Derives.nil]
  | cons s u ih => rw [derives_cons_nil_iff, ih, List.forall_mem_cons]

theorem opens_of_mem_bodies {b : Body} (inside : b ∈ g.bodies name)
    (opens : g.Opens (Body.symbols b) t) : g.Opens [name] t := by
  obtain ⟨terminal, rest, derived⟩ := opens
  exact ⟨terminal, rest, derives_of_mem_bodies inside derived⟩

theorem firstMark_of_mem_bodies {b : Body} (inside : b ∈ g.bodies name)
    (marked : g.FirstMark (Body.symbols b) t) : g.FirstMark [name] t :=
  marked.imp (opens_of_mem_bodies inside) (And.imp_right (derives_of_mem_bodies inside))

end Grammar

end Predictive
