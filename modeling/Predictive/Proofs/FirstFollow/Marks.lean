import Predictive.Proofs.Derivation.Opening
import Predictive.Proofs.FirstFollow.Computed

set_option autoImplicit false

namespace Predictive

namespace Grammar

variable {g h r : Grammar} {t name : Symbol} {u v : List Symbol}

section Soundness

theorem firstMark_of_begins (valid : g.WellFormed) (names : h.names = g.names)
    (fine : ∀ name, ∀ t ∈ h.storedFirst name, g.FirstMark [name] t) (known : g.Known u)
    (begins : h.Begins t u) : g.FirstMark (Body.symbols u) t := by
  induction u with
  | nil => exact .inr ⟨begins, .nil⟩
  | cons s u ih =>
      obtain ⟨first, rest⟩ := List.forall_mem_cons.1 known
      by_cases mark : s = epsilon
      · subst mark
        have dropped : Body.symbols (epsilon :: u) = Body.symbols u := by simp [Body.symbols]
        rw [dropped]
        exact ih rest (begins_epsilon_cons.1 begins)
      · have kept : Body.symbols (s :: u) = s :: Body.symbols u := by simp [Body.symbols, mark]
        rw [kept, FirstMark, derives_cons_nil_iff, opens_cons_iff]
        by_cases named : s ∈ g.names
        · rcases (begins_name_cons mark (names ▸ named)).1 begins with ⟨other, inside⟩ | ⟨empty, later⟩
          · exact .inl (.inl ((fine s t inside).resolve_right fun same => other same.1))
          · have nothing : g.Derives [s] [] := by
              rcases fine s epsilon empty with ⟨terminal, -⟩ | ⟨-, nothing⟩
              · exact absurd (mem_allSymbols.2 (.inr terminal)) valid.noEpsilon
              · exact nothing
            exact (ih rest later).imp (fun opens => .inr ⟨nothing, opens⟩)
              (And.imp_right fun derived => ⟨nothing, derived⟩)
        · have same : t = s := (begins_terminal_cons mark (names ▸ named)).1 begins
          subst same
          have terminal := (mem_allSymbols.1 (first.resolve_left mark)).resolve_left named
          exact .inl (.inl (opens_self terminal))

theorem WellFormed.firstAllowed_firstMark (valid : g.WellFormed) :
    g.FirstAllowed fun name t => g.FirstMark [name] t := by
  intro h same fine name b inside t begins
  exact firstMark_of_mem_bodies inside
    (firstMark_of_begins valid same.names fine (valid.bodiesKnown name b inside) begins)

end Soundness

section Completeness

/-- The mark of a form: its first symbol, or `&` if it is empty. -/
def mark : List Symbol → Symbol
  | [] => epsilon
  | s :: _ => s

/-- A form begins, by sets that are closed, as the forms do that it derives and that begin with a
terminal or are empty. -/
theorem begins_mark_of_derives (valid : g.WellFormed) (saturated : g.Saturated)
    (derived : g.Derives u v) (opening : ∀ s ∈ v.head?, s ∈ g.terminals) :
    g.Begins (mark v) u := by
  induction derived with
  | nil => rfl
  | keep s _ _ =>
      have known := opening s rfl
      have other := valid.ne_epsilon_of_mem (mem_allSymbols.2 (.inr known))
      exact (begins_terminal_cons other (valid.not_terminal known)).2 rfl
  | @expand name b u v w inside _ _ ihFront ihRest =>
      have named := mem_names_of_mem_bodies inside
      rw [begins_name_cons (valid.ne_epsilon named) named]
      cases v with
      | nil =>
          have stored := saturated.firsts name b inside _ (begins_symbols_iff.1 (ihFront (by simp)))
          exact .inr ⟨stored, ihRest opening⟩
      | cons s v =>
          have known := opening s rfl
          have begins := begins_symbols_iff.1 (ihFront (by simpa using known))
          have stored := saturated.firsts name b inside _ begins
          exact .inl ⟨valid.ne_epsilon_of_mem (mem_allSymbols.2 (.inr known)), stored⟩

theorem Saturated.begins_of_firstMark (saturated : g.Saturated) (valid : g.WellFormed)
    (marked : g.FirstMark u t) : g.Begins t u := by
  rcases marked with ⟨terminal, rest, derived⟩ | ⟨rfl, derived⟩
  · exact begins_mark_of_derives valid saturated derived (by simpa using terminal)
  · exact begins_mark_of_derives valid saturated derived (by simp)

end Completeness

end Grammar

end Predictive
