import Predictive.Proofs.Derivation.Corners
import Predictive.Proofs.Derivation.Opening

set_option autoImplicit false

namespace Predictive

namespace Grammar

variable {g g' : Grammar} {t : Symbol} {u : List Symbol}

theorem terminalString_nil : g.TerminalString [] := fun _ inside => absurd inside List.not_mem_nil

namespace Productive

variable (productive : g.Productive) (known : ∀ s ∈ u, s ∈ g.allSymbols)

include productive known

theorem exists_derives : ∃ w, g.TerminalString w ∧ g.Derives u w := by
  induction u with
  | nil => exact ⟨[], terminalString_nil, .nil⟩
  | cons s u ih =>
      obtain ⟨here, later⟩ := List.forall_mem_cons.1 known
      have first : ∃ front, g.TerminalString front ∧ g.Derives [s] front := by
        rcases mem_allSymbols.1 here with named | terminal
        · exact productive s named
        · refine ⟨[s], ?_, Derives.refl g [s]⟩
          rwa [TerminalString, List.forall_mem_singleton]
      obtain ⟨front, plain, left⟩ := first
      obtain ⟨back, plain', right⟩ := ih later
      exact ⟨front ++ back, terminalString_append.2 ⟨plain, plain'⟩, left.append right⟩

theorem exists_derives_cons (valid : g.WellFormed) (opens : g.Opens u t) :
    ∃ w, g.TerminalString (t :: w) ∧ g.Derives u (t :: w) := by
  obtain ⟨terminal, rest, derived⟩ := opens
  have later := (List.forall_mem_cons.1 (derives_known valid derived known)).2
  obtain ⟨w, plain, completed⟩ := productive.exists_derives later
  exact ⟨w, List.forall_mem_cons.2 ⟨terminal, plain⟩, derived.trans (.keep t completed)⟩

theorem derives_nil_of_not_opens (closed : ∀ t, ¬ g.Opens u t) : g.Derives u [] := by
  obtain ⟨w, plain, derived⟩ := productive.exists_derives known
  cases w with
  | nil => exact derived
  | cons t w => exact absurd ⟨plain t List.mem_cons_self, w, derived⟩ (closed t)

end Productive

namespace Preserves

variable (valid : g.WellFormed) (preserved : g.Preserves g')

theorem productive_of_new (preserved : g.Preserves g') (productive : g.Productive)
    (new : ∀ name ∈ g'.names, name ∉ g.names → ∃ w, g'.TerminalString w ∧ g'.Derives [name] w) :
    g'.Productive := by
  intro name named
  by_cases old : name ∈ g.names
  · obtain ⟨w, terminal, derived⟩ := productive name old
    exact ⟨w, preserved.terminalString_iff.2 terminal,
      (preserved.language name old w terminal).1 derived⟩
  · exact new name named old

theorem productive_of_names (preserved : g.Preserves g') (productive : g.Productive)
    (same : g'.names = g.names) : g'.Productive :=
  preserved.productive_of_new productive fun _ named new => absurd (same ▸ named) new

include valid preserved

theorem derives_singleton_iff {s : Symbol} (known : s ∈ g.allSymbols) {w : List Symbol}
    (terminal : g.TerminalString w) : g.Derives [s] w ↔ g'.Derives [s] w := by
  rcases mem_allSymbols.1 known with named | closed
  · exact preserved.language s named w terminal
  · have closed' : s ∈ g'.terminals := by rwa [preserved.terminals]
    have stays : ¬ g.Yields s w := fun yields =>
      valid.not_terminal closed (mem_names_of_mem_bodies yields.choose_spec.1)
    have stays' : ¬ g'.Yields s w := fun yields =>
      preserved.wellFormed.not_terminal closed' (mem_names_of_mem_bodies yields.choose_spec.1)
    rw [Grammar.derives_singleton_iff, Grammar.derives_singleton_iff, or_iff_left stays,
      or_iff_left stays']

theorem derives_iff (known : ∀ s ∈ u, s ∈ g.allSymbols) {w : List Symbol}
    (terminal : g.TerminalString w) : g.Derives u w ↔ g'.Derives u w := by
  induction u generalizing w with
  | nil => rw [derives_nil_iff, derives_nil_iff]
  | cons s u ih =>
      obtain ⟨here, later⟩ := List.forall_mem_cons.1 known
      rw [← List.singleton_append, derives_append_iff, derives_append_iff]
      refine exists_congr fun front => exists_congr fun back => and_congr_right fun split => ?_
      subst split
      obtain ⟨plain, plain'⟩ := terminalString_append.1 terminal
      rw [preserved.derives_singleton_iff valid here plain, ih later plain']

theorem derives_nil_iff (known : ∀ s ∈ u, s ∈ g.allSymbols) :
    g.Derives u [] ↔ g'.Derives u [] := preserved.derives_iff valid known terminalString_nil

theorem opens_iff (productive : g.Productive) (productive' : g'.Productive)
    (known : ∀ s ∈ u, s ∈ g.allSymbols) : g.Opens u t ↔ g'.Opens u t := by
  constructor
  · intro opens
    obtain ⟨w, plain, derived⟩ := productive.exists_derives_cons known valid opens
    have terminal : t ∈ g'.terminals := by
      rw [preserved.terminals]
      exact opens.1
    exact ⟨terminal, w, (preserved.derives_iff valid known plain).1 derived⟩
  · intro opens
    have known' : ∀ s ∈ u, s ∈ g'.allSymbols := fun s among =>
      preserved.mem_allSymbols (known s among)
    obtain ⟨w, plain, derived⟩ :=
      productive'.exists_derives_cons known' preserved.wellFormed opens
    have terminal : t ∈ g.terminals := by
      rw [← preserved.terminals]
      exact opens.1
    rw [preserved.terminalString_iff] at plain
    exact ⟨terminal, w, (preserved.derives_iff valid known plain).2 derived⟩

end Preserves

end Grammar

end Predictive
