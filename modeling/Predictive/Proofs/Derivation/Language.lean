import Predictive.Proofs.Derivation.Interpretation
import Predictive.Proofs.Grammar.WellFormed

set_option autoImplicit false

namespace Predictive

namespace Grammar

variable {g g' g'' : Grammar}

theorem derives_known (valid : g.WellFormed) {u v : List Symbol} (derived : g.Derives u v)
    (known : ∀ s ∈ u, s ∈ g.allSymbols) : ∀ s ∈ v, s ∈ g.allSymbols := by
  induction derived with
  | nil => exact known
  | keep s _ ih =>
      rw [List.forall_mem_cons] at known ⊢
      exact ⟨known.1, ih known.2⟩
  | expand inside _ _ ihFront ihRest =>
      rw [List.forall_mem_append]
      exact ⟨ihFront (valid.fits _ _ inside).2, ihRest (List.forall_mem_cons.1 known).2⟩

theorem WellFormed.mem_of_derives (valid : g.WellFormed) {u v : List Symbol} {t : Symbol}
    (derived : g.Derives u v) (terminal : t ∈ g.terminals) (among : t ∈ u) : t ∈ v := by
  induction derived with
  | nil => exact among
  | keep s _ ih =>
      rw [List.mem_cons] at among ⊢
      exact among.imp_right ih
  | expand inside _ _ _ ihRest =>
      rcases List.mem_cons.1 among with rfl | later
      · exact absurd terminal (valid.disjoint t (mem_names_of_mem_bodies inside))
      · exact List.mem_append_right _ (ihRest later)

theorem generates_iff (valid : g.WellFormed) {name : Symbol} (known : name ∈ g.names)
    {w : List Symbol} : g.Generates name w ↔ g.Derives [name] w ∧ g.TerminalString w := by
  constructor
  · intro found
    rcases found with ⟨derived, closed⟩
    refine ⟨derived, fun s inside => ?_⟩
    have single : ∀ s ∈ [name], s ∈ g.allSymbols := by
      simpa only [List.forall_mem_singleton] using mem_allSymbols.2 (.inl known)
    have symbol := derives_known valid derived single s inside
    exact (mem_allSymbols.1 symbol).resolve_left (closed s inside)
  · intro found
    rcases found with ⟨derived, terminal⟩
    exact ⟨derived, fun s inside => valid.not_terminal (terminal s inside)⟩

/-- Every non-terminal derives some terminal string. -/
def Productive (g : Grammar) : Prop :=
  ∀ name ∈ g.names, ∃ w, g.TerminalString w ∧ g.Derives [name] w

theorem productive_iff (valid : g.WellFormed) :
    g.Productive ↔ ∀ name ∈ g.names, ∃ w, g.Generates name w := by
  refine forall₂_congr fun name named => exists_congr fun w => ?_
  rw [generates_iff valid named, and_comm]

/-- A rewriting after which every old non-terminal derives the same terminal strings. -/
structure Preserves (g g' : Grammar) : Prop extends g.Rewrites g' where
  language : ∀ name ∈ g.names, ∀ w, g.TerminalString w →
    (g.Derives [name] w ↔ g'.Derives [name] w)

theorem Rewrites.terminalString_iff (rewrites : g.Rewrites g') {w : List Symbol} :
    g'.TerminalString w ↔ g.TerminalString w := by
  rw [TerminalString, TerminalString, rewrites.terminals]

theorem Preserves.refl (valid : g.WellFormed) : g.Preserves g where
  toRewrites := .refl valid
  language _ _ _ _ := Iff.rfl

theorem Preserves.trans (first : g.Preserves g') (second : g'.Preserves g'') :
    g.Preserves g'' where
  toRewrites := first.toRewrites.trans second.toRewrites
  language name known w terminal := by
    rw [first.language name known w terminal,
      second.language name (first.names name known) w (first.terminalString_iff.2 terminal)]

theorem Preserves.generates_iff (valid : g.WellFormed) (preserved : g.Preserves g') {name : Symbol}
    (known : name ∈ g.names) (w : List Symbol) :
    g.Generates name w ↔ g'.Generates name w := by
  rw [Grammar.generates_iff valid known,
    Grammar.generates_iff preserved.wellFormed (preserved.names name known),
    preserved.terminalString_iff]
  exact and_congr_left (preserved.language name known w)

/-- A rewriting preserves the languages if each grammar respects the productions of the other. -/
theorem Preserves.of_respects (rewrites : g.Rewrites g')
    (forth : ∀ name, ∀ b ∈ g.bodies name, ∀ w, g.TerminalString w →
      g'.Derives (Body.symbols b) w → g'.Derives [name] w)
    (back : ∀ name, ∀ b ∈ g'.bodies name, ∀ w, g.TerminalString w →
      g.Derives (Body.symbols b) w → g.Derives [name] w) : g.Preserves g' where
  toRewrites := rewrites
  language name _ w terminal := by
    constructor
    · intro derived
      exact derives_of_respects forth derived terminal
    · intro derived
      refine derives_of_respects (fun name b inside v inner => ?_) derived
        (rewrites.terminalString_iff.2 terminal)
      exact back name b inside v (rewrites.terminalString_iff.1 inner)

end Grammar

end Predictive
