import Predictive.Proofs.Collection.Size
import Predictive.Proofs.ParseTable.Cells
import Predictive.Proofs.Prediction.Parting

set_option autoImplicit false

namespace Predictive

namespace Grammar

variable {g r : Grammar} {head t : Symbol} {b : Body}

theorem Exact.calls_iff (exact : g.Exact r) (valid : g.WellFormed) (inside : b ∈ g.bodies head) :
    r.Calls head b t ↔ g.Predicts head (Body.symbols b) t := by
  have known := valid.bodiesKnown head b inside
  have clean : epsilon ∉ g.terminals := fun inside =>
    valid.noEpsilon (mem_allSymbols.2 (.inr inside))
  rw [Calls, exact.begins b known, exact.begins b known,
    exact.follow head (mem_names_of_mem_bodies inside), Predicts, FirstMark, FirstMark]
  constructor
  · rintro (⟨other, opens | ⟨same, -⟩⟩ | ⟨opens | ⟨-, empty⟩, follows⟩)
    · exact .inl opens
    · exact absurd same other
    · exact absurd opens.1 clean
    · exact .inr ⟨empty, follows⟩
  · rintro (opens | ⟨empty, follows⟩)
    · exact .inl ⟨fun same => clean (same ▸ opens.1), .inl opens⟩
    · exact .inr ⟨.inr ⟨rfl, empty⟩, follows⟩

/-- The table is always built, and it tabulates what the derivations call for. -/
theorem exists_tabulates (valid : g.WellFormed) (current : g.Current) :
    ∃ r table, g.computeFirstFollow = .ok r ∧ g.Exact r ∧ g.buildTable = .ok table ∧
      table.Tabulates g fun head b t => g.Predicts head (Body.symbols b) t := by
  obtain ⟨r, done, exact⟩ := valid.exists_exact
  have found : g.withFirstFollow = .ok r := by rw [current.withFirstFollow_eq, done]
  have same := exact.toSameRules
  have valid' := same.wellFormed valid
  obtain ⟨table, built, tabulates⟩ := exists_tableOfStored valid'.bodiesKnown valid'.named
  refine ⟨r, table, done, exact, bind_eq_ok_iff.2 ⟨r, found, built⟩, ?_⟩
  refine tabulates.congr same.symm.names same.symm.terminals same.symm.bodies ?_
  intro head b inside t
  rw [same.bodies] at inside
  exact exact.calls_iff valid inside

/-- The verdict is always given, and it is positive for the deterministic grammars. -/
theorem exists_isLL1 (valid : g.WellFormed) (current : g.Current) :
    ∃ verdict, g.isLL1 = .ok verdict ∧ (verdict = true ↔ g.Deterministic) := by
  obtain ⟨r, table, -, -, built, tabulates⟩ := exists_tabulates valid current
  exact ⟨table.isLL1, bind_eq_ok_iff.2 ⟨table, built, rfl⟩, tabulates.isLL1_iff⟩

end Grammar

end Predictive
