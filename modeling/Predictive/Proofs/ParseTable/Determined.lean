import Predictive.Proofs.Grammar.Reachable
import Predictive.Proofs.ParseTable.Cells

set_option autoImplicit false

namespace Predictive

namespace Grammar

variable {g h r : Grammar} {table : ParseTable}

/-- Whatever else a grammar with the rules of `g` stores, the sets that are computed for it are those
of `r`, and `table` is the table by these sets. -/
structure Determines (g r : Grammar) (table : ParseTable) : Prop where
  rules : g.SameRules r
  valid : r.firstFollowValid = true
  sets : ∀ h, g.SameRules h → h.computeFirstFollow = .ok r
  table : r.tableOfStored = .ok table

theorem WellFormed.exists_determines (valid : g.WellFormed) : ∃ r table, g.Determines r table := by
  obtain ⟨r, done, computed⟩ := valid.exists_computed
  have rules := computed.toSameRules
  have valid' := rules.wellFormed valid
  obtain ⟨table, built, -⟩ := exists_tableOfStored valid'.bodiesKnown valid'.named
  refine ⟨r, table, rules, computed.flag, fun h same => ?_, built⟩
  rw [same.computeFirstFollow_eq, done]

theorem SameRules.determines (same : g.SameRules h) (determines : g.Determines r table) :
    h.Determines r table where
  rules := same.symm.trans determines.rules
  valid := determines.valid
  sets _ same' := determines.sets _ (same.trans same')
  table := determines.table

namespace Determines

theorem eq_of_valid (determines : g.Determines r table) (current : g.Current)
    (flag : g.firstFollowValid = true) : g = r :=
  Except.ok.inj ((current flag).symm.trans (determines.sets g (.refl g)))

theorem withFirstFollow (determines : g.Determines r table) (current : g.Current) :
    g.withFirstFollow = .ok r := by
  rw [current.withFirstFollow_eq, determines.sets g (.refl g)]

theorem buildTable (determines : g.Determines r table) (current : g.Current) :
    g.buildTable = .ok table :=
  bind_eq_ok_iff.2 ⟨r, determines.withFirstFollow current, determines.table⟩

theorem isLL1 (determines : g.Determines r table) (current : g.Current) :
    g.isLL1 = .ok table.isLL1 :=
  bind_eq_ok_iff.2 ⟨table, determines.buildTable current, rfl⟩

theorem current (determines : g.Determines r table) : r.Current :=
  fun _ => determines.sets r determines.rules

end Determines

end Grammar

end Predictive
