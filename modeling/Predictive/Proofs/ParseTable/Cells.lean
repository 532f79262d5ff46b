import Predictive.ParseTable.Predict
import Predictive.Proofs.FirstFollow.Computed
import Predictive.Proofs.ParseTable.Tabulation
import Predictive.Proofs.ParseTable.Writing

set_option autoImplicit false

namespace Predictive

namespace Grammar

open ParseTable (SameBut)

variable {g : Grammar} {head t : Symbol} {b : Body} {entry : NonTerminal}

/-- Whether the lookahead `t` calls for `b` as the expansion of `head`, by the stored sets. -/
def Calls (g : Grammar) (head : Symbol) (b : Body) (t : Symbol) : Prop :=
  t ≠ epsilon ∧ g.Begins t b ∨ g.Begins epsilon b ∧ t ∈ g.storedFollow head

/-- A body is written under the lookaheads that call for it: first those that it can begin with, then
those that follow its head, of which some may be the same. -/
theorem exists_writeBody (known : g.Known b) (held : g.nonTerminals.get? entry.name = some entry) :
    ∃ terminals, (∀ s, s ∈ terminals ↔ g.Calls entry.name b s) ∧
      ∀ t, g.writeBody entry t b = .ok (t.insertAll entry.name b terminals) := by
  obtain ⟨first, done⟩ := exists_firstOf known
  have mem (s : Symbol) : s ∈ first ↔ g.Begins s b := mem_firstOf done
  have follow : g.storedFollow entry.name = entry.follow := by rw [storedFollow, held]
  by_cases empty : epsilon ∈ first
  · refine ⟨(first.erase epsilon).toList ++ entry.follow.toList, fun s => ?_, fun t => ?_⟩
    · simp only [List.mem_append, OrderedSet.mem_toList, OrderedSet.mem_erase, Calls, ← mem, empty,
        true_and, follow, and_comm]
    · rw [writeBody, done, ParseTable.insertAll_append]
      exact if_pos empty
  · refine ⟨(first.erase epsilon).toList, fun s => ?_, fun t => ?_⟩
    · simp only [OrderedSet.mem_toList, OrderedSet.mem_erase, Calls, ← mem, empty, false_and,
        or_false, and_comm]
    · rw [writeBody, done]
      exact if_neg empty

/-- The row of `head` lists those of some bodies that its lookaheads call for. -/
structure RowHolds (g : Grammar) (head : Symbol) (bodies : List Body) (t : ParseTable) : Prop where
  listed : head ∈ t.rows
  ordered : ∀ label, (t.entries head label).Sublist bodies
  called : ∀ label b, b ∈ t.entries head label ↔ b ∈ bodies ∧ g.Calls head b label

theorem RowHolds.insertAll {bodies : List Body} {table : ParseTable} {terminals : List Symbol}
    (holds : g.RowHolds head bodies table) (new : b ∉ bodies)
    (calls : ∀ s, s ∈ terminals ↔ g.Calls head b s) :
    g.RowHolds head (bodies ++ [b]) (table.insertAll head b terminals) := by
  have missing (label : Symbol) : b ∉ table.entries head label := fun inside =>
    new ((holds.called label b).1 inside).1
  have cell (label : Symbol) : (table.insertAll head b terminals).entries head label =
      if label ∈ terminals then table.entries head label ++ [b] else table.entries head label := by
    rw [ParseTable.entries_insertAll]
    simp only [missing label, not_false_eq_true, true_and, and_true]
  refine ⟨(ParseTable.sameBut_insertAll table head b terminals).kept holds.listed, ?_, ?_⟩
  · intro label
    rw [cell]
    split
    case isTrue => exact (holds.ordered label).append (.refl [b])
    case isFalse => exact (holds.ordered label).trans (List.sublist_append_left bodies [b])
  · intro label c
    rw [cell, List.mem_append, List.mem_singleton]
    split
    case isTrue under =>
      rw [List.mem_append, List.mem_singleton, holds.called]
      grind
    case isFalse apart =>
      rw [holds.called]
      grind

theorem RowHolds.sameBut {other : Symbol} {bodies : List Body} {table table' : ParseTable}
    (holds : g.RowHolds other bodies table) (same : SameBut head table table')
    (apart : other ≠ head) : g.RowHolds other bodies table' where
  listed := (same.rows other apart).2 holds.listed
  ordered label := by
    rw [same.cells other label apart]
    exact holds.ordered label
  called label b := by
    rw [same.cells other label apart]
    exact holds.called label b

theorem exists_writeRow (known : g.BodiesKnown) (held : g.nonTerminals.get? entry.name = some entry)
    {table : ParseTable} (absent : ¬ entry.name ∈ table.rows) :
    ∃ table', g.writeRow table entry = .ok table' ∧ SameBut entry.name table table' ∧
      g.RowHolds entry.name entry.productions.toList table' := by
  have bodies : g.bodies entry.name = entry.productions := by rw [Grammar.bodies, held]
  have opened : SameBut entry.name table (table.addRow entry.name) ∧
      g.RowHolds entry.name [] (table.addRow entry.name) := by
    refine ⟨ParseTable.sameBut_addRow table _, ParseTable.mem_addRow.2 (.inl rfl), ?_, ?_⟩
    all_goals simp [ParseTable.entries_of_not_mem absent]
  refine exists_foldlM_of_prefix
    (I := fun above t => SameBut entry.name table t ∧ g.RowHolds entry.name above t) ?_ opened
  intro above b below split t inv
  have inside : b ∈ g.bodies entry.name := by
    rw [bodies, ← OrderedSet.mem_toList, split]
    simp
  have new : b ∉ above := by
    have distinct := OrderedSet.nodup_of_pairwise entry.productions.ordered
    rw [split] at distinct
    exact fun among => (List.nodup_append.1 distinct).2.2 b among b List.mem_cons_self rfl
  obtain ⟨terminals, calls, written⟩ := exists_writeBody (known _ b inside) held
  exact ⟨_, written t, inv.1.trans (ParseTable.sameBut_insertAll t _ b terminals),
    inv.2.insertAll new calls⟩

/-- The table lists the rows of some non-terminals, and no others. -/
structure RowsHold (g : Grammar) (entries : List NonTerminal) (t : ParseTable) : Prop where
  columns : t.terminals = g.terminals.toList ++ [endMark]
  heads : ∀ head, head ∈ t.rows ↔ ∃ entry ∈ entries, entry.name = head
  rows : ∀ entry ∈ entries, g.RowHolds entry.name entry.productions.toList t

theorem Named.get?_of_mem_entries (named : g.Named) (listed : entry ∈ g.entries) :
    g.nonTerminals.get? entry.name = some entry := by
  obtain ⟨key, held⟩ := OrderedMap.mem_values.1 listed
  rwa [named key entry held]

theorem Named.map_name_entries (named : g.Named) : g.entries.map NonTerminal.name = g.names := by
  rw [entries, OrderedMap.values, List.map_map, names, OrderedMap.keys]
  refine List.map_congr_left fun listed inside => ?_
  exact named listed.1 listed.2 (OrderedMap.get?_eq_some_iff.2 inside)

theorem exists_rows (known : g.BodiesKnown) (named : g.Named) :
    ∃ table, g.tableOfStored = .ok table ∧ g.RowsHold g.entries table := by
  have empty : g.RowsHold [] ⟨g.terminals.toList ++ [endMark], ∅⟩ :=
    ⟨rfl, fun head => iff_of_false List.not_mem_nil (by simp), by simp⟩
  refine exists_foldlM_of_prefix (I := g.RowsHold) ?_ empty
  intro above entry below split table inv
  have held : g.nonTerminals.get? entry.name = some entry :=
    named.get?_of_mem_entries (by simp [split])
  have new : ∀ earlier ∈ above, earlier.name ≠ entry.name := by
    have distinct : (g.entries.map NonTerminal.name).Nodup := by
      rw [named.map_name_entries]
      exact OrderedSet.nodup_of_pairwise g.nonTerminals.increasing_keys
    rw [split, List.map_append, List.map_cons] at distinct
    intro earlier among
    exact (List.nodup_append.1 distinct).2.2 _ (List.mem_map_of_mem among) _ List.mem_cons_self
  have absent : ¬ entry.name ∈ table.rows := by
    rw [inv.heads]
    rintro ⟨earlier, among, same⟩
    exact new earlier among same
  -- the row is new, and no earlier row is written to again
  obtain ⟨table', done, same, holds⟩ := exists_writeRow known held absent
  refine ⟨table', done, same.columns.trans inv.columns, fun head => ?_, ?_⟩
  · simp only [List.mem_append, List.mem_singleton, or_and_right, exists_or, exists_eq_left]
    rw [← inv.heads]
    by_cases here : entry.name = head
    · subst here
      exact iff_of_true holds.listed (.inr rfl)
    · rw [same.rows head (Ne.symm here)]
      exact (or_iff_left here).symm
  · refine List.forall_mem_append.2 ⟨fun earlier among => ?_, List.forall_mem_singleton.2 holds⟩
    exact (inv.rows earlier among).sameBut same (new earlier among)

/-- The table answers, with the bodies that their lookaheads call for by the stored sets. -/
theorem exists_tableOfStored (known : g.BodiesKnown) (named : g.Named) :
    ∃ table, g.tableOfStored = .ok table ∧ table.Tabulates g g.Calls := by
  obtain ⟨table, done, columns, heads, rows⟩ := exists_rows known named
  have all (head : Symbol) : head ∈ table.rows ↔ head ∈ g.names := by
    rw [heads, ← named.map_name_entries, List.mem_map]
  have cell (head t : Symbol) : (table.entries head t).Sublist (g.bodies head).toList ∧
      ∀ b, b ∈ table.entries head t ↔ b ∈ g.bodies head ∧ g.Calls head b t := by
    by_cases named' : head ∈ g.names
    · obtain ⟨entry, listed, rfl⟩ := (heads head).1 ((all head).2 named')
      have bodies : g.bodies entry.name = entry.productions := by
        rw [Grammar.bodies, named.get?_of_mem_entries listed]
      rw [bodies]
      exact ⟨(rows entry listed).ordered t, (rows entry listed).called t⟩
    · rw [ParseTable.entries_of_not_mem (mt (all head).1 named')]
      refine ⟨List.nil_sublist _, fun b => iff_of_false List.not_mem_nil ?_⟩
      exact fun called => named' (mem_names_of_mem_bodies called.1)
  exact ⟨table, done,
    { heads := OrderedMap.keys_eq_of_mem_iff all
      columns
      increasing := fun head t => (g.bodies head).ordered.sublist (cell head t).1
      cells := fun head t => (cell head t).2 }⟩

end Grammar

end Predictive
