import Predictive.Grammar.Basic
import Predictive.ParseTable
import Predictive.Proofs.Collection.Size
import Mathlib.Data.List.Nodup

set_option autoImplicit false

namespace Predictive

namespace ParseTable

variable {t : ParseTable} {head terminal : Symbol}

theorem entries_eq_of_mem {row : OrderedMap Symbol (List Body)} {bodies : List Body}
    (inside : (head, row) ∈ t.rows.toList) (among : (terminal, bodies) ∈ row.toList) :
    t.entries head terminal = bodies := by
  rw [entries, OrderedMap.get?_eq_some_iff.2 inside]
  simp only [OrderedMap.get?_eq_some_iff.2 among, Option.getD_some]

theorem exists_row_of_entries_ne_nil (some : t.entries head terminal ≠ []) :
    ∃ row, (head, row) ∈ t.rows.toList ∧ (terminal, t.entries head terminal) ∈ row.toList := by
  rw [entries] at some ⊢
  cases found : t.rows.get? head with
  | none => simp [found] at some
  | some row =>
      simp only [found] at some ⊢
      cases cell : row.get? terminal with
      | none => simp [cell] at some
      | some bodies =>
          refine ⟨row, OrderedMap.get?_eq_some_iff.1 found, ?_⟩
          exact OrderedMap.get?_eq_some_iff.1 cell

theorem mem_conflicts_iff {c : Conflict} :
    c ∈ t.conflicts ↔ c.bodies = t.entries c.head c.terminal ∧ 1 < c.bodies.length := by
  simp only [conflicts, List.mem_flatMap, List.mem_map, List.mem_filter, decide_eq_true_eq]
  constructor
  · intro listed
    obtain ⟨row, inside, cell, ⟨among, several⟩, rfl⟩ := listed
    exact ⟨(entries_eq_of_mem inside among).symm, several⟩
  · intro cell
    obtain ⟨same, several⟩ := cell
    have some : t.entries c.head c.terminal ≠ [] := by
      intro nothing
      simp [same, nothing] at several
    obtain ⟨row, inside, among⟩ := exists_row_of_entries_ne_nil some
    rw [← same] at among
    exact ⟨(c.head, row), inside, (c.terminal, c.bodies), ⟨among, several⟩, rfl⟩

theorem isLL1_iff : t.isLL1 = true ↔ ∀ head terminal, (t.entries head terminal).length ≤ 1 := by
  rw [isLL1, List.isEmpty_iff, List.eq_nil_iff_forall_not_mem]
  simp only [mem_conflicts_iff, not_and, Nat.not_lt]
  constructor
  · intro small head terminal
    exact small ⟨head, terminal, t.entries head terminal⟩ rfl
  · intro small c same
    rw [same]
    exact small c.head c.terminal

theorem nodup_conflicts (t : ParseTable) : t.conflicts.Nodup := by
  have apart {x y : Symbol} (below : compare x y = .lt) : x ≠ y := by
    intro same
    rw [same, Std.compare_self] at below
    contradiction
  rw [conflicts, List.nodup_flatMap]
  constructor
  · intro row _
    refine List.Pairwise.map _ (fun x y below same => ?_) (row.2.ordered.sublist List.filter_sublist)
    exact apart below (Conflict.mk.inj same).2.1
  · refine t.rows.ordered.imp fun {x y} below => ?_
    intro c left right
    obtain ⟨_, _, rfl⟩ := List.mem_map.1 left
    obtain ⟨_, _, same⟩ := List.mem_map.1 right
    exact apart below (Conflict.mk.inj same).1.symm

theorem get?_eq_some {b : Body} (ll1 : t.isLL1 = true) (inside : b ∈ t.entries head terminal) :
    t.get? head terminal = some b := by
  have small : (t.entries head terminal).length ≤ 1 := isLL1_iff.1 ll1 head terminal
  rw [get?]
  match cell : t.entries head terminal with
  | [] => simp [cell] at inside
  | [c] =>
      rw [cell, List.mem_singleton] at inside
      rw [inside]
      rfl
  | c :: d :: rest => simp [cell] at small

theorem getLast?_eq_some_iff_of_increasing {α : Type} [Ord α] [Std.OrientedOrd α] {l : List α}
    {x : α} (increasing : l.Pairwise fun y z => compare y z = .lt) :
    l.getLast? = some x ↔ x ∈ l ∧ ∀ y ∈ l, y = x ∨ compare y x = .lt := by
  constructor
  · intro last
    obtain ⟨init, rfl⟩ := List.getLast?_eq_some_iff.1 last
    refine ⟨by simp, fun y among => ?_⟩
    rcases List.mem_append.1 among with before | here
    · exact .inr ((List.pairwise_append.1 increasing).2.2 y before x (by simp))
    · exact .inl (List.mem_singleton.1 here)
  · intro greatest
    obtain ⟨inside, above⟩ := greatest
    obtain ⟨init, last, rfl⟩ := List.append_of_mem inside
    cases last with
    | nil => simp
    | cons y rest =>
        have later : y ∈ init ++ x :: y :: rest := by simp
        have below : compare x y = .lt := by
          have tail := (List.pairwise_append.1 increasing).2.1
          exact (List.pairwise_cons.1 tail).1 y List.mem_cons_self
        rcases above y later with rfl | under
        · rw [Std.compare_self] at below
          contradiction
        · exact absurd below (Std.OrientedCmp.not_lt_of_lt under)

variable {g : Grammar} {P : Symbol → Body → Symbol → Prop}

/-- The rows are those of the non-terminals of `g`, the columns those of its terminals and the end
mark, and a cell lists in increasing order the bodies of its head that `P` puts under its
lookahead. -/
structure Tabulates (t : ParseTable) (g : Grammar) (P : Symbol → Body → Symbol → Prop) : Prop where
  heads : t.nonTerminals = g.names
  columns : t.terminals = g.terminals.toList ++ [endMark]
  increasing : ∀ head terminal, (t.entries head terminal).Pairwise fun b c => compare b c = .lt
  cells : ∀ head terminal b,
    b ∈ t.entries head terminal ↔ b ∈ g.bodies head ∧ P head b terminal

namespace Tabulates

variable (tabulates : t.Tabulates g P)

include tabulates

/-- The relation may be replaced by one that is the same on the bodies, and the grammar by one with
the same rules. -/
theorem congr {g' : Grammar} {Q : Symbol → Body → Symbol → Prop} (names : g'.names = g.names)
    (terminals : g'.terminals = g.terminals) (bodies : ∀ name, g'.bodies name = g.bodies name)
    (same : ∀ head, ∀ b ∈ g.bodies head, ∀ terminal, P head b terminal ↔ Q head b terminal) :
    t.Tabulates g' Q where
  heads := by rw [names, tabulates.heads]
  columns := by rw [terminals, tabulates.columns]
  increasing := tabulates.increasing
  cells head terminal b := by
    rw [tabulates.cells, bodies]
    exact and_congr_right fun inside => same head b inside terminal

theorem own (head terminal : Symbol) (b : Body) (held : b ∈ t.entries head terminal) :
    b ∈ g.bodies head :=
  ((tabulates.cells head terminal b).1 held).1

theorem get?_eq_some_iff {b : Body} : t.get? head terminal = some b ↔
    b ∈ t.entries head terminal ∧ ∀ c ∈ t.entries head terminal, c = b ∨ compare c b = .lt :=
  getLast?_eq_some_iff_of_increasing (tabulates.increasing head terminal)

theorem isLL1_iff : t.isLL1 = true ↔ ∀ head, ∀ b ∈ g.bodies head, ∀ b' ∈ g.bodies head, b ≠ b' →
    ∀ terminal, ¬ (P head b terminal ∧ P head b' terminal) := by
  have alike (head terminal : Symbol) : (t.entries head terminal).length ≤ 1 ↔
      ∀ b ∈ t.entries head terminal, ∀ b' ∈ t.entries head terminal, b = b' :=
    length_le_one_iff_of_nodup (OrderedSet.nodup_of_pairwise (tabulates.increasing head terminal))
  simp only [ParseTable.isLL1_iff, alike, tabulates.cells]
  constructor
  · intro same head b inside b' inside' other terminal both
    exact other (same head terminal b ⟨inside, both.1⟩ b' ⟨inside', both.2⟩)
  · intro disjoint head terminal b called b' called'
    by_contra other
    exact disjoint head b called.1 b' called'.1 other terminal ⟨called.2, called'.2⟩

end Tabulates

end ParseTable

end Predictive
