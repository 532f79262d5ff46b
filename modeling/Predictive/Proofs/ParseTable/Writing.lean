import Predictive.ParseTable

set_option autoImplicit false

namespace Predictive

namespace ParseTable

variable {t t' t'' : ParseTable} {head other label terminal : Symbol} {b : Body}

theorem entries_of_not_mem (absent : ¬ head ∈ t.rows) : t.entries head label = [] := by
  rw [entries, OrderedMap.get?_eq_none_iff.2 absent]

theorem entries_eq_getD (t : ParseTable) (head label : Symbol) :
    t.entries head label = (((t.rows.get? head).getD default).get? label).getD default := by
  rw [entries]
  cases t.rows.get? head <;> rfl

theorem mem_addRow : other ∈ (t.addRow head).rows ↔ other = head ∨ other ∈ t.rows :=
  OrderedMap.mem_insert

@[simp] theorem entries_addRow (t : ParseTable) (head other label : Symbol) :
    (t.addRow head).entries other label = t.entries other label := by
  rw [entries_eq_getD, entries_eq_getD, addRow, OrderedMap.get?_update]
  by_cases row : other = head
  · subst row
    rw [if_pos rfl, id, Option.getD_some]
  · rw [if_neg row]

theorem entries_insert (t : ParseTable) (head terminal : Symbol) (b : Body) (other label : Symbol) :
    (t.insert head terminal b).entries other label =
      if other = head ∧ label = terminal ∧ b ∉ t.entries other label then
        t.entries other label ++ [b]
      else t.entries other label := by
  rw [entries_eq_getD, entries_eq_getD, insert, OrderedMap.get?_update]
  by_cases row : other = head
  · subst row
    rw [if_pos rfl, Option.getD_some, OrderedMap.get?_update]
    by_cases column : label = terminal
    · subst column
      simp only [if_true, Option.getD_some, true_and, ite_not]
    · simp only [column, if_false, false_and, and_false]
  · simp only [row, if_false, false_and]

/-- A body that is written twice under a terminal stands there once. -/
theorem entries_insertAll (t : ParseTable) (head : Symbol) (b : Body) (terminals : List Symbol)
    (other label : Symbol) : (t.insertAll head b terminals).entries other label =
      if other = head ∧ label ∈ terminals ∧ b ∉ t.entries other label then
        t.entries other label ++ [b]
      else t.entries other label := by
  induction terminals generalizing t with
  | nil => simp [insertAll]
  | cons terminal terminals ih =>
      have step : t.insertAll head b (terminal :: terminals) =
        (t.insert head terminal b).insertAll head b terminals := rfl
      rw [step, ih, entries_insert]
      grind

theorem insertAll_append (t : ParseTable) (head : Symbol) (b : Body) (front back : List Symbol) :
    t.insertAll head b (front ++ back) = (t.insertAll head b front).insertAll head b back :=
  List.foldl_append

/-- The tables differ in nothing but the row of `head`, which is not lost. -/
structure SameBut (head : Symbol) (t t' : ParseTable) : Prop where
  columns : t'.terminals = t.terminals
  kept : head ∈ t.rows → head ∈ t'.rows
  rows : ∀ other, other ≠ head → (other ∈ t'.rows ↔ other ∈ t.rows)
  cells : ∀ other label, other ≠ head → t'.entries other label = t.entries other label

theorem SameBut.refl (head : Symbol) (t : ParseTable) : SameBut head t t :=
  ⟨rfl, id, fun _ _ => Iff.rfl, fun _ _ _ => rfl⟩

theorem SameBut.trans (first : SameBut head t t') (second : SameBut head t' t'') :
    SameBut head t t'' where
  columns := second.columns.trans first.columns
  kept here := second.kept (first.kept here)
  rows other apart := (second.rows other apart).trans (first.rows other apart)
  cells other label apart := (second.cells other label apart).trans (first.cells other label apart)

theorem sameBut_addRow (t : ParseTable) (head : Symbol) : SameBut head t (t.addRow head) where
  columns := rfl
  kept _ := mem_addRow.2 (.inl rfl)
  rows _ apart := mem_addRow.trans (or_iff_right apart)
  cells other label _ := entries_addRow t head other label

theorem sameBut_insertAll (t : ParseTable) (head : Symbol) (b : Body) (terminals : List Symbol) :
    SameBut head t (t.insertAll head b terminals) := by
  induction terminals generalizing t with
  | nil => exact .refl head t
  | cons terminal terminals ih =>
      refine SameBut.trans ?_ (ih (t.insert head terminal b))
      exact
        { columns := rfl
          kept := fun _ => OrderedMap.mem_insert.2 (.inl rfl)
          rows := fun _ apart => OrderedMap.mem_insert.trans (or_iff_right apart)
          cells := fun other label apart => by
            rw [entries_insert, if_neg fun same => apart same.1] }

end ParseTable

end Predictive
