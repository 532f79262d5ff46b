import Predictive.Proofs.Collection.Traversal
import Predictive.Proofs.FirstFollow.Stored
import Mathlib.Tactic.Tauto

set_option autoImplicit false

namespace Predictive

namespace Grammar

/-- Whether `t` is among the marks of a sequence by the stored FIRST sets: a terminal that it begins
with, or `&` if all of it can be empty. -/
def Begins (g : Grammar) (t : Symbol) : List Symbol → Prop
  | [] => t = epsilon
  | s :: rest =>
    if s = epsilon then g.Begins t rest
    else if s ∈ g.names then
      t ≠ epsilon ∧ t ∈ g.storedFirst s ∨ epsilon ∈ g.storedFirst s ∧ g.Begins t rest
    else t = s

variable {g g' : Grammar} {s t : Symbol}

@[simp] theorem begins_nil : g.Begins t [] ↔ t = epsilon := Iff.rfl

theorem begins_epsilon_cons {rest : List Symbol} :
    g.Begins t (epsilon :: rest) ↔ g.Begins t rest := by
  rw [Begins, if_pos rfl]

theorem begins_name_cons {rest : List Symbol} (other : s ≠ epsilon) (named : s ∈ g.names) :
    g.Begins t (s :: rest) ↔
      t ≠ epsilon ∧ t ∈ g.storedFirst s ∨ epsilon ∈ g.storedFirst s ∧ g.Begins t rest := by
  rw [Begins, if_neg other, if_pos named]

theorem begins_terminal_cons {rest : List Symbol} (other : s ≠ epsilon) (unnamed : s ∉ g.names) :
    g.Begins t (s :: rest) ↔ t = s := by
  rw [Begins, if_neg other, if_neg unnamed]

theorem begins_symbols_iff {u : List Symbol} : g.Begins t (Body.symbols u) ↔ g.Begins t u := by
  induction u with
  | nil => rfl
  | cons s u ih =>
      by_cases mark : s = epsilon
      · subst mark
        rw [begins_epsilon_cons, ← ih]
        simp [Body.symbols]
      · have kept : Body.symbols (s :: u) = s :: Body.symbols u := by simp [Body.symbols, mark]
        rw [kept]
        by_cases named : s ∈ g.names
        · rw [begins_name_cons mark named, begins_name_cons mark named, ih]
        · rw [begins_terminal_cons mark named, begins_terminal_cons mark named]

/-- More marks are stored for the non-terminals. -/
def FirstGrows (g g' : Grammar) : Prop := ∀ name, ∀ t ∈ g.storedFirst name, t ∈ g'.storedFirst name

theorem FirstGrows.begins (grows : g.FirstGrows g') (names : g'.names = g.names)
    {u : List Symbol} (begins : g.Begins t u) : g'.Begins t u := by
  induction u with
  | nil => exact begins
  | cons s u ih =>
      by_cases mark : s = epsilon
      · subst mark
        rw [begins_epsilon_cons] at begins ⊢
        exact ih begins
      · by_cases named : s ∈ g.names
        · rw [begins_name_cons mark named] at begins
          rw [begins_name_cons mark (names ▸ named)]
          exact begins.imp (And.imp_right (grows s t)) (And.imp (grows s epsilon) ih)
        · rw [begins_terminal_cons mark named] at begins
          rwa [begins_terminal_cons mark (names ▸ named)]

theorem begins_congr (names : g'.names = g.names)
    (first : ∀ name, g'.storedFirst name = g.storedFirst name) {u : List Symbol} :
    g'.Begins t u ↔ g.Begins t u := by
  constructor
  · refine FirstGrows.begins (fun name t inside => ?_) names.symm
    rwa [first] at inside
  · refine FirstGrows.begins (fun name t inside => ?_) names
    rwa [first]

theorem storedFirst_eq {entry : NonTerminal} (found : g.nonTerminals.get? s = some entry) :
    g.storedFirst s = entry.first := by
  rw [storedFirst, found]

/-- A sequence over the symbols of the grammar and `&`. -/
def Known (g : Grammar) (u : List Symbol) : Prop := ∀ s ∈ u, s = epsilon ∨ s ∈ g.allSymbols

theorem exists_firstOf {u : List Symbol} (known : g.Known u) :
    ∃ marks, g.firstOf u = .ok marks := by
  induction u with
  | nil => exact ⟨_, rfl⟩
  | cons s u ih =>
      obtain ⟨first, rest⟩ := List.forall_mem_cons.1 known
      obtain ⟨marks, following⟩ := ih rest
      rw [firstOf]
      split
      case isTrue => exact ⟨marks, following⟩
      case isFalse mark =>
        split
        case h_1 entry _ =>
          rw [following]
          split
          · exact ⟨_, rfl⟩
          · exact ⟨_, rfl⟩
        case h_2 missing =>
          have unnamed : s ∉ g.names := OrderedMap.get?_eq_none_iff.1 missing
          have terminal := (mem_allSymbols.1 (first.resolve_left mark)).resolve_left unnamed
          exact ⟨{s}, by rw [if_pos terminal]⟩

theorem mem_firstOf {u : List Symbol} {marks : OrderedSet Symbol} (done : g.firstOf u = .ok marks) :
    t ∈ marks ↔ g.Begins t u := by
  induction u generalizing marks with
  | nil =>
      obtain rfl := Except.ok.inj done
      exact OrderedSet.mem_singleton
  | cons s u ih =>
      rw [firstOf] at done
      split at done
      case isTrue mark =>
        subst mark
        rw [begins_epsilon_cons]
        exact ih done
      case isFalse mark =>
        split at done
        case h_1 entry found =>
          have named : s ∈ g.names := OrderedMap.mem_of_get?_eq_some found
          rw [begins_name_cons mark named, storedFirst_eq found]
          split at done
          case isTrue nullable =>
            obtain ⟨following, rest, done⟩ := bind_eq_ok_iff.1 done
            obtain rfl := pure_eq_ok_iff.1 done
            simp only [OrderedSet.mem_union, OrderedSet.mem_erase, ih rest, nullable, true_and,
              and_comm]
          case isFalse never =>
            obtain rfl := Except.ok.inj done
            simp only [never, false_and, or_false]
            constructor
            · intro inside
              exact ⟨fun same => never (same ▸ inside), inside⟩
            · exact And.right
        case h_2 missing =>
          have unnamed : s ∉ g.names := OrderedMap.get?_eq_none_iff.1 missing
          rw [begins_terminal_cons mark unnamed]
          split at done
          case isTrue =>
            obtain rfl := Except.ok.inj done
            exact OrderedSet.mem_singleton
          case isFalse => contradiction

end Grammar

end Predictive
