import Predictive.Grammar.Follow
import Predictive.Proofs.Grammar.WellFormed

set_option autoImplicit false

namespace Predictive

namespace Grammar

/-- The stored FIRST set of a non-terminal: empty if it is none. -/
def storedFirst (g : Grammar) (name : Symbol) : OrderedSet Symbol :=
  match g.nonTerminals.get? name with
  | some entry => entry.first
  | none => ∅

/-- The stored FOLLOW set of a non-terminal: empty if it is none. -/
def storedFollow (g : Grammar) (name : Symbol) : OrderedSet Symbol :=
  match g.nonTerminals.get? name with
  | some entry => entry.follow
  | none => ∅

/-- Whether a non-terminal is stored as one that can be empty. -/
def storedNullable (g : Grammar) (name : Symbol) : Bool :=
  match g.nonTerminals.get? name with
  | some entry => entry.nullable
  | none => false

/-- The name that the entry of a non-terminal carries. -/
def entryName (g : Grammar) (key : Symbol) : Symbol :=
  match g.nonTerminals.get? key with
  | some entry => entry.name
  | none => key

/-- The grammars differ in nothing but the stored sets and the flag. -/
structure SameRules (g g' : Grammar) : Prop where
  start : g'.start = g.start
  terminals : g'.terminals = g.terminals
  names : g'.names = g.names
  entryNames : ∀ key, g'.entryName key = g.entryName key
  bodies : ∀ name, g'.bodies name = g.bodies name

variable {g g' g'' : Grammar}

theorem named_iff : g.Named ↔ ∀ key, g.entryName key = key := by
  refine forall_congr' fun key => ?_
  rw [entryName]
  cases g.nonTerminals.get? key with
  | none => simp
  | some entry => simp

theorem SameRules.refl (g : Grammar) : g.SameRules g := ⟨rfl, rfl, rfl, fun _ => rfl, fun _ => rfl⟩

theorem SameRules.symm (same : g.SameRules g') : g'.SameRules g :=
  ⟨same.start.symm, same.terminals.symm, same.names.symm, fun key => (same.entryNames key).symm,
    fun name => (same.bodies name).symm⟩

theorem SameRules.trans (first : g.SameRules g') (second : g'.SameRules g'') : g.SameRules g'' where
  start := second.start.trans first.start
  terminals := second.terminals.trans first.terminals
  names := second.names.trans first.names
  entryNames key := (second.entryNames key).trans (first.entryNames key)
  bodies name := (second.bodies name).trans (first.bodies name)

theorem SameRules.allSymbols (same : g.SameRules g') : g'.allSymbols = g.allSymbols := by
  rw [Grammar.allSymbols, Grammar.allSymbols, same.names, same.terminals]

theorem SameRules.passBound (same : g.SameRules g') : g'.passBound = g.passBound := by
  rw [Grammar.passBound, Grammar.passBound, same.names, same.terminals]

theorem SameRules.named (same : g.SameRules g') (named : g.Named) : g'.Named := by
  rw [named_iff] at named ⊢
  intro key
  rw [same.entryNames, named]

theorem SameRules.wellFormed (same : g.SameRules g') (valid : g.WellFormed) : g'.WellFormed where
  named := same.named valid.named
  start := by
    rw [same.start, same.names]
    exact valid.start
  disjoint s := by
    rw [same.names, same.terminals]
    exact valid.disjoint s
  noEpsilon := by
    rw [same.allSymbols]
    exact valid.noEpsilon
  noEndMark := by
    rw [same.allSymbols]
    exact valid.noEndMark
  inhabited name := by
    rw [same.names, same.bodies]
    exact valid.inhabited name
  fits name b := by
    rw [same.bodies, Fits, same.allSymbols]
    exact valid.fits name b

theorem SameRules.derives (same : g.SameRules g') {u v : List Symbol} (derived : g.Derives u v) :
    g'.Derives u v := by
  induction derived with
  | nil => exact .nil
  | keep s _ ih => exact .keep s ih
  | expand inside _ _ ihFront ihRest =>
      rw [← same.bodies] at inside
      exact .expand inside ihFront ihRest

theorem SameRules.mem_nonTerminals_iff (same : g.SameRules g') {name : Symbol} :
    name ∈ g'.nonTerminals ↔ name ∈ g.nonTerminals := by
  rw [← mem_names, ← mem_names, same.names]

theorem SameRules.generates_iff (same : g.SameRules g') {name : Symbol} {w : List Symbol} :
    g.Generates name w ↔ g'.Generates name w := by
  simp only [Generates, same.mem_nonTerminals_iff]
  exact and_congr_left fun _ => ⟨same.derives, same.symm.derives⟩

theorem ext_stored (same : g.SameRules g') (flag : g'.firstFollowValid = g.firstFollowValid)
    (first : ∀ name, g'.storedFirst name = g.storedFirst name)
    (follow : ∀ name, g'.storedFollow name = g.storedFollow name)
    (nullable : ∀ name, g'.storedNullable name = g.storedNullable name) : g' = g := by
  have entries : g'.nonTerminals = g.nonTerminals := by
    ext1 name
    have title := same.entryNames name
    have bodies := same.bodies name
    have first := first name
    have follow := follow name
    have nullable := nullable name
    have known : name ∈ g'.nonTerminals ↔ name ∈ g.nonTerminals := same.mem_nonTerminals_iff
    simp only [entryName, Grammar.bodies, storedFirst, storedFollow, storedNullable] at *
    cases left : g'.nonTerminals.get? name with
    | none =>
        have absent := OrderedMap.get?_eq_none_iff.1 left
        rw [known] at absent
        exact (OrderedMap.get?_eq_none_iff.2 absent).symm
    | some entry' =>
        have present := known.1 (OrderedMap.mem_of_get?_eq_some left)
        cases right : g.nonTerminals.get? name with
        | none => exact absurd present (OrderedMap.get?_eq_none_iff.1 right)
        | some entry =>
            simp only [left, right] at title bodies first follow nullable
            cases entry
            cases entry'
            simp only at title bodies first follow nullable
            rw [title, bodies, first, follow, nullable]
  cases g
  cases g'
  obtain ⟨rfl, rfl, -, -, -⟩ := same
  simp only at flag entries
  rw [flag, entries]

theorem exists_entry {name : Symbol} (named : name ∈ g.names) :
    ∃ entry, g.nonTerminals.get? name = some entry := by
  cases found : g.nonTerminals.get? name with
  | none => exact absurd named (OrderedMap.get?_eq_none_iff.1 found)
  | some entry => exact ⟨entry, rfl⟩

section Overwrite

variable {β : Type} {read : NonTerminal → β} {absent : β} {name other : Symbol}
  {change : NonTerminal → NonTerminal}

/-- What is read off the entry of a non-terminal, if it has one. -/
def reading (g : Grammar) (read : NonTerminal → β) (absent : β) (name : Symbol) : β :=
  match g.nonTerminals.get? name with
  | some entry => read entry
  | none => absent

theorem reading_of_not_mem (unnamed : name ∉ g.names) : g.reading read absent name = absent := by
  rw [reading, OrderedMap.get?_eq_none_iff.2 unnamed]

theorem reading_overwrite
    (keeps : ∀ entry, read { change entry with name := entry.name } = read entry) :
    (g.overwrite name change).reading read absent other = g.reading read absent other := by
  simp only [reading, overwrite, OrderedMap.get?_modify]
  by_cases same : other = name
  · rw [if_pos same]
    cases g.nonTerminals.get? other with
    | none => rfl
    | some entry => exact keeps entry
  · rw [if_neg same]

theorem reading_overwrite_set {value : β} (named : name ∈ g.names)
    (sets : ∀ entry, read { change entry with name := entry.name } = value) :
    (g.overwrite name change).reading read absent other =
      if other = name then value else g.reading read absent other := by
  simp only [reading, overwrite, OrderedMap.get?_modify]
  by_cases same : other = name
  · obtain ⟨entry, found⟩ := exists_entry named
    rw [if_pos same, if_pos same, same, found]
    exact sets entry
  · rw [if_neg same, if_neg same]

theorem sameRules_overwrite
    (bodies : ∀ entry, (change entry).productions = entry.productions) :
    g.SameRules (g.overwrite name change) where
  start := rfl
  terminals := rfl
  names := names_overwrite g name change
  entryNames _ := reading_overwrite fun _ => rfl
  bodies _ := reading_overwrite bodies

end Overwrite

theorem storedFirst_of_not_mem {name : Symbol} (unnamed : name ∉ g.names) :
    g.storedFirst name = ∅ := reading_of_not_mem unnamed

theorem storedFollow_of_not_mem {name : Symbol} (unnamed : name ∉ g.names) :
    g.storedFollow name = ∅ := reading_of_not_mem unnamed

end Grammar

end Predictive
