import Predictive.Grammar.Derivation

set_option autoImplicit false

namespace Predictive

namespace Grammar

/-- A body as the grammar may hold it: in normal form, over symbols of the grammar. -/
def Fits (g : Grammar) (b : Body) : Prop :=
  Body.IsNormal b ∧ ∀ s ∈ Body.symbols b, s ∈ g.allSymbols

/-- Every entry carries the name that it is held under. -/
def Named (g : Grammar) : Prop :=
  ∀ key entry, g.nonTerminals.get? key = some entry → entry.name = key

structure WellFormed (g : Grammar) : Prop where
  named : g.Named
  start : g.start ∈ g.names
  disjoint : ∀ s ∈ g.names, ¬ s ∈ g.terminals
  noEpsilon : epsilon ∉ g.allSymbols
  noEndMark : endMark ∉ g.allSymbols
  inhabited : ∀ name ∈ g.names, ∃ b, b ∈ g.bodies name
  fits : ∀ name, ∀ b ∈ g.bodies name, g.Fits b

theorem mem_allSymbols {g : Grammar} {s : Symbol} :
    s ∈ g.allSymbols ↔ s ∈ g.names ∨ s ∈ g.terminals := List.mem_append

theorem mem_names_of_mem_bodies {g : Grammar} {name : Symbol} {b : Body}
    (inside : b ∈ g.bodies name) : name ∈ g.names := by
  unfold bodies at inside
  split at inside
  case h_1 entry found => exact OrderedMap.mem_of_get?_eq_some found
  case h_2 => exact absurd inside (OrderedSet.not_mem_empty b)

@[simp] theorem allSymbols_setBodies (g : Grammar) (head : Symbol) (bodies : OrderedSet Body) :
    (g.setBodies head bodies).allSymbols = g.allSymbols := by
  simp only [allSymbols, names_setBodies]
  rfl

theorem fits_normalize {g : Grammar} {b : Body} (known : ∀ s ∈ Body.symbols b, s ∈ g.allSymbols) :
    g.Fits (Body.normalize b) :=
  ⟨Body.isNormal_normalize b, by simpa only [Body.symbols_normalize] using known⟩

theorem fits_join {g : Grammar} {front back : Body}
    (left : ∀ s ∈ Body.symbols front, s ∈ g.allSymbols)
    (right : ∀ s ∈ Body.symbols back, s ∈ g.allSymbols) : g.Fits (Body.join front back) := by
  apply fits_normalize
  intro s inside
  rw [Body.symbols_append, List.mem_append] at inside
  exact inside.elim (left s) (right s)

variable {g g' : Grammar}

theorem Named.setBodies (named : g.Named) (head : Symbol) (bodies : OrderedSet Body) :
    (g.setBodies head bodies).Named := by
  intro key entry found
  simp only [Grammar.setBodies, OrderedMap.get?_modify] at found
  split at found
  case isTrue =>
    obtain ⟨old, held, rfl⟩ := Option.map_eq_some_iff.1 found
    exact named key old held
  case isFalse => exact named key entry found

theorem Named.addNonTerminal (named : g.Named) (name : Symbol) (bodies : OrderedSet Body) :
    (g.addNonTerminal name bodies).Named := by
  intro key entry found
  simp only [Grammar.addNonTerminal, OrderedMap.get?_insert] at found
  split at found
  case isTrue same =>
    obtain rfl := Option.some.inj found
    exact same.symm
  case isFalse => exact named key entry found

theorem Fits.symbols_eq {b : Body} (fit : g.Fits b) (some : Body.symbols b ≠ []) :
    Body.symbols b = b := by
  rcases fit.1 with rfl | ⟨-, without⟩
  · simp [Body.symbols] at some
  · exact Body.symbols_of_not_mem without

theorem Fits.isPrefix_of_symbols {b : Body} {shared rest : List Symbol} (fit : g.Fits b)
    (split : Body.symbols b = shared ++ rest) : shared <+: b := by
  by_cases some : Body.symbols b = []
  · rw [some] at split
    rw [(List.append_eq_nil_iff.1 split.symm).1]
    exact List.nil_prefix
  · rw [fit.symbols_eq some] at split
    exact ⟨rest, split.symm⟩

theorem Fits.eq_of_symbols {b c : Body} (fit : g.Fits b) (fit' : g.Fits c)
    (same : Body.symbols b = Body.symbols c) : b = c := by
  rw [← Body.normalize_of_isNormal fit.1, ← Body.normalize_of_isNormal fit'.1, Body.normalize,
    Body.normalize, same]

/-- What two different bodies that fit begin with alike is written without `&`. -/
theorem Fits.symbols_shared {b c shared : Body} (fit : g.Fits b) (fit' : g.Fits c) (other : b ≠ c)
    (begins : shared <+: b) (begins' : shared <+: c) : Body.symbols shared = shared := by
  apply Body.symbols_of_not_mem
  intro inside
  rcases fit.1 with rfl | ⟨-, without⟩
  · rcases fit'.1 with rfl | ⟨-, without⟩
    · exact other rfl
    · exact without (begins'.subset inside)
  · exact without (begins.subset inside)

theorem Fits.begins_iff {b : Body} {s : Symbol} (fit : g.Fits b) (other : s ≠ epsilon) :
    (∃ rest, b = s :: rest) ↔ ∃ rest, Body.symbols b = s :: rest := by
  constructor
  · intro begins
    obtain ⟨rest, rfl⟩ := begins
    exact ⟨Body.symbols rest, by simp [Body.symbols, other]⟩
  · intro begins
    obtain ⟨rest, split⟩ := begins
    exact ⟨rest, by rw [← split, fit.symbols_eq (by simp [split])]⟩

theorem WellFormed.not_terminal (valid : g.WellFormed) {s : Symbol} (inside : s ∈ g.terminals) :
    s ∉ g.names := fun named => valid.disjoint s named inside

theorem WellFormed.ne_epsilon_of_mem (valid : g.WellFormed) {s : Symbol}
    (known : s ∈ g.allSymbols) : s ≠ epsilon := by
  intro same
  subst same
  exact valid.noEpsilon known

theorem WellFormed.ne_endMark_of_mem (valid : g.WellFormed) {s : Symbol}
    (known : s ∈ g.allSymbols) : s ≠ endMark := by
  intro same
  subst same
  exact valid.noEndMark known

theorem WellFormed.ne_epsilon (valid : g.WellFormed) {s : Symbol} (known : s ∈ g.names) :
    s ≠ epsilon := valid.ne_epsilon_of_mem (mem_allSymbols.2 (.inl known))

theorem WellFormed.known_around (valid : g.WellFormed) {name s : Symbol} {b : Body}
    {front rest : List Symbol} (inside : b ∈ g.bodies name)
    (split : Body.symbols b = front ++ s :: rest) :
    s ∈ g.allSymbols ∧ ∀ r ∈ rest, r ∈ g.allSymbols := by
  have known := (valid.fits name b inside).2
  rw [split, List.forall_mem_append, List.forall_mem_cons] at known
  exact known.2

theorem WellFormed.setBodies (valid : g.WellFormed) {head : Symbol} {bodies : OrderedSet Body}
    (known : head ∈ g.names) (some : ∃ b, b ∈ bodies) (fit : ∀ b ∈ bodies, g.Fits b) :
    (g.setBodies head bodies).WellFormed where
  named := valid.named.setBodies head bodies
  start := by
    rw [names_setBodies]
    exact valid.start
  disjoint s named := valid.disjoint s (by rwa [names_setBodies] at named)
  noEpsilon := by
    rw [allSymbols_setBodies]
    exact valid.noEpsilon
  noEndMark := by
    rw [allSymbols_setBodies]
    exact valid.noEndMark
  inhabited name named := by
    rw [names_setBodies] at named
    rw [bodies_setBodies known]
    split
    case isTrue => exact some
    case isFalse => exact valid.inhabited name named
  fits name b inside := by
    rw [Fits, allSymbols_setBodies]
    rw [bodies_setBodies known] at inside
    split at inside
    case isTrue => exact fit b inside
    case isFalse => exact valid.fits name b inside

/-- What every rewriting of a grammar does to it as a whole: names are only added, and the stored
sets are declared out of date unless nothing happened. -/
structure Rewrites (g g' : Grammar) : Prop where
  wellFormed : g'.WellFormed
  start : g'.start = g.start
  terminals : g'.terminals = g.terminals
  names : ∀ name ∈ g.names, name ∈ g'.names
  stale : g' = g ∨ g'.firstFollowValid = false

theorem Rewrites.refl (valid : g.WellFormed) : g.Rewrites g where
  wellFormed := valid
  start := rfl
  terminals := rfl
  names _ named := named
  stale := .inl rfl

theorem Rewrites.mem_allSymbols (rewrites : g.Rewrites g') {s : Symbol}
    (known : s ∈ g.allSymbols) : s ∈ g'.allSymbols := by
  rw [Grammar.mem_allSymbols] at known ⊢
  rw [rewrites.terminals]
  exact known.imp_left (rewrites.names s)

theorem Rewrites.trans {g'' : Grammar} (first : g.Rewrites g') (second : g'.Rewrites g'') :
    g.Rewrites g'' where
  wellFormed := second.wellFormed
  start := second.start.trans first.start
  terminals := second.terminals.trans first.terminals
  names name named := second.names name (first.names name named)
  stale := by
    rcases second.stale with rfl | stale
    · exact first.stale
    · exact .inr stale

theorem Rewrites.foldl {α : Type} {f : Grammar → α → Grammar} {l : List α} (valid : g.WellFormed)
    (each : ∀ h, g.Rewrites h → ∀ x ∈ l, h.Rewrites (f h x)) : g.Rewrites (l.foldl f g) :=
  List.foldlRecOn l f (.refl valid) fun h reached x inside =>
    reached.trans (each h reached x inside)

end Grammar

end Predictive
