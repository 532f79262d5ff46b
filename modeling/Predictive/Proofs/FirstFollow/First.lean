import Predictive.Proofs.Collection.Size
import Predictive.Proofs.FirstFollow.Begins
import Predictive.Proofs.FirstFollow.Iteration

set_option autoImplicit false

namespace Predictive

namespace Grammar

variable {g h : Grammar} {name t : Symbol} {P : Symbol → Symbol → Prop}

/-- The grammar with this FIRST set for a non-terminal. -/
def withFirst (g : Grammar) (name : Symbol) (first : OrderedSet Symbol) : Grammar :=
  g.overwrite name fun entry => { entry with first, nullable := decide (epsilon ∈ first) }

theorem sameRules_withFirst (g : Grammar) (name : Symbol) (first : OrderedSet Symbol) :
    g.SameRules (g.withFirst name first) := sameRules_overwrite fun _ => rfl

theorem storedFirst_withFirst (named : name ∈ g.names) (first : OrderedSet Symbol)
    (other : Symbol) : (g.withFirst name first).storedFirst other =
      if other = name then first else g.storedFirst other :=
  reading_overwrite_set named fun _ => rfl

theorem storedNullable_withFirst (named : name ∈ g.names) (first : OrderedSet Symbol)
    (other : Symbol) : (g.withFirst name first).storedNullable other =
      if other = name then decide (epsilon ∈ first) else g.storedNullable other :=
  reading_overwrite_set named fun _ => rfl

theorem storedFollow_withFirst (g : Grammar) (name : Symbol) (first : OrderedSet Symbol)
    (other : Symbol) : (g.withFirst name first).storedFollow other = g.storedFollow other :=
  reading_overwrite fun _ => rfl

theorem exists_firstOfBodies {bodies : List Body} (known : ∀ b ∈ bodies, g.Known b) :
    ∃ marks, g.firstOfBodies bodies = .ok marks ∧
      ∀ t, t ∈ marks ↔ ∃ b ∈ bodies, g.Begins t b := by
  obtain ⟨sets, done⟩ := exists_mapM_eq_ok fun b inside => exists_firstOf (known b inside)
  obtain ⟨left, right⟩ := mapM_eq_ok done
  refine ⟨sets.foldl (· ∪ ·) ∅, bind_eq_ok_iff.2 ⟨sets, done, rfl⟩, fun t => ?_⟩
  rw [OrderedSet.mem_foldl_union]
  constructor
  · intro found
    rcases found with never | ⟨marks, among, inside⟩
    · exact absurd never (OrderedSet.not_mem_empty t)
    · obtain ⟨b, listed, made⟩ := left marks among
      exact ⟨b, listed, (mem_firstOf made).1 inside⟩
  · intro found
    rcases found with ⟨b, listed, begins⟩
    obtain ⟨marks, among, made⟩ := right b listed
    exact .inr ⟨marks, among, (mem_firstOf made).2 begins⟩

/-- All bodies are sequences over the symbols of the grammar and `&`. -/
def BodiesKnown (g : Grammar) : Prop := ∀ name, ∀ b ∈ g.bodies name, g.Known b

theorem WellFormed.bodiesKnown (valid : g.WellFormed) : g.BodiesKnown := by
  intro name b inside s within
  by_cases mark : s = epsilon
  · exact .inl mark
  · exact .inr ((valid.fits name b inside).2 s (Body.mem_symbols.2 ⟨within, mark⟩))

/-- What a body begins with is allowed for its head, if all that is stored is allowed. -/
def FirstAllowed (g : Grammar) (P : Symbol → Symbol → Prop) : Prop :=
  ∀ h, g.SameRules h → (∀ name, ∀ t ∈ h.storedFirst name, P name t) →
    ∀ name, ∀ b ∈ g.bodies name, ∀ t, h.Begins t b → P name t

/-- What holds between passes over the FIRST sets of `g`: every stored mark is allowed by `P`, and
recomputed from the bodies of its non-terminal. -/
structure FirstState (g : Grammar) (P : Symbol → Symbol → Prop) (h : Grammar) : Prop extends
    g.SameRules h where
  flag : h.firstFollowValid = g.firstFollowValid
  follow : ∀ name, h.storedFollow name = g.storedFollow name
  nullable : ∀ name, h.storedNullable name = decide (epsilon ∈ h.storedFirst name)
  supported : ∀ name, ∀ t ∈ h.storedFirst name, ∃ b ∈ h.bodies name, h.Begins t b
  allowed : ∀ name, ∀ t ∈ h.storedFirst name, P name t

theorem FirstGrows.refl (g : Grammar) : g.FirstGrows g := fun _ _ inside => inside

theorem FirstGrows.trans {h' : Grammar} (first : g.FirstGrows h) (second : h.FirstGrows h') :
    g.FirstGrows h' := fun name t inside => second name t (first name t inside)

section Refresh

variable {marks : OrderedSet Symbol} (state : g.FirstState P h)
  (mem : ∀ t, t ∈ marks ↔ ∃ b ∈ (h.bodies name).toList, h.Begins t b)

include state mem in
theorem FirstState.grows_withFirst (named : name ∈ h.names) :
    h.FirstGrows (h.withFirst name marks) := by
  intro other t inside
  rw [storedFirst_withFirst named]
  split
  case isTrue same =>
    subst same
    exact (mem t).2 (state.supported other t inside)
  case isFalse => exact inside

include state mem in
theorem FirstState.exists_begins_of_withFirst (named : name ∈ h.names) {other : Symbol}
    (inside : t ∈ (h.withFirst name marks).storedFirst other) :
    ∃ b ∈ h.bodies other, h.Begins t b := by
  rw [storedFirst_withFirst named] at inside
  split at inside
  case isTrue same =>
    subst same
    exact (mem t).1 inside
  case isFalse => exact state.supported other t inside

include state mem in
theorem FirstState.withFirst (allowed : g.FirstAllowed P) (named : name ∈ h.names) :
    g.FirstState P (h.withFirst name marks) where
  toSameRules := state.toSameRules.trans (sameRules_withFirst h name marks)
  flag := state.flag
  follow other := (storedFollow_withFirst h name marks other).trans (state.follow other)
  nullable other := by
    rw [storedNullable_withFirst named, storedFirst_withFirst named]
    split
    case isTrue => rfl
    case isFalse => exact state.nullable other
  supported other t inside := by
    have rules := sameRules_withFirst h name marks
    obtain ⟨b, listed, begins⟩ := state.exists_begins_of_withFirst mem named inside
    rw [← rules.bodies] at listed
    exact ⟨b, listed, (state.grows_withFirst mem named).begins rules.names begins⟩
  allowed other t inside := by
    obtain ⟨b, listed, begins⟩ := state.exists_begins_of_withFirst mem named inside
    rw [state.bodies] at listed
    exact allowed h state.toSameRules state.allowed other b listed t begins

end Refresh

theorem FirstState.refresh (known : g.BodiesKnown) (allowed : g.FirstAllowed P)
    (state : g.FirstState P h) (named : name ∈ g.names) :
    ∃ h', h.refreshFirst name = .ok h' ∧ g.FirstState P h' ∧ h.FirstGrows h' ∧
      ∀ b ∈ g.bodies name, ∀ t, h.Begins t b → t ∈ h'.storedFirst name := by
  have named' : name ∈ h.names := by rwa [state.names]
  have knownBodies : ∀ b ∈ (h.bodies name).toList, h.Known b := by
    intro b inside
    rw [OrderedSet.mem_toList, state.bodies] at inside
    intro s within
    rw [state.allSymbols]
    exact known name b inside s within
  obtain ⟨marks, done, mem⟩ := exists_firstOfBodies knownBodies
  refine ⟨h.withFirst name marks, bind_eq_ok_iff.2 ⟨marks, done, rfl⟩, ?_, ?_, ?_⟩
  · exact state.withFirst mem allowed named'
  · exact state.grows_withFirst mem named'
  · intro b inside t begins
    rw [← state.bodies] at inside
    rw [storedFirst_withFirst named', if_pos rfl, mem]
    exact ⟨b, inside, begins⟩

theorem FirstState.pass (known : g.BodiesKnown) (allowed : g.FirstAllowed P)
    (state : g.FirstState P h) :
    ∃ h', h.firstPass = .ok h' ∧ g.FirstState P h' ∧ h.FirstGrows h' ∧
      ∀ name ∈ g.names, ∀ b ∈ g.bodies name, ∀ t, h.Begins t b → t ∈ h'.storedFirst name := by
  have folded := foldlM_spec (f := refreshFirst) (R := FirstGrows) (l := g.names)
    (I := g.FirstState P)
    (Q := fun name h' => ∀ b ∈ g.bodies name, ∀ t, h.Begins t b → t ∈ h'.storedFirst name)
    FirstGrows.refl FirstGrows.trans
    (fun grows reached b inside t begins => grows _ t (reached b inside t begins))
    (fun name named a inv above => by
      obtain ⟨next, done, inv', up, reached⟩ := inv.refresh known allowed named
      refine ⟨next, done, inv', up, fun b inside t begins => reached b inside t ?_⟩
      exact above.begins (inv.names.trans state.names.symm) begins)
    state (.refl h)
  rw [firstPass, sweep, state.names]
  exact folded

theorem FirstState.ext {h' : Grammar} (left : g.FirstState P h) (right : g.FirstState P h')
    (same : ∀ name, h'.storedFirst name = h.storedFirst name) : h' = h := by
  refine ext_stored (left.toSameRules.symm.trans right.toSameRules) ?_ same ?_ ?_
  · rw [right.flag, left.flag]
  · intro name
    rw [right.follow, left.follow]
  · intro name
    rw [right.nullable, left.nullable, same]

/-- The number of stored FIRST marks. -/
def firstSize (g : Grammar) : Nat := OrderedSet.totalSize g.names g.storedFirst

theorem FirstState.firstSize_lt {h' : Grammar} (left : g.FirstState P h) (right : g.FirstState P h')
    (grows : h.FirstGrows h') (other : h' ≠ h) : h.firstSize < h'.firstSize := by
  rw [firstSize, firstSize, left.names, right.names]
  apply OrderedSet.totalSize_lt_of_ne grows
  · intro name unnamed
    apply storedFirst_of_not_mem
    rwa [right.names]
  · intro same
    exact other (left.ext right (congrFun same))

/-- The marks that may stand in a FIRST set. -/
def firstMarks (g : Grammar) : List Symbol := epsilon :: g.terminals.toList

theorem FirstState.exists_settles (known : g.BodiesKnown) (allowed : g.FirstAllowed P)
    (limited : ∀ name t, P name t → t ∈ g.firstMarks) (state : g.FirstState P h) :
    ∃ n r, Settles firstPass n h r ∧ n ≤ g.passBound ∧ g.FirstState P r := by
  have total : ∀ s, g.FirstState P s → ∃ next, s.firstPass = .ok next ∧ g.FirstState P next ∧
      (next ≠ s → s.firstSize < next.firstSize) := by
    intro s inv
    obtain ⟨next, done, inv', grows, -⟩ := inv.pass known allowed
    exact ⟨next, done, inv', inv.firstSize_lt inv' grows⟩
  have small : ∀ s, g.FirstState P s → s.firstSize ≤ g.names.length * g.firstMarks.length := by
    intro s inv
    rw [firstSize, inv.names]
    exact OrderedSet.totalSize_le fun name _ t inside => limited name t (inv.allowed name t inside)
  obtain ⟨n, r, settles, few, inv⟩ := Predictive.exists_settles total small state
  have marks : g.firstMarks.length = g.terminals.size + 1 := rfl
  refine ⟨n, r, settles, ?_, inv⟩
  rw [passBound, ← marks]
  omega

/-- Repeated passes from empty sets come to sets that the bodies add nothing to. -/
theorem computeFirst_spec (known : g.BodiesKnown) (allowed : g.FirstAllowed P)
    (limited : ∀ name t, P name t → t ∈ g.firstMarks) (state : g.FirstState P h) :
    ∃ r, h.computeFirst = .ok r ∧ g.FirstState P r ∧
      ∀ name, ∀ b ∈ r.bodies name, ∀ t, r.Begins t b → t ∈ r.storedFirst name := by
  obtain ⟨n, r, settles, few, inv⟩ := state.exists_settles known allowed limited
  rw [← state.passBound] at few
  refine ⟨r, settles.untilStable_eq few, inv, fun name b inside t begins => ?_⟩
  obtain ⟨r', passed, -, -, all⟩ := inv.pass known allowed
  obtain rfl := Except.ok.inj (settles.step_eq.symm.trans passed)
  rw [inv.bodies] at inside
  exact all name (mem_names_of_mem_bodies inside) b inside t begins

end Grammar

end Predictive
